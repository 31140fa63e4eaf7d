import ParseTree.Proofs.Operators
import ParseTree.Rule.Table

/-!
# What a rule can reach

A rule that is applied to a node may run any number of edits, and its focus may wander. It stays in
the subtree of the node, though, or among nodes that the rule itself made. Of the rest of the arena
a rule sees one list, the one that the node is in, and it can do two things there: replace the node
by nodes from its subtree, or move nodes that follow it below it. In particular what stood in front
of the node stays, and of what stood behind it an end segment stays.

`Confined` says this of an arena that a rule has come to, and is kept by each of its edits. An edit
either changes lists inside only, or acts on the node itself while it is still where it was. After
that the focus is a new node or a root, so the second case comes up once.

## Main results

* `Confined.edit`, `Confined.action`: edits are confined, and so are actions.
* `RuleTable.transform_confined`: so is the matching rule of any table.
-/

namespace ParseTree

namespace Arena

/-! ## Sites -/

/-- A node, and the list that it is in. -/
structure Site (a : Arena) where
  node : NodeId
  owner : NodeId
  before : List NodeId
  after : List NodeId
  children_owner : a.children owner = before ++ node :: after

/-- A node that was there and is not in the subtree of the site. -/
def Site.Outside {a : Arena} (s : Site a) (x : NodeId) : Prop :=
  x < a.size ∧ ¬ a.Within x s.node

/-- Edits at a site have led to arena `b` with focus `f`, and `rest` is what has stayed behind the
node of the site in its list. -/
structure Site.Confined {a : Arena} (s : Site a) (rest : List NodeId) (b : Arena) (f : NodeId) :
    Prop where
  linked : b.Linked
  size_le : a.size ≤ b.size
  /-- Outside, all lists but one have stayed. -/
  children_eq : ∀ x, s.Outside x → x ≠ s.owner → b.children x = a.children x
  /-- The node is where it was, or nodes from inside are there and nothing behind has moved. -/
  children_owner : ∃ middle, b.children s.owner = s.before ++ middle ++ rest ∧
    (∀ x ∈ middle, ¬ s.Outside x) ∧ (middle = [s.node] ∨ s.node ∉ middle ∧ rest = s.after)
  focus_lt : f < b.size
  focus_inside : ¬ s.Outside f
  children_focus : ∀ x ∈ b.children f, ¬ s.Outside x
  /-- The focus is below a node inside, or it is the node of the site and nothing has happened. -/
  parent_focus : ∀ {q}, (b.node f).parent = some q → ¬ s.Outside q ∨
    q = s.owner ∧ f = s.node ∧ rest = s.after ∧
      b.children s.owner = s.before ++ s.node :: s.after

variable {a b d : Arena} {s : Site a} {rest : List NodeId} {f g i x : NodeId}
  {kids : NodeId → List NodeId} {before after siblings middle : List NodeId}

namespace Site

theorem parent_node (s : Site a) (h : a.Linked) : (a.node s.node).parent = some s.owner :=
  h.parent_eq s.children_owner

theorem outside_owner (s : Site a) (h : a.Linked) : s.Outside s.owner := by
  have hnode := s.parent_node h
  exact ⟨h.parent_lt_size hnode, fun hin => h.acyclic _ (hin.trans_below (.of_parent hnode))⟩

theorem not_outside_node (s : Site a) : ¬ s.Outside s.node :=
  fun hout => hout.2 (.refl a s.node)

theorem not_outside_of_size_le (s : Site a) (hx : a.size ≤ x) : ¬ s.Outside x :=
  fun hout => Nat.not_lt.mpr hx hout.1

/-- The other nodes of the list are outside. -/
theorem outside_of_mem (s : Site a) (h : a.Linked) (hx : x ∈ a.children s.owner)
    (hne : x ≠ s.node) : s.Outside x := by
  refine ⟨h.lt_size_of_mem hx, fun hin => hne ?_⟩
  exact h.eq_of_within (h.mem_children.mp hx) (s.parent_node h) (.refl a x) hin

theorem outside_of_mem_after (s : Site a) (h : a.Linked) (hx : x ∈ s.after) : s.Outside x := by
  have hnd := h.nodup_children s.owner
  rw [s.children_owner] at hnd
  refine s.outside_of_mem h (by simp [s.children_owner, hx]) ?_
  grind

/-- The nodes in the subtrees behind the node are outside, and not the owner. -/
theorem outside_of_within_after (s : Site a) (h : a.Linked) (hx : x ∈ s.after)
    (hy : a.Within g x) : s.Outside g ∧ g ≠ s.owner := by
  have hxo : (a.node x).parent = some s.owner :=
    h.mem_children.mp (by rw [s.children_owner]; simp [hx])
  refine ⟨⟨?_, fun hgn => ?_⟩, ?_⟩
  · rcases within_iff.mp hy with rfl | hy
    · exact lt_size_of_parent hxo
    · exact hy.lt_size
  · -- a node below two children of the owner would make them one
    have hxn : x = s.node := h.eq_of_within hxo (s.parent_node h) hy hgn
    exact (s.outside_of_mem_after h hx).2 (hxn ▸ .refl a x)
  · rintro rfl
    exact h.acyclic _ (hy.trans_below (.of_parent hxo))

/-- Nothing has happened yet. -/
theorem confined (s : Site a) (h : a.Linked) : s.Confined s.after a s.node where
  linked := h
  size_le := Nat.le_refl _
  children_eq _ _ _ := rfl
  children_owner := ⟨[s.node], by simp [s.children_owner], by simp [s.not_outside_node], .inl rfl⟩
  focus_lt := lt_size_of_parent (s.parent_node h)
  focus_inside := s.not_outside_node
  children_focus x hx hout := hout.2 (.of_parent (h.mem_children.mp hx))
  parent_focus {q} hq := by
    obtain rfl : s.owner = q := Option.some.inj ((s.parent_node h).symm.trans hq)
    exact .inr ⟨rfl, rfl, rfl, s.children_owner⟩

end Site

namespace Site.Confined

/-! ## The two kinds of edits -/

/-- **Edits inside.** If no list outside changes, the focus may stay or be a new node. -/
theorem inside (ha : a.Linked) (h : s.Confined rest b f) (hd : b.Relinked d kids)
    (hkids : ∀ x, s.Outside x → kids x = b.children x) (hg : g = f ∨ g = b.size)
    (hlt : g < d.size) (hchildren : ∀ x ∈ kids g, ¬ s.Outside x) : s.Confined rest d g := by
  have hout : ∀ {x}, s.Outside x → d.children x = b.children x := by
    intro x hx
    rw [hd.children_eq x (Nat.lt_of_lt_of_le hx.1 h.size_le), hkids x hx]
  have howner : d.children s.owner = b.children s.owner := hout (s.outside_owner ha)
  refine ⟨hd.linked, Nat.le_trans h.size_le hd.size_le, fun x hx hne => ?_, ?_, hlt, ?_,
    fun x hx hxo => ?_, fun {q} hq => ?_⟩
  · rw [hout hx, h.children_eq x hx hne]
  · rw [howner]
    exact h.children_owner
  · rcases hg with rfl | rfl
    · exact h.focus_inside
    · exact s.not_outside_of_size_le h.size_le
  · exact hchildren x (hd.mem_children (Nat.lt_of_lt_of_le hxo.1 h.size_le) hx) hxo
  · -- a parent outside lists the focus as it did before, so the focus is not new
    by_cases hqo : s.Outside q
    · have hmem : g ∈ b.children q := by
        rw [← hout hqo]
        exact hd.linked.mem_children_of_parent hq
      rcases hg with rfl | rfl
      · rw [howner]
        exact h.parent_focus (h.linked.mem_children.mp hmem)
      · exact absurd (h.linked.lt_size_of_mem hmem) (Nat.lt_irrefl _)
    · exact .inl hqo

/-- **Edits of the node itself.** They change the list that the node is in, and leave the focus a
root or move it to a new node. -/
theorem at_node (ha : a.Linked) (h : s.Confined rest b f) (hd : b.Relinked d kids)
    (hf : f = s.node) (howner : b.children s.owner = s.before ++ s.node :: s.after)
    (hkids : ∀ x, s.Outside x → x ≠ s.owner → kids x = b.children x) {rest' : List NodeId}
    (hlist : kids s.owner = s.before ++ middle ++ rest') (hmiddle : ∀ x ∈ middle, ¬ s.Outside x)
    (hnode : middle = [s.node] ∧ g = b.size ∨ s.node ∉ middle ∧ rest' = s.after ∧ g = f)
    (hrest : rest' <:+ s.after) (hlt : g < d.size) (hchildren : ∀ x ∈ kids g, ¬ s.Outside x) :
    s.Confined rest' d g := by
  have hps : s.owner < b.size := Nat.lt_of_lt_of_le (s.outside_owner ha).1 h.size_le
  have hout : ∀ {x}, s.Outside x → x ≠ s.owner → d.children x = b.children x := by
    intro x hx hne
    rw [hd.children_eq x (Nat.lt_of_lt_of_le hx.1 h.size_le), hkids x hx hne]
  have hlist' : d.children s.owner = s.before ++ middle ++ rest' := by
    rw [hd.children_eq s.owner hps, hlist]
  have hnd := h.linked.nodup_children s.owner
  rw [howner] at hnd
  have hslot : ∀ x ∈ s.before ++ s.node :: s.after, x < b.size := fun x hx =>
    h.linked.lt_size_of_mem (howner ▸ hx)
  have hsub : ∀ x ∈ rest', x ∈ s.after := fun x hx => hrest.subset hx
  have hfs : f < b.size := h.focus_lt
  refine ⟨hd.linked, Nat.le_trans h.size_le hd.size_le, fun x hx hne => ?_,
    ⟨middle, hlist', hmiddle, ?_⟩, hlt, ?_, fun x hx hxo => ?_, fun {q} hq => .inl fun hqo => ?_⟩
  · rw [hout hx hne, h.children_eq x hx hne]
  · exact hnode.imp And.left fun hn => ⟨hn.1, hn.2.1⟩
  · rcases hnode with ⟨-, rfl⟩ | ⟨-, -, rfl⟩
    · exact s.not_outside_of_size_le h.size_le
    · exact h.focus_inside
  · exact hchildren x (hd.mem_children (Nat.lt_of_lt_of_le hxo.1 h.size_le) hx) hxo
  · -- no list outside has the focus any more
    have hmem : g ∈ d.children q := hd.linked.mem_children_of_parent hq
    by_cases hqp : q = s.owner
    · rw [hqp, hlist'] at hmem
      rcases hnode with ⟨rfl, rfl⟩ | ⟨hnm, rfl, rfl⟩
      · refine Nat.lt_irrefl b.size (hslot _ ?_)
        have := hsub b.size
        grind
      · subst hf
        grind
    · rw [hout hqo hqp] at hmem
      rcases hnode with ⟨-, rfl⟩ | ⟨-, -, rfl⟩
      · exact Nat.lt_irrefl _ (h.linked.lt_size_of_mem hmem)
      · have hfp : (b.node g).parent = some s.owner := h.linked.parent_eq (hf ▸ howner)
        exact hqp (Option.some.inj ((h.linked.mem_children.mp hmem).symm.trans hfp))

/-- The focus is in a list inside, or it is the node of the site, with the same nodes around it. -/
theorem list_focus (h : s.Confined rest b f) {q : NodeId}
    (hq : b.children q = before ++ f :: after) :
    ¬ s.Outside q ∨ q = s.owner ∧ f = s.node ∧ before = s.before ∧ after = s.after ∧
      rest = s.after ∧ b.children s.owner = s.before ++ s.node :: s.after := by
  refine (h.parent_focus (h.linked.parent_eq hq)).imp_right ?_
  rintro ⟨rfl, rfl, hrest, howner⟩
  have hnd := h.linked.nodup_children s.owner
  rw [hq] at hnd
  have heq : before ++ s.node :: after = s.before ++ s.node :: s.after := hq.symm.trans howner
  have hni : s.node ∉ before ∧ s.node ∉ after := by grind
  obtain ⟨hbefore, -, hafter⟩ := (List.append_cons_inj_of_notMem hni.1 hni.2).mp heq
  exact ⟨rfl, rfl, hbefore, hafter, hrest, howner⟩

/-! ## Edits of the focus -/

/-- Labels may be set anywhere. -/
theorem of_sameLinks (ha : a.Linked) (h : s.Confined rest b f) (hd : b.SameLinks d)
    (hsize : d.size = b.size) : s.Confined rest d f :=
  h.inside ha (h.linked.relinked_of_sameLinks hd (Nat.le_of_eq hsize.symm)) (fun _ _ => rfl)
    (.inl rfl) (hsize ▸ h.focus_lt) h.children_focus

theorem promoted (ha : a.Linked) (h : s.Confined rest b f) {q : NodeId}
    (hq : b.children q = before ++ f :: after)
    (hd : b.Relinked d (b.promoted q f before after)) : s.Confined rest d f := by
  have hlt : f < d.size := Nat.lt_of_lt_of_le h.focus_lt hd.size_le
  have hnil : ∀ x ∈ b.promoted q f before after f, ¬ s.Outside x := by
    simp [Arena.promoted]
  have hkids : ∀ x, s.Outside x → x ≠ q → b.promoted q f before after x = b.children x := by
    intro x hx hxq
    have hxf : x ≠ f := fun hxf => h.focus_inside (hxf ▸ hx)
    rw [Arena.promoted, Function.update_of_ne hxf, Function.update_of_ne hxq]
  rcases h.list_focus hq with hqi | ⟨rfl, hf, rfl, rfl, hrest, howner⟩
  · exact h.inside ha hd (fun x hx => hkids x hx fun hxq => hqi (hxq ▸ hx)) (.inl rfl) hlt hnil
  · have hof : s.owner ≠ f := fun hof => h.focus_inside (hof ▸ s.outside_owner ha)
    have hnode : s.node ∉ b.children f := by
      rw [hf]
      exact fun hmem => h.linked.ne_of_parent (h.linked.mem_children.mp hmem) rfl
    have hlist : b.promoted s.owner f s.before s.after s.owner =
        s.before ++ b.children f ++ rest := by
      rw [Arena.promoted, Function.update_of_ne hof, Function.update_self, hrest]
    exact h.at_node ha hd hf howner hkids hlist h.children_focus (.inr ⟨hnode, hrest, rfl⟩)
      (hrest ▸ List.suffix_refl _) hlt hnil

theorem shortened (ha : a.Linked) (h : s.Confined rest b f) {q : NodeId}
    (hq : b.children q = before ++ f :: after)
    (hd : b.Relinked d (b.shortened q before after)) : s.Confined rest d f := by
  have hlt : f < d.size := Nat.lt_of_lt_of_le h.focus_lt hd.size_le
  have hqf : f ≠ q := h.linked.ne_of_parent (h.linked.parent_eq hq)
  have hchildren : ∀ x ∈ b.shortened q before after f, ¬ s.Outside x := by
    rw [Arena.shortened, Function.update_of_ne hqf]
    exact h.children_focus
  have hkids : ∀ x, s.Outside x → x ≠ q → b.shortened q before after x = b.children x :=
    fun x _ hxq => Function.update_of_ne hxq _ _
  rcases h.list_focus hq with hqi | ⟨rfl, hf, rfl, rfl, hrest, howner⟩
  · exact h.inside ha hd (fun x hx => hkids x hx fun hxq => hqi (hxq ▸ hx)) (.inl rfl) hlt hchildren
  · have hlist : b.shortened s.owner s.before s.after s.owner = s.before ++ [] ++ rest := by
      rw [Arena.shortened, Function.update_self, hrest, List.append_nil]
    exact h.at_node ha hd hf howner hkids hlist (by simp) (.inr ⟨by simp, hrest, rfl⟩)
      (hrest ▸ List.suffix_refl _) hlt hchildren

theorem lengthened (ha : a.Linked) (h : s.Confined rest b f)
    (hf : b.children f = before ++ after) (hd : b.Relinked d (b.lengthened f before after)) :
    s.Confined rest d f := by
  refine h.inside ha hd (fun x hx => ?_) (.inl rfl) (Nat.lt_of_lt_of_le h.focus_lt hd.size_le)
    fun x hx => ?_
  · have hxf : x ≠ f := fun hxf => h.focus_inside (hxf ▸ hx)
    rw [Arena.lengthened, Function.update_of_ne hxf]
  · rw [Arena.lengthened, Function.update_self] at hx
    have hmem : x = b.size ∨ x ∈ b.children f := by grind
    rcases hmem with rfl | hmem
    · exact s.not_outside_of_size_le h.size_le
    · exact h.children_focus x hmem

/-- A level below a node inside. The focus stays if it is not that node, and else goes with what it
held. -/
theorem deepened (ha : a.Linked) (h : s.Confined rest b f) (hi : ¬ s.Outside i) (his : i < b.size)
    (hd : b.Relinked d (b.deepened i)) (hg : g = f ∧ i ≠ f ∨ g = b.size ∧ i = f) :
    s.Confined rest d g := by
  have hfs : f ≠ b.size := Nat.ne_of_lt h.focus_lt
  have hlt : b.size < d.size := hd.size_lt his (by
    rw [Arena.deepened, Function.update_of_ne (Nat.ne_of_lt his), Function.update_self]
    simp)
  refine h.inside ha hd (fun x hx => ?_) (hg.imp And.left And.left) ?_ fun x hx => ?_
  · have hxi : x ≠ i := fun hxi => hi (hxi ▸ hx)
    have hxs : x ≠ b.size := fun hxs => s.not_outside_of_size_le (hxs ▸ h.size_le) hx
    rw [Arena.deepened, Function.update_of_ne hxs, Function.update_of_ne hxi]
  · rcases hg with ⟨rfl, -⟩ | ⟨rfl, -⟩
    · exact Nat.lt_trans h.focus_lt hlt
    · exact hlt
  · refine h.children_focus x ?_
    rcases hg with ⟨rfl, hne⟩ | ⟨rfl, rfl⟩
    · rwa [Arena.deepened, Function.update_of_ne hfs, Function.update_of_ne (Ne.symm hne)] at hx
    · rwa [Arena.deepened, Function.update_self] at hx

/-- The focus is gathered with siblings. If it is the node of the site, these are nodes that
followed it there, and what is left behind the node begins after them. -/
theorem gathered (ha : a.Linked) (h : s.Confined rest b f) {q : NodeId}
    (hq : b.children q = before ++ f :: (siblings ++ after))
    (hd : b.Relinked d (b.gathered q f before siblings after)) :
    ∃ rest', rest' <:+ rest ∧ s.Confined rest' d b.size := by
  have hqf : f ≠ q := h.linked.ne_of_parent (h.linked.parent_eq hq)
  have hfs : f ≠ b.size := Nat.ne_of_lt h.focus_lt
  have hqs : q ≠ b.size := Nat.ne_of_lt (h.linked.parent_lt_size (h.linked.parent_eq hq))
  have hlt : b.size < d.size := hd.size_lt h.focus_lt (by
    rw [Arena.gathered, Function.update_of_ne hfs, Function.update_self]
    simp)
  have hchildren : ∀ x ∈ b.gathered q f before siblings after b.size, ¬ s.Outside x := by
    rw [Arena.gathered, Function.update_self]
    exact h.children_focus
  have hkids : ∀ x, s.Outside x → x ≠ q →
      b.gathered q f before siblings after x = b.children x := by
    intro x hx hxq
    have hxf : x ≠ f := fun hxf => h.focus_inside (hxf ▸ hx)
    have hxs : x ≠ b.size := fun hxs => s.not_outside_of_size_le (hxs ▸ h.size_le) hx
    rw [Arena.gathered, Function.update_of_ne hxs, Function.update_of_ne hxf,
      Function.update_of_ne hxq]
  rcases h.list_focus hq with hqi | ⟨rfl, hf, rfl, hafter, hrest, howner⟩
  · exact ⟨rest, List.suffix_refl _,
      h.inside ha hd (fun x hx => hkids x hx fun hxq => hqi (hxq ▸ hx)) (.inr rfl) hlt hchildren⟩
  · have hsuffix : after <:+ s.after := ⟨siblings, hafter⟩
    have hlist : b.gathered s.owner f s.before siblings after s.owner =
        s.before ++ [s.node] ++ after := by
      rw [Arena.gathered, Function.update_of_ne hqs, Function.update_of_ne (Ne.symm hqf),
        Function.update_self, hf]
      simp
    exact ⟨after, hrest ▸ hsuffix, h.at_node ha hd hf howner hkids hlist
      (by simp [s.not_outside_node]) (.inl ⟨rfl, rfl⟩) hsuffix hlt hchildren⟩

/-- The children of the focus are gathered, all of them. -/
theorem gathered_children (ha : a.Linked) (h : s.Confined rest b f) {first : NodeId}
    (hf : b.children f = first :: siblings)
    (hd : b.Relinked d (b.gathered f first [] siblings [])) : s.Confined rest d f := by
  have hfirst : ¬ s.Outside first := h.children_focus first (by simp [hf])
  have hff : first ≠ f := h.linked.ne_of_parent (h.linked.mem_children.mp (by simp [hf]))
  have hfs : f ≠ b.size := Nat.ne_of_lt h.focus_lt
  refine h.inside ha hd (fun x hx => ?_) (.inl rfl) (Nat.lt_of_lt_of_le h.focus_lt hd.size_le)
    fun x hx => ?_
  · have hxf : x ≠ f := fun hxf => h.focus_inside (hxf ▸ hx)
    have hxi : x ≠ first := fun hxi => hfirst (hxi ▸ hx)
    have hxs : x ≠ b.size := fun hxs => s.not_outside_of_size_le (hxs ▸ h.size_le) hx
    rw [Arena.gathered, Function.update_of_ne hxs, Function.update_of_ne hxi,
      Function.update_of_ne hxf]
  · rw [Arena.gathered, Function.update_of_ne hfs, Function.update_of_ne (Ne.symm hff),
      Function.update_self] at hx
    obtain rfl : x = first := by simpa using hx
    exact hfirst

end Site.Confined

end Arena

/-! ## Edits, actions and rules -/

/-- Whether an edit may gather siblings of the focus. -/
def Edit.gathersSiblings : Edit → Bool
  | .gatherWithSiblings _ | .gatherWithNext .. => true
  | _ => false

open Arena

variable {a b : Arena} {s : Arena.Site a} {rest : List NodeId} {f g : NodeId} {input : String}

/-- The outcome of edits at a site is confined, and the focus that it gives is the one that the
edits have come to. Only edits that gather siblings shorten what is left behind the node. -/
def Arena.Site.Allows (s : Arena.Site a) (rest : List NodeId) (gathers : Bool)
    (o : Outcome NodeId) : Prop :=
  ∃ rest' g, s.Confined rest' o.arena g ∧ rest' <:+ rest ∧
    (∀ g', o.result = .ok g' → g' = g) ∧ (gathers = false → rest' = rest)

theorem Arena.Site.Confined.allows_refused (h : s.Confined rest b f) (gathers : Bool)
    {o : Outcome NodeId} (ho : b.Refused o) : s.Allows rest gathers o := by
  obtain ⟨error, log, rfl⟩ := ho
  exact ⟨rest, f, h, List.suffix_refl _, by simp, fun _ => rfl⟩

theorem Arena.Site.Confined.allows_ok (h : s.Confined rest b f) (gathers : Bool) :
    s.Allows rest gathers (.ok b f) :=
  ⟨rest, f, h, List.suffix_refl _, fun _ hg => (Except.ok.inj hg).symm, fun _ => rfl⟩

/-- Gathering the focus with siblings, whichever they are. -/
theorem Arena.Site.Confined.allows_gatherWithSiblings (ha : a.Linked) (h : s.Confined rest b f)
    (label : String) (siblings : List NodeId) :
    s.Allows rest true (b.gatherWithSiblings f label siblings) := by
  rcases h.linked.gatherWithSiblings_cases h.focus_lt label siblings with
    hno | ⟨-, d, hok, hd, -⟩ | ⟨q, before, after, d, hq, hok, hd, -⟩
  · exact h.allows_refused true hno
  · rw [hok]
    exact (h.deepened ha h.focus_inside h.focus_lt hd (.inr ⟨rfl, rfl⟩)).allows_ok true
  · rw [hok]
    obtain ⟨rest', hrest', hd'⟩ := h.gathered ha hq hd
    exact ⟨rest', b.size, hd', hrest', fun _ hg => (Except.ok.inj hg).symm, by simp⟩

/-- Gathering all children of the focus, if it has any. -/
theorem Arena.Site.Confined.allows_gatherChildren (ha : a.Linked) (h : s.Confined rest b f)
    (label : String) : s.Allows rest false ((Edit.gatherChildren label).apply input b f) := by
  rw [Edit.apply]
  cases hfirst : (b.node f).firstChild with
  | none => exact h.allows_ok false
  | some first =>
    obtain ⟨siblings, hf⟩ : ∃ siblings, b.children f = first :: siblings :=
      List.head?_eq_some_iff.mp ((h.linked.childList f).firstChild.symm.trans hfirst)
    have hsplit : b.children f = [] ++ first :: siblings := hf
    have hright : b.rightSiblings first = siblings := h.linked.rightSiblings_eq hsplit
    rw [← List.append_nil siblings] at hsplit
    obtain ⟨d, hok, hlinked, hsize, -, hkids⟩ := h.linked.gatherWithSiblings label hsplit
    have hd : b.Relinked d (b.gathered f first [] siblings []) :=
      .of_children_eq ⟨hlinked, hkids⟩ (hsize ▸ Nat.le_succ _)
    dsimp only
    rw [hright, hok]
    exact (h.gathered_children ha hf hd).allows_ok false

/-- Gathering the first child of the focus, if it has one. -/
theorem Arena.Site.Confined.allows_gatherFirstChild (ha : a.Linked) (h : s.Confined rest b f)
    (label : String) : s.Allows rest false ((Edit.gatherFirstChild label).apply input b f) := by
  rw [Edit.apply]
  cases hfirst : (b.node f).firstChild with
  | none => exact h.allows_ok false
  | some first =>
    have hmem : first ∈ b.children f :=
      List.mem_of_mem_head? ((h.linked.childList f).firstChild.symm.trans hfirst)
    have hlt : first < b.size := h.linked.lt_size_of_mem hmem
    have hne : first ≠ f := h.linked.ne_of_parent (h.linked.mem_children.mp hmem)
    have hd := h.linked.gather_relinked hlt label
    exact (h.deepened ha (h.children_focus first hmem) hlt hd (.inl ⟨rfl, hne⟩)).allows_ok false

/-- **Edits are confined.** -/
theorem Arena.Site.Confined.edit (ha : a.Linked) (h : s.Confined rest b f) (input : String)
    (e : Edit) : s.Allows rest e.gathersSiblings (e.apply input b f) := by
  cases e with
  | literal =>
    unfold Edit.apply
    dsimp only
    cases b.underlyingText? f input with
    | none => exact h.allows_refused _ (refused_fail ..)
    | some text =>
      exact (h.of_sameLinks ha (sameLinks_setLabel b f text) (size_update ..)).allows_ok _
  | foldUnder =>
    rw [Edit.apply]
    rcases h.linked.foldUnder_cases f with ⟨-, hno⟩ | ⟨q, before, after, d, hq, hok, hd, -⟩
    · exact h.allows_refused _ (hno.map _)
    · rw [hok]
      exact (h.promoted ha hq hd).allows_ok _
  | foldOver =>
    rw [Edit.apply]
    rcases h.linked.foldOver_cases f with ⟨-, hno⟩ | ⟨q, before, after, d, hq, hok, hd, -⟩
    · exact h.allows_refused _ (hno.map _)
    · rw [hok]
      exact (h.promoted ha hq hd).allows_ok _
  | gather label =>
    have hd := h.linked.gather_relinked h.focus_lt label
    exact (h.deepened ha h.focus_inside h.focus_lt hd (.inr ⟨rfl, rfl⟩)).allows_ok _
  | gatherWithSiblings label => exact h.allows_gatherWithSiblings ha label _
  | gatherWithNext label count =>
    rw [Edit.apply]
    split
    · exact h.allows_refused _ (refused_fail ..)
    · exact h.allows_gatherWithSiblings ha label _
  | gatherChildren label => exact h.allows_gatherChildren ha label
  | gatherFirstChild label => exact h.allows_gatherFirstChild ha label
  | tear =>
    rw [Edit.apply]
    rcases h.linked.tear_cases f with ⟨-, hno⟩ | ⟨q, before, after, d, hq, hok, hd, -⟩
    · exact h.allows_refused _ (hno.map _)
    · rw [hok]
      exact (h.shortened ha hq hd).allows_ok _
  | tearAs key =>
    rw [Edit.apply]
    rcases h.linked.tearInto_cases f key with ⟨-, hno⟩ | ⟨q, before, after, d, hq, hok, hd, -⟩
    · exact h.allows_refused _ (hno.map _)
    · rw [hok]
      exact (h.shortened ha hq hd).allows_ok _
  | insert position key =>
    rw [Edit.apply]
    rcases h.linked.insert_cases h.focus_lt position.toNat key with
      hno | ⟨before, after, d, hf, hok, hd, -⟩
    · exact h.allows_refused _ (hno.map _)
    · rw [hok]
      exact (h.lengthened ha hf hd).allows_ok _

/-- **Sequences of edits are confined**, whether they come to their end or fail on the way. -/
theorem Arena.Site.Confined.edits (ha : a.Linked) (h : s.Confined rest b f) (input : String)
    (es : List Edit) :
    s.Allows rest (es.any Edit.gathersSiblings) (Edit.applyAll input es b f) := by
  induction es generalizing rest b f with
  | nil => exact h.allows_ok _
  | cons e es ih =>
    rw [Edit.applyAll, List.any_cons]
    obtain ⟨rest', g, hd, hrest, hg, hsame⟩ := h.edit ha input e
    match ho : e.apply input b f with
    | ⟨.error error, d, log⟩ =>
      rw [ho] at hd
      refine ⟨rest', g, hd, hrest, by simp [Outcome.bind], fun hno => hsame ?_⟩
      exact (Bool.or_eq_false_iff.mp hno).1
    | ⟨.ok g', d, log⟩ =>
      rw [ho] at hd hg
      obtain rfl : g' = g := hg g' rfl
      obtain ⟨rest'', g'', hd', hrest', hg', hsame'⟩ := ih hd
      refine ⟨rest'', g'', hd', hrest'.trans hrest, hg', fun hno => ?_⟩
      obtain ⟨hhead, htail⟩ := Bool.or_eq_false_iff.mp hno
      rw [hsame' htail, hsame hhead]

/-- Whether a gathering of siblings of the focus is an edit of the action. -/
def Action.gathersSiblings (x : Action) : Bool :=
  x.edits.any Edit.gathersSiblings

/-- **Actions are confined**, however their sequences are nested. -/
theorem Arena.Site.Confined.action (ha : a.Linked) (h : s.Confined rest b f) (input : String)
    (x : Action) : s.Allows rest x.gathersSiblings (x.apply input b f) := by
  rw [Action.apply_eq_applyEdits]
  exact h.edits ha input x.edits

/-- Whether some rule of the table has an action that gathers siblings of the focus. -/
def RuleTable.gathersSiblings (t : RuleTable) : Bool :=
  t.entries.any fun e => e.2.any fun r => r.action.gathersSiblings

/-- The rule that a node matches is in the table. -/
theorem RuleTable.gathersSiblings_of_match? {t : RuleTable} {i : NodeId} {r : Rule}
    (hr : t.match? a i = some r) (ht : t.gathersSiblings = false) :
    r.action.gathersSiblings = false := by
  have hmem : r ∈ t.rulesFor (a.node i).label := List.mem_of_find?_eq_some hr
  rw [rulesFor, find?] at hmem
  cases hl : t.entries.lookup (a.node i).label with
  | none => simp [hl] at hmem
  | some rules =>
    obtain ⟨l, m, hentries, -⟩ := List.lookup_eq_some_iff.mp hl
    simp only [hl, Option.getD_some] at hmem
    simp only [gathersSiblings, List.any_eq_false] at ht
    have hno := ht ((a.node i).label, rules) (by simp [hentries])
    simp only [Bool.not_eq_true, List.any_eq_false] at hno
    simpa using hno r hmem

/-- The arena after a node was transformed. -/
theorem RuleTable.transform_fst (t : RuleTable) (input : String) (a : Arena) (i : NodeId) :
    (t.transform input a i).1 =
      match t.match? a i with
      | none => a
      | some r => (r.action.apply input a i).arena := by
  unfold transform
  cases t.match? a i with
  | none => rfl
  | some r =>
    dsimp only
    match r.action.apply input a i with
    | ⟨.ok _, _, _⟩ => rfl
    | ⟨.error _, _, _⟩ => rfl

/-- **What a rule table does at a node is confined.** -/
theorem RuleTable.transform_confined (t : RuleTable) (input : String) (ha : a.Linked)
    (s : Arena.Site a) :
    ∃ rest g, s.Confined rest (t.transform input a s.node).1 g ∧ rest <:+ s.after ∧
      (t.gathersSiblings = false → rest = s.after) := by
  rw [transform_fst]
  cases hr : t.match? a s.node with
  | none => exact ⟨s.after, s.node, s.confined ha, List.suffix_refl _, fun _ => rfl⟩
  | some r =>
    obtain ⟨rest, g, hd, hrest, -, hsame⟩ := (s.confined ha).action ha input r.action
    exact ⟨rest, g, hd, hrest, fun ht => hsame (gathersSiblings_of_match? hr ht)⟩

end ParseTree
