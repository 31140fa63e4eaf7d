import ParseTree.Proofs.Contraction

/-!
# A walk stays below its root

Rules act upwards and sideways: a fold relabels the parent, and gathering pulls in what stands to
the right. A walk below `r` shows nodes below `r` only, though, and from there the one way out leads
through `r`. `Enclosed` says this of a set `T` of nodes around `r`: a node of `T` is the parent of
nodes of `T` and of `r`, and of nothing else. An edit of a node that is neither in `T` nor `r`
rearranges lists outside `T`, and at `r` it writes no more than the label and the links to the
children.

That links of nodes in `T` are left alone need not be read off the operators. Links are determined
by child lists, and `Relinked` says which lists an operator changes.

## Main results

* `Linked.around_of_relinked`: lists outside `T` are rearranged, and the nodes of `T` stay as they
  are.
* `Arena.leaves_edit`, `RuleTable.around_transform`: an edit, and what a table does at a node.
* `RuleTable.toAst_confined`: a walk below `r` leaves alone what is not below `r`.
-/

namespace ParseTree

/-- A node without its label and without the links to its children. -/
def Node.rim (n : Node) : Node :=
  { n with label := "", firstChild := none, lastChild := none }

/-- What a node stands for, without its links and its label. -/
def Node.body (n : Node) : Node :=
  { n.content with label := "" }

theorem Node.linkFree_body : LinkFree Node.body :=
  fun _ => rfl

theorem Node.eq_of_content {m n : Node} (h : m.content = n.content) (hparent : m.parent = n.parent)
    (hfirst : m.firstChild = n.firstChild) (hnext : m.nextSibling = n.nextSibling)
    (hlast : m.lastChild = n.lastChild) : m = n := by
  cases m
  cases n
  simp_all [content, detached]

theorem Node.rim_eq_of_body {m n : Node} (h : m.body = n.body) (hparent : m.parent = n.parent)
    (hnext : m.nextSibling = n.nextSibling) : m.rim = n.rim := by
  cases m
  cases n
  simp_all [body, rim, content, detached]

theorem Node.fields_of_rim {m n : Node} (h : m.rim = n.rim) :
    m.kind = n.kind ∧ m.left = n.left ∧ m.right = n.right ∧ m.parent = n.parent ∧
      m.nextSibling = n.nextSibling := by
  simp only [rim, mk.injEq, true_and, and_true] at h
  obtain ⟨hkind, hleft, hright, -, -, hparent, hnext⟩ := h
  exact ⟨hkind, hleft, hright, hparent, hnext⟩

namespace Arena

variable {a b d : Arena} {T : Set NodeId} {i p q c f g r x : NodeId}
  {kids : NodeId → List NodeId} {before after siblings : List NodeId}

/-! ## Lists outside a set -/

/-- The lists of `T` are as they were, and no other list has got a node that was in one of them. -/
structure ListsKept (a : Arena) (kids : NodeId → List NodeId) (T : Set NodeId) : Prop where
  eq : ∀ x ∈ T, kids x = a.children x
  mem : ∀ x ∉ T, ∀ c ∈ kids x, c < a.size → ∃ q ∉ T, c ∈ a.children q

theorem listsKept_children (a : Arena) (T : Set NodeId) : a.ListsKept a.children T :=
  ⟨fun _ _ => rfl, fun x hx _ hc _ => ⟨x, hx, hc⟩⟩

theorem listsKept_promoted (hp : a.children p = before ++ c :: after) (hpT : p ∉ T) (hcT : c ∉ T) :
    a.ListsKept (a.promoted p c before after) T where
  eq x hx := by
    rw [promoted, Function.update_of_ne (ne_of_mem_of_not_mem hx hcT),
      Function.update_of_ne (ne_of_mem_of_not_mem hx hpT)]
  mem x hx k hk _ := by
    have hmem : k ∈ a.children p ∨ k ∈ a.children c ∨ k ∈ a.children x := by
      simp only [promoted, Function.update_apply] at hk
      grind
    grind

theorem listsKept_shortened (hp : a.children p = before ++ c :: after) (hpT : p ∉ T) :
    a.ListsKept (a.shortened p before after) T where
  eq x hx := by rw [shortened, Function.update_of_ne (ne_of_mem_of_not_mem hx hpT)]
  mem x hx k hk _ := by
    have hmem : k ∈ a.children p ∨ k ∈ a.children x := by
      simp only [shortened, Function.update_apply] at hk
      grind
    grind

theorem listsKept_lengthened (hp : a.children p = before ++ after) (hpT : p ∉ T) :
    a.ListsKept (a.lengthened p before after) T where
  eq x hx := by rw [lengthened, Function.update_of_ne (ne_of_mem_of_not_mem hx hpT)]
  mem x hx k hk hlt := by
    have hne : k ≠ a.size := Nat.ne_of_lt hlt
    have hmem : k ∈ a.children p ∨ k ∈ a.children x := by
      simp only [lengthened, Function.update_apply] at hk
      grind
    grind

theorem listsKept_deepened (hT : ∀ x ∈ T, x < a.size) (hiT : i ∉ T) :
    a.ListsKept (a.deepened i) T where
  eq x hx := by
    rw [deepened, Function.update_of_ne (Nat.ne_of_lt (hT x hx)),
      Function.update_of_ne (ne_of_mem_of_not_mem hx hiT)]
  mem x hx k hk hlt := by
    have hne : k ≠ a.size := Nat.ne_of_lt hlt
    have hmem : k ∈ a.children i ∨ k ∈ a.children x := by
      simp only [deepened, Function.update_apply] at hk
      grind
    grind

theorem listsKept_gathered (hp : a.children p = before ++ i :: (siblings ++ after))
    (hT : ∀ x ∈ T, x < a.size) (hpT : p ∉ T) (hiT : i ∉ T) :
    a.ListsKept (a.gathered p i before siblings after) T where
  eq x hx := by
    rw [gathered, Function.update_of_ne (Nat.ne_of_lt (hT x hx)),
      Function.update_of_ne (ne_of_mem_of_not_mem hx hiT),
      Function.update_of_ne (ne_of_mem_of_not_mem hx hpT)]
  mem x hx k hk hlt := by
    have hne : k ≠ a.size := Nat.ne_of_lt hlt
    have hmem : k ∈ a.children p ∨ k ∈ a.children i ∨ k ∈ a.children x := by
      simp only [gathered, Function.update_apply] at hk
      grind
    grind

/-! ## Around a node -/

/-- **The nodes of `T` are around `r`**: children of nodes of `T` are in `T`, but for `r`, and no
other node has a child in `T`. -/
structure Enclosed (a : Arena) (T : Set NodeId) (r : NodeId) : Prop where
  lt_size : ∀ x ∈ T, x < a.size
  root_lt_size : r < a.size
  root_not_mem : r ∉ T
  parent_mem_iff : ∀ {x p}, (a.node x).parent = some p → (p ∈ T ↔ x ∈ T ∨ x = r)

/-- A step from `a` to `b` has left the nodes of `T` alone, and of `r` all but the label and the
links to the children. -/
structure Around (a b : Arena) (T : Set NodeId) (r : NodeId) : Prop where
  linked : b.Linked
  size_le : a.size ≤ b.size
  enclosed : b.Enclosed T r
  node_eq : ∀ x ∈ T, b.node x = a.node x
  rim_eq : (b.node r).rim = (a.node r).rim

/-- A node that is not in `T` and is not `r`. -/
structure Inside (a : Arena) (T : Set NodeId) (r i : NodeId) : Prop where
  lt_size : i < a.size
  not_mem : i ∉ T
  ne : i ≠ r

theorem Inside.not_mem_singleton (hi : a.Inside T r i) : i ∉ ({r} : Set NodeId) :=
  hi.ne

/-- What is not below `r` is around `r`. -/
theorem Linked.enclosed (h : a.Linked) (hr : r < a.size) :
    a.Enclosed {x | x < a.size ∧ ¬ a.Within x r} r where
  lt_size _ hx := hx.1
  root_lt_size := hr
  root_not_mem hmem := hmem.2 (.refl a r)
  parent_mem_iff {x p} hp := by
    constructor
    · rintro ⟨-, hpr⟩
      by_cases hx : x = r
      · exact .inr hx
      · exact .inl ⟨lt_size_of_parent hp, fun hxr => hpr ((hxr.below hx).within_parent hp)⟩
    · rintro (⟨-, hx⟩ | rfl)
      · exact ⟨h.parent_lt_size hp, fun hpr => hx ((Within.of_parent hp).trans hpr)⟩
      · exact ⟨h.parent_lt_size hp, fun hpr => h.acyclic p (hpr.trans_below (.of_parent hp))⟩

theorem Linked.around_refl (h : a.Linked) (hT : a.Enclosed T r) : a.Around a T r :=
  ⟨h, Nat.le_refl _, hT, fun _ _ => rfl, rfl⟩

theorem Around.trans (h : a.Around b T r) (h' : b.Around d T r) : a.Around d T r where
  linked := h'.linked
  size_le := Nat.le_trans h.size_le h'.size_le
  enclosed := h'.enclosed
  node_eq x hx := (h'.node_eq x hx).trans (h.node_eq x hx)
  rim_eq := h'.rim_eq.trans h.rim_eq

/-- The lists of nodes around `r` are left alone. -/
theorem Around.children_eq (h : a.Around b T r) (ha : a.Linked) (hT : a.Enclosed T r) (hx : x ∈ T) :
    b.children x = a.children x := by
  have hmem {c : NodeId} (hc : c ∈ a.children x) : c ∈ T ∨ c = r :=
    (hT.parent_mem_iff (ha.mem_children.mp hc)).mp hx
  obtain ⟨-, -, -, hparent, hnext⟩ := Node.fields_of_rim h.rim_eq
  refine ((ha.childList x).congr ?_ ?_ (fun c hc => ?_) fun c hc => ?_).eq_children
  · rw [h.node_eq x hx]
  · rw [h.node_eq x hx]
  · rcases hmem hc with hcT | rfl
    · rw [h.node_eq c hcT]
    · exact hnext
  · rcases hmem hc with hcT | rfl
    · rw [h.node_eq c hcT]
    · exact hparent

namespace Enclosed

theorem parent_not_mem (h : a.Enclosed T r) (hi : a.Inside T r i)
    (hp : (a.node i).parent = some p) : p ∉ T := fun hpT =>
  ((h.parent_mem_iff hp).mp hpT).elim hi.not_mem hi.ne

theorem inside_of_parent (h : a.Enclosed T r) (ha : a.Linked) (hi : i ∉ T)
    (hc : c ∈ a.children i) : a.Inside T r c := by
  have hparent := ha.mem_children.mp hc
  have hout := mt (h.parent_mem_iff hparent).mpr hi
  exact ⟨ha.lt_size_of_mem hc, fun hcT => hout (.inl hcT), fun hcr => hout (.inr hcr)⟩

end Enclosed

/-- **Lists outside `T` are rearranged**, and contents outside `T` are written to, where of `r` the
label may be written to. The links of the nodes of `T` follow from lists that have stayed. -/
theorem Linked.around_of_relinked (ha : a.Linked) (h : a.Enclosed T r) (hb : a.Relinked b kids)
    (hkids : a.ListsKept kids T) (hcontent : Keeps Node.content T a b)
    (hbody : Keeps Node.body {r} a b) : a.Around b T r := by
  have hlist {x : NodeId} (hx : x ∈ T) : b.children x = a.children x :=
    (hb.children_eq x (h.lt_size x hx)).trans (hkids.eq x hx)
  have hin {x p : NodeId} (hp : p ∈ T) :
      (b.node x).parent = some p ↔ (a.node x).parent = some p := by
    rw [← hb.linked.mem_children, hlist hp, ha.mem_children]
  have hmem_iff {x p : NodeId} (hp : (b.node x).parent = some p) : p ∈ T ↔ x ∈ T ∨ x = r := by
    refine ⟨fun hpT => (h.parent_mem_iff ((hin hpT).mp hp)).mp hpT, fun hx => ?_⟩
    by_contra hpT
    -- the node is in a list outside, and was in one before
    have hlt : x < a.size := hx.elim (h.lt_size x) fun hxr => hxr ▸ h.root_lt_size
    obtain ⟨q, hq, hmem⟩ :=
      hkids.mem p hpT x (hb.mem_children hlt (hb.linked.mem_children_of_parent hp)) hlt
    exact hq ((h.parent_mem_iff (ha.mem_children.mp hmem)).mpr hx)
  have hparent {x : NodeId} (hx : x ∈ T ∨ x = r) : (b.node x).parent = (a.node x).parent := by
    refine Option.ext fun p => ⟨fun hp => ?_, fun hp => ?_⟩
    · exact (hin ((hmem_iff hp).mpr hx)).mp hp
    · exact (hin ((h.parent_mem_iff hp).mpr hx)).mpr hp
  have hnext {x : NodeId} (hx : x ∈ T ∨ x = r) :
      (b.node x).nextSibling = (a.node x).nextSibling := by
    cases hp : (a.node x).parent with
    | none => rw [ha.nextSibling_of_root hp, hb.linked.nextSibling_of_root ((hparent hx).trans hp)]
    | some p =>
      obtain ⟨before, after, hsplit⟩ := ha.exists_children_eq hp
      have hpT : p ∈ T := (h.parent_mem_iff hp).mpr hx
      rw [ha.nextSibling_eq hsplit, hb.linked.nextSibling_eq ((hlist hpT).trans hsplit)]
  refine ⟨hb.linked, hb.size_le, ⟨fun x hx => ?_, ?_, h.root_not_mem, hmem_iff⟩, fun x hx => ?_, ?_⟩
  · exact Nat.lt_of_lt_of_le (h.lt_size x hx) hb.size_le
  · exact Nat.lt_of_lt_of_le h.root_lt_size hb.size_le
  · refine Node.eq_of_content (hcontent.eq x hx (h.lt_size x hx)) (hparent (.inl hx)) ?_
      (hnext (.inl hx)) ?_
    · rw [(hb.linked.childList x).firstChild, (ha.childList x).firstChild, hlist hx]
    · rw [(hb.linked.childList x).lastChild, (ha.childList x).lastChild, hlist hx]
  · exact Node.rim_eq_of_body (hbody.eq r rfl h.root_lt_size) (hparent (.inr rfl))
      (hnext (.inr rfl))

/-! ## Edits -/

/-- An edit has left the nodes around `r` alone, and the focus that it gives is inside. -/
structure Leaves (a : Arena) (o : Outcome NodeId) (T : Set NodeId) (r : NodeId) : Prop where
  around : a.Around o.arena T r
  inside : ∀ g, o.result = .ok g → o.arena.Inside T r g

theorem Linked.leaves_refused (ha : a.Linked) (h : a.Enclosed T r) {o : Outcome NodeId}
    (ho : a.Refused o) : a.Leaves o T r := by
  obtain ⟨error, log, rfl⟩ := ho
  exact ⟨ha.around_refl h, fun g hg => by cases hg⟩

/-- The focus stays, or is the first new node. -/
theorem Around.leaves_ok (h : a.Around b T r) (hT : a.Enclosed T r) (hf : a.Inside T r f)
    (hg : g = f ∨ g = a.size ∧ g < b.size) : a.Leaves (.ok b g) T r := by
  refine ⟨h, fun g' hg' => ?_⟩
  obtain rfl : g = g' := Except.ok.inj hg'
  rcases hg with rfl | ⟨rfl, hlt⟩
  · exact ⟨Nat.lt_of_lt_of_le hf.lt_size h.size_le, hf.not_mem, hf.ne⟩
  · exact ⟨hlt, fun hmem => Nat.lt_irrefl _ (hT.lt_size _ hmem), Nat.ne_of_gt hT.root_lt_size⟩

/-- A node inside is written to. -/
theorem Inside.keeps_update (hi : a.Inside T r i) {f : Node → Node} :
    Keeps Node.content T a (a.update i f) ∧ Keeps Node.body {r} a (a.update i f) :=
  ⟨Arena.keeps_update (.inl hi.not_mem), Arena.keeps_update (.inl hi.not_mem_singleton)⟩

/-- A new level below a node inside. -/
theorem Linked.around_gather (ha : a.Linked) (h : a.Enclosed T r) (hi : a.Inside T r i)
    (label : String) : a.Around (a.gather i label).2 T r :=
  ha.around_of_relinked h (ha.gather_relinked hi.lt_size label)
    (listsKept_deepened h.lt_size hi.not_mem)
    (Node.linkFree_content.keeps_gather (.inl hi.not_mem) label)
    (Node.linkFree_body.keeps_gather (.inl hi.not_mem_singleton) label)

/-- A node inside is gathered with siblings. -/
theorem Linked.leaves_gatherWithSiblings (ha : a.Linked) (h : a.Enclosed T r)
    (hi : a.Inside T r i) (label : String) (siblings : List NodeId) :
    a.Leaves (a.gatherWithSiblings i label siblings) T r := by
  have hcontent := Node.linkFree_content.keeps_gatherWithSiblings (a := a) (K := T)
    (.inl hi.not_mem) label siblings
  have hbody := Node.linkFree_body.keeps_gatherWithSiblings (a := a) (K := {r})
    (.inl hi.not_mem_singleton) label siblings
  rcases ha.gatherWithSiblings_cases hi.lt_size label siblings with
    hno | ⟨-, b, hok, hb, -⟩ | ⟨p, before, after, b, hp, hok, hb, -⟩
  · exact ha.leaves_refused h hno
  · rw [hok] at hcontent hbody ⊢
    have hlt : a.size < b.size := hb.size_lt hi.lt_size (by
      rw [deepened, Function.update_of_ne (Nat.ne_of_lt hi.lt_size), Function.update_self]
      simp)
    exact (ha.around_of_relinked h hb (listsKept_deepened h.lt_size hi.not_mem) hcontent
      hbody).leaves_ok h hi (.inr ⟨rfl, hlt⟩)
  · rw [hok] at hcontent hbody ⊢
    have hpT : p ∉ T := h.parent_not_mem hi (ha.parent_eq hp)
    have hlt : a.size < b.size := hb.size_lt hi.lt_size (by
      rw [gathered, Function.update_of_ne (Nat.ne_of_lt hi.lt_size), Function.update_self]
      simp)
    exact (ha.around_of_relinked h hb (listsKept_gathered hp h.lt_size hpT hi.not_mem) hcontent
      hbody).leaves_ok h hi (.inr ⟨rfl, hlt⟩)

theorem Leaves.map (h : a.Leaves (o : Outcome NodeId) T r) (hf : a.Inside T r f) :
    a.Leaves (o.map fun _ => f) T r := by
  obtain ⟨result, b, log⟩ := o
  obtain ⟨haround, -⟩ := h
  cases result with
  | error e => exact ⟨haround, fun g hg => by cases hg⟩
  | ok x =>
    refine ⟨haround, fun g hg => ?_⟩
    obtain rfl : f = g := Except.ok.inj hg
    exact ⟨Nat.lt_of_lt_of_le hf.lt_size haround.size_le, hf.not_mem, hf.ne⟩

/-- **An edit inside** leaves alone what is around. -/
theorem Linked.leaves_edit (ha : a.Linked) (h : a.Enclosed T r) (hf : a.Inside T r f)
    (input : String) (e : Edit) : a.Leaves (e.apply input a f) T r := by
  cases e with
  | literal =>
    unfold Edit.apply
    dsimp only
    cases a.underlyingText? f input with
    | none => exact ha.leaves_refused h (refused_fail ..)
    | some text =>
      have hb := ha.relinked_of_sameLinks (sameLinks_setLabel a f text) (by simp [setLabel])
      exact (ha.around_of_relinked h hb (listsKept_children a T) hf.keeps_update.1
        hf.keeps_update.2).leaves_ok h hf (.inl rfl)
  | foldUnder =>
    have hcontent := Node.linkFree_content.keeps_foldUnder (a := a) (K := T) f
    have hbody := Node.linkFree_body.keeps_foldUnder (a := a) (K := {r}) f
    rw [Edit.apply]
    rcases ha.foldUnder_cases f with ⟨-, hno⟩ | ⟨p, before, after, b, hp, hok, hb, -⟩
    · exact ha.leaves_refused h (hno.map _)
    · rw [hok] at hcontent hbody ⊢
      have hpT : p ∉ T := h.parent_not_mem hf (ha.parent_eq hp)
      exact (ha.around_of_relinked h hb (listsKept_promoted hp hpT hf.not_mem) hcontent
        hbody).leaves_ok h hf (.inl rfl)
  | foldOver =>
    have hcontent := Node.linkFree_content.keeps_foldOver (a := a) (i := f) (K := T)
      (.inl fun p hp => h.parent_not_mem hf hp)
    have hbody := Node.linkFree_body.keeps_foldOver (a := a) (i := f) (K := {r})
      (.inr fun _ _ => rfl)
    rw [Edit.apply]
    rcases ha.foldOver_cases f with ⟨-, hno⟩ | ⟨p, before, after, b, hp, hok, hb, -⟩
    · exact ha.leaves_refused h (hno.map _)
    · rw [hok] at hcontent hbody ⊢
      have hpT : p ∉ T := h.parent_not_mem hf (ha.parent_eq hp)
      exact (ha.around_of_relinked h hb (listsKept_promoted hp hpT hf.not_mem) hcontent
        hbody).leaves_ok h hf (.inl rfl)
  | gather label =>
    have hlt : a.size < (a.gather f label).2.size := by simp
    exact (ha.around_gather h hf label).leaves_ok h hf (.inr ⟨rfl, hlt⟩)
  | gatherWithSiblings label => exact ha.leaves_gatherWithSiblings h hf label _
  | gatherWithNext label count =>
    rw [Edit.apply]
    split
    · exact ha.leaves_refused h (refused_fail ..)
    · exact ha.leaves_gatherWithSiblings h hf label _
  | gatherChildren label =>
    rw [Edit.apply]
    cases hfirst : (a.node f).firstChild with
    | none => exact (ha.around_refl h).leaves_ok h hf (.inl rfl)
    | some first =>
      have hmem : first ∈ a.children f :=
        List.mem_of_mem_head? ((ha.childList f).firstChild.symm.trans hfirst)
      exact (ha.leaves_gatherWithSiblings h (h.inside_of_parent ha hf.not_mem hmem) label _).map hf
  | gatherFirstChild label =>
    rw [Edit.apply]
    cases hfirst : (a.node f).firstChild with
    | none => exact (ha.around_refl h).leaves_ok h hf (.inl rfl)
    | some first =>
      have hmem : first ∈ a.children f :=
        List.mem_of_mem_head? ((ha.childList f).firstChild.symm.trans hfirst)
      exact (ha.around_gather h (h.inside_of_parent ha hf.not_mem hmem) label).leaves_ok h hf
        (.inl rfl)
  | tear =>
    have hcontent := Node.linkFree_content.keeps_tear (a := a) (K := T) f
    have hbody := Node.linkFree_body.keeps_tear (a := a) (K := {r}) f
    rw [Edit.apply]
    rcases ha.tear_cases f with ⟨-, hno⟩ | ⟨p, before, after, b, hp, hok, hb, -⟩
    · exact ha.leaves_refused h (hno.map _)
    · rw [hok] at hcontent hbody ⊢
      have hpT : p ∉ T := h.parent_not_mem hf (ha.parent_eq hp)
      exact (ha.around_of_relinked h hb (listsKept_shortened hp hpT) hcontent
        hbody).leaves_ok h hf (.inl rfl)
  | tearAs key =>
    have hcontent := Node.linkFree_content.keeps_tearInto (a := a) (K := T) f key
    have hbody := Node.linkFree_body.keeps_tearInto (a := a) (K := {r}) f key
    rw [Edit.apply]
    rcases ha.tearInto_cases f key with ⟨-, hno⟩ | ⟨p, before, after, b, hp, hok, hb, -⟩
    · exact ha.leaves_refused h (hno.map _)
    · rw [hok] at hcontent hbody ⊢
      have hpT : p ∉ T := h.parent_not_mem hf (ha.parent_eq hp)
      exact (ha.around_of_relinked h hb (listsKept_shortened hp hpT) hcontent
        hbody).leaves_ok h hf (.inl rfl)
  | insert position key =>
    have hcontent := Node.linkFree_content.keeps_insert (a := a) (K := T) f position.toNat key
    have hbody := Node.linkFree_body.keeps_insert (a := a) (K := {r}) f position.toNat key
    rw [Edit.apply]
    rcases ha.insert_cases hf.lt_size position.toNat key with
      hno | ⟨before, after, b, hp, hok, hb, -⟩
    · exact ha.leaves_refused h (hno.map _)
    · rw [hok] at hcontent hbody ⊢
      exact (ha.around_of_relinked h hb (listsKept_lengthened hp hf.not_mem) hcontent
        hbody).leaves_ok h hf (.inl rfl)

/-- **Sequences of edits**, whether they come to their end or fail on the way. -/
theorem Linked.around_edits (ha : a.Linked) (h : a.Enclosed T r) (hf : a.Inside T r f)
    (input : String) (es : List Edit) : a.Around (Edit.applyAll input es a f).arena T r := by
  induction es generalizing a f with
  | nil => exact ha.around_refl h
  | cons e es ih =>
    have hedit := ha.leaves_edit h hf input e
    rw [Edit.applyAll]
    match ho : e.apply input a f with
    | ⟨.error error, b, log⟩ =>
      rw [ho] at hedit
      exact hedit.around
    | ⟨.ok g, b, log⟩ =>
      rw [ho] at hedit
      exact hedit.around.trans (ih hedit.around.linked hedit.around.enclosed (hedit.inside g rfl))

end Arena

/-! ## Rules and walks -/

theorem Command.run_toAst (t : RuleTable) (r : NodeId) (input : String) (a : Arena) :
    (Command.toAst t r input).run a =
      ⟨.ok (some r), (walk (Scheme.ofTable t) input a r ()).arena,
        (walk (Scheme.ofTable t) input a r ()).log.toList⟩ :=
  rfl

namespace RuleTable

open Arena

variable {a : Arena} {T : Set NodeId} {i r : NodeId}

/-- **What a table does at a node inside** leaves alone what is around. -/
theorem around_transform (t : RuleTable) (input : String) (ha : a.Linked) (h : a.Enclosed T r)
    (hi : a.Inside T r i) : a.Around (t.transform input a i).1 T r := by
  rw [transform_fst]
  cases t.match? a i with
  | none => exact ha.around_refl h
  | some rule =>
    dsimp only
    rw [Action.apply_eq_applyEdits]
    exact ha.around_edits h hi input rule.action.edits

/-- Nodes inside are transformed one after the other. -/
theorem around_transformAll (t : RuleTable) (input : String) (ha : a.Linked) (h : a.Enclosed T r)
    {l : List NodeId} (hl : ∀ i ∈ l, a.Inside T r i) : a.Around (t.transformAll input l a) T r := by
  induction l generalizing a with
  | nil => exact ha.around_refl h
  | cons i l ih =>
    have hstep := t.around_transform input ha h (hl i List.mem_cons_self)
    refine hstep.trans (ih hstep.linked hstep.enclosed fun j hj => ?_)
    obtain ⟨hlt, hT, hne⟩ := hl j (List.mem_cons_of_mem _ hj)
    exact ⟨Nat.lt_of_lt_of_le hlt hstep.size_le, hT, hne⟩

/-- **A walk below `r`** leaves alone what is around `r`. -/
theorem around_walk (t : RuleTable) (input : String) (ha : a.Linked) (hr : r < a.size) :
    a.Around (walk (Scheme.ofTable t) input a r ()).arena {x | x < a.size ∧ ¬ a.Within x r} r := by
  rw [walk_arena_eq]
  refine t.around_transformAll input ha (ha.enclosed hr) fun i hi => ?_
  have hbelow : a.Below i r := by
    obtain ⟨hsub, -⟩ := t.showings_spec input ha r
    exact ha.mem_postorderBelow.mp (hsub.subset hi)
  obtain ⟨hin, hne⟩ := ha.below_iff_within_ne.mp hbelow
  exact ⟨hbelow.lt_size, fun hout => hout.2 hin, hne⟩

/-- **Transforming a tree stays in the tree.** The walk comes to its end and gives the root that it
was given. No node that was there and is not in the subtree at `r` has another field or link than
before, and `r` itself keeps all but its label and the links to its children. So it is in the list
that it was in. -/
theorem toAst_confined (t : RuleTable) (input : String) (ha : a.Linked) (hr : r < a.size) :
    (walk (Scheme.ofTable t) input a r ()).stack = [] ∧
    ∃ b log, (Command.toAst t r input).run a = ⟨.ok (some r), b, log⟩ ∧
      (∀ x < a.size, ¬ a.Within x r → b.node x = a.node x) ∧
      (b.node r).kind = (a.node r).kind ∧ (b.node r).left = (a.node r).left ∧
      (b.node r).right = (a.node r).right ∧ (b.node r).parent = (a.node r).parent ∧
      (b.node r).nextSibling = (a.node r).nextSibling ∧
      ∀ p, (a.node r).parent = some p → b.children p = a.children p ∧ r ∈ b.children p := by
  have h := t.around_walk input ha hr
  have hstack := (t.walk_ends input ha r).1
  have hrun := Command.run_toAst t r input a
  generalize walk (Scheme.ofTable t) input a r () = w at h hstack hrun
  obtain ⟨hkind, hleft, hright, hparent, hnext⟩ := Node.fields_of_rim h.rim_eq
  refine ⟨hstack, w.arena, w.log.toList, hrun, fun x hx hout => h.node_eq x ⟨hx, hout⟩, hkind,
    hleft, hright, hparent, hnext, fun p hp => ⟨?_, ?_⟩⟩
  · have hT := ha.enclosed hr
    exact h.children_eq ha hT ((hT.parent_mem_iff hp).mpr (.inr rfl))
  · exact h.linked.mem_children_of_parent (hparent.trans hp)

/-- Leaves hand their label on to the node above them. -/
def foldOverTable : RuleTable :=
  .ofEntries [("y", [⟨.always, .edit .foldOver⟩])]

/-- The inner node 2 takes the label of the leaves below it, and stays between its siblings. -/
theorem toAst_confined_bushy :
    bushy.Linked ∧ 2 < bushy.size ∧ ¬ bushy.Within 0 2 ∧ ¬ bushy.Within 5 2 ∧
      ∃ b log, (Command.toAst foldOverTable 2 "abcd").run bushy = ⟨.ok (some 2), b, log⟩ ∧
        b.node 0 = bushy.node 0 ∧ b.node 5 = bushy.node 5 ∧ (b.node 2).nextSibling = some 5 ∧
        b.children 0 = [1, 2, 5] := by
  have hlt : 2 < bushy.size := by decide
  have hout (x : NodeId) (hx : x ∉ bushy.postorder 2) : ¬ bushy.Within x 2 :=
    mt (linked_bushy.mem_postorder hlt).mpr hx
  have h0 : ¬ bushy.Within 0 2 := hout 0 (by decide)
  have h5 : ¬ bushy.Within 5 2 := hout 5 (by decide)
  obtain ⟨-, b, log, hrun, hb, -, -, -, -, hnext, hlist⟩ :=
    foldOverTable.toAst_confined "abcd" linked_bushy hlt
  refine ⟨linked_bushy, hlt, h0, h5, b, log, hrun, hb 0 (by decide) h0, hb 5 (by decide) h5, ?_, ?_⟩
  · rw [hnext]
    decide
  · rw [(hlist 0 (by decide)).1]
    decide

end RuleTable

end ParseTree
