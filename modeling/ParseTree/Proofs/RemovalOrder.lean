import Mathlib.Data.List.Flatten
import ParseTree.Proofs.Cancelling

/-!
# Removals may be done in any order

A node that is not a root can be taken out of its list in two ways: it is folded under, so that its
children take its place, or it is torn, so that nothing does. Some nodes are to be removed, each in
one of these ways, and they may be neighbours, parent and child, or far above one another. The order
in which they are removed then changes the links that every single step writes, but it changes
neither whether the steps succeed nor the arena at the end.

The position of the node plays no part in the proof. A removal puts a list in the place of a node
wherever that node is listed, and a node is listed once at most. Read in this way, what a removal
does to child lists does not mention the parent, and two removals commute by a calculation with
`flatMap`, for which it is enough that neither node is a child of the other one's child.

## Main results

* `Removal.relist_comm`: two relistings commute.
* `Arena.Linked.removed`: a removal relists, and does nothing else.
* `Arena.Removed.comm`: two removals commute.
* `Arena.Linked.removals_commute`: any number of removals may be done in any order.
-/

namespace ParseTree

/-- A way to take a node out of its list. -/
inductive Removal where
  /-- The children of the node take its place. -/
  | fold (i : NodeId)
  /-- The subtree at the node becomes a tree of its own. -/
  | tear (i : NodeId)
  deriving DecidableEq, Repr

namespace Removal

variable {r s : Removal} {kids : NodeId → List NodeId} {l before after : List NodeId}

/-- The node that is taken out. -/
def node : Removal → NodeId
  | fold i => i
  | tear i => i

/-- Carry out a removal. -/
def apply (r : Removal) (a : Arena) : Outcome Unit :=
  match r with
  | fold i => a.foldUnder i
  | tear i => a.tear i

/-! ## Child lists -/

/-- What takes the place of the node. -/
def heirs (kids : NodeId → List NodeId) : Removal → List NodeId
  | fold i => kids i
  | tear _ => []

/-- A node in a list after the removal. -/
def replace (r : Removal) (kids : NodeId → List NodeId) (x : NodeId) : List NodeId :=
  if x = r.node then r.heirs kids else [x]

/-- **Child lists after a removal.** Wherever the node was listed, its heirs are listed, and a node
that was folded has no list any more. -/
def relist (r : Removal) (kids : NodeId → List NodeId) (x : NodeId) : List NodeId :=
  if r = .fold x then [] else (kids x).flatMap (r.replace kids)

theorem replace_of_ne {x : NodeId} (h : x ≠ r.node) : r.replace kids x = [x] :=
  if_neg h

theorem replace_node : r.replace kids r.node = r.heirs kids :=
  if_pos rfl

/-- A list without the node stays as it is. -/
theorem flatMap_replace_of_not_mem (h : r.node ∉ l) : l.flatMap (r.replace kids) = l := by
  have hsame : l.flatMap (r.replace kids) = l.flatMap fun x => [x] :=
    List.flatMap_congr fun x hx => replace_of_ne (ne_of_mem_of_not_mem hx h)
  rw [hsame, List.flatMap_singleton']

/-- The heirs stand where the node stood. -/
theorem flatMap_replace_middle (h : (before ++ r.node :: after).Nodup) :
    (before ++ r.node :: after).flatMap (r.replace kids) = before ++ r.heirs kids ++ after := by
  obtain ⟨-, hcons, hdisj⟩ := List.nodup_append.mp h
  have hbefore : r.node ∉ before := fun hmem => hdisj _ hmem _ List.mem_cons_self rfl
  have hafter : r.node ∉ after := (List.nodup_cons.mp hcons).1
  rw [List.flatMap_append, List.flatMap_cons, replace_node, flatMap_replace_of_not_mem hbefore,
    flatMap_replace_of_not_mem hafter, List.append_assoc]

/-- The heirs of a node are a list like any other: another node is replaced in it. -/
theorem heirs_relist (hne : r.node ≠ s.node) :
    s.heirs (r.relist kids) = (s.heirs kids).flatMap (r.replace kids) := by
  cases s with
  | fold j =>
    have hrj : r ≠ .fold j := fun h => hne (congrArg node h)
    exact if_neg hrj
  | tear j => rfl

/-- Among the heirs of `r`, the node of `s` is replaced by what it leaves. That `r` is removed first
makes no difference to this, unless each of the two is an heir of the other. -/
theorem flatMap_replace_heirs (hne : r.node ≠ s.node)
    (hapart : ¬ (s.node ∈ r.heirs kids ∧ r.node ∈ s.heirs kids)) :
    (r.heirs kids).flatMap (s.replace (r.relist kids)) =
      (r.heirs kids).flatMap (s.replace kids) := by
  refine List.flatMap_congr fun x hx => ?_
  by_cases hxs : x = s.node
  · subst hxs
    rw [replace_node, replace_node, heirs_relist hne,
      flatMap_replace_of_not_mem fun hr => hapart ⟨hx, hr⟩]
  · rw [replace_of_ne hxs, replace_of_ne hxs]

/-- **Relistings commute.** -/
theorem relist_comm (hne : r.node ≠ s.node)
    (hapart : ¬ (s.node ∈ r.heirs kids ∧ r.node ∈ s.heirs kids)) :
    s.relist (r.relist kids) = r.relist (s.relist kids) := by
  have hstep (x : NodeId) : (r.replace kids x).flatMap (s.replace (r.relist kids)) =
      (s.replace kids x).flatMap (r.replace (s.relist kids)) := by
    by_cases hxr : x = r.node
    · subst hxr
      rw [replace_node, replace_of_ne hne, List.flatMap_singleton, replace_node,
        heirs_relist hne.symm, flatMap_replace_heirs hne hapart]
    by_cases hxs : x = s.node
    · subst hxs
      rw [replace_node, replace_of_ne hne.symm, List.flatMap_singleton, replace_node,
        heirs_relist hne, flatMap_replace_heirs hne.symm fun h => hapart ⟨h.2, h.1⟩]
    · rw [replace_of_ne hxr, replace_of_ne hxs, List.flatMap_singleton, List.flatMap_singleton,
        replace_of_ne hxr, replace_of_ne hxs]
  funext x
  simp only [relist]
  split <;> split <;> simp only [List.flatMap_nil, List.flatMap_assoc, hstep]

end Removal

namespace Arena

variable {a b c d : Arena} {r s : Removal} {rs order : List Removal}

/-! ## One removal -/

/-- **Arena `b` is `a` after a removal.** Lists have been relisted, and the node has become a root;
neither what nodes stand for nor the tear stores have changed. -/
structure Removed (a : Arena) (r : Removal) (b : Arena) : Prop where
  linked : b.Linked
  children : b.children = r.relist a.children
  root_iff : ∀ x, (b.node x).parent = none ↔ x = r.node ∨ (a.node x).parent = none
  content : ∀ x, (b.node x).content = (a.node x).content
  size : b.size = a.size
  stores : b.stores = a.stores
  nextIdentity : b.nextIdentity = a.nextIdentity

/-- A list of some node, read as a relisting: the node is listed nowhere else. -/
theorem Linked.update_eq_relist (h : a.Linked) {p : NodeId} {before after : List NodeId}
    (hp : a.children p = before ++ r.node :: after) (x : NodeId) (hx : r ≠ .fold x) :
    Function.update a.children p (before ++ r.heirs a.children ++ after) x =
      r.relist a.children x := by
  rw [Removal.relist, if_neg hx]
  by_cases hxp : x = p
  · have hnd := h.nodup_children p
    rw [hp] at hnd
    rw [hxp, Function.update_self, hp, Removal.flatMap_replace_middle hnd]
  · have hr : r.node ∉ a.children x := fun hmem =>
      hxp (Option.some.inj ((h.mem_children.mp hmem).symm.trans (h.parent_eq hp)))
    rw [Function.update_of_ne hxp, Removal.flatMap_replace_of_not_mem hr]

theorem Linked.removed_fold (h : a.Linked) {i p : NodeId} {before after : List NodeId}
    (hp : a.children p = before ++ i :: after) :
    a.Removed (.fold i) (a.promote p before.getLast? i) := by
  obtain ⟨hlinked, hkids⟩ := h.promote hp
  have hi : i < a.size := lt_size_of_parent (h.parent_eq hp)
  refine ⟨hlinked, ?_, fun x => ?_, fun _ => content_promote, size_promote, stores_promote,
    nextIdentity_promote⟩
  · funext x
    rw [hkids]
    by_cases hx : x = i
    · rw [hx, Function.update_self, Removal.relist, if_pos rfl]
    · have hne : Removal.fold i ≠ .fold x := fun heq => hx (Removal.fold.inj heq).symm
      rw [Function.update_of_ne hx]
      exact h.update_eq_relist (r := .fold i) hp x hne
  · -- the children of the node get another parent, and so they have one before and after
    have hkid : x ∈ a.children i → (a.node x).parent ≠ none := fun hx hroot => by
      rw [h.mem_children.mp hx] at hroot
      cases hroot
    rw [parent_promote hi fun k hk => h.lt_size_of_mem hk]
    show _ ↔ x = i ∨ _
    grind

theorem Linked.removed_tear (h : a.Linked) {i p : NodeId} {before after : List NodeId}
    (hp : a.children p = before ++ i :: after) :
    a.Removed (.tear i) (a.splice p before.getLast? i none) := by
  obtain ⟨hlinked, hkids⟩ := h.cut hp
  have hi : i < a.size := lt_size_of_parent (h.parent_eq hp)
  refine ⟨hlinked, ?_, fun x => ?_, fun _ => content_splice, size_splice, stores_splice,
    nextIdentity_splice⟩
  · funext x
    have hlist := h.update_eq_relist (r := .tear i) hp x nofun
    rw [hkids, ← hlist, Removal.heirs, List.append_nil]
  · rw [parent_splice hi]
    show _ ↔ x = i ∨ _
    grind

/-- **A removal succeeds** at every node that has a parent. -/
theorem Linked.removed (h : a.Linked) (hr : (a.node r.node).parent ≠ none) :
    ∃ b, r.apply a = .ok b () ∧ a.Removed r b := by
  obtain ⟨p, hparent⟩ := Option.ne_none_iff_exists'.mp hr
  obtain ⟨before, after, hp⟩ := h.exists_children_eq hparent
  cases r with
  | fold i => exact ⟨_, h.foldUnder_eq hp, h.removed_fold hp⟩
  | tear i => exact ⟨_, h.tear_eq hp, h.removed_tear hp⟩

/-- Neither of two nodes is among the heirs of the other one if the other one is among its own. -/
theorem Linked.not_mem_heirs (h : a.Linked) :
    ¬ (s.node ∈ r.heirs a.children ∧ r.node ∈ s.heirs a.children) := by
  have hbelow {r s : Removal} (hs : s.node ∈ r.heirs a.children) : a.Below s.node r.node := by
    cases r with
    | fold i => exact .of_parent (h.mem_children.mp hs)
    | tear i => cases hs
  exact fun ⟨hs, hr⟩ => h.acyclic _ ((hbelow hs).trans (hbelow hr))

/-- **Two removals commute.** -/
theorem Removed.comm {b' d' : Arena} (h : a.Linked) (hne : r.node ≠ s.node)
    (hb : a.Removed r b) (hd : b.Removed s d) (hb' : a.Removed s b') (hd' : b'.Removed r d') :
    d = d' := by
  have hkids : d.children = d'.children := by
    rw [hd.children, hb.children, hd'.children, hb'.children,
      Removal.relist_comm hne h.not_mem_heirs]
  refine eq_of_node ?size (Linked.node_eq_of_children hd'.linked hd.linked hkids ?content) ?stores
    ?nextIdentity
  case size => rw [hd.size, hb.size, hd'.size, hb'.size]
  case content =>
    intro x
    rw [hd.content, hb.content, hd'.content, hb'.content]
  case stores => rw [hd.stores, hb.stores, hd'.stores, hb'.stores]
  case nextIdentity => rw [hd.nextIdentity, hb.nextIdentity, hd'.nextIdentity, hb'.nextIdentity]

end Arena

/-! ## Any number of removals -/

namespace Removal

open Arena

variable {a b d : Arena} {r s : Removal} {rs order : List Removal}

/-- The removals of a list succeed one after the other, and lead from `a` to `b`. -/
inductive Leads : List Removal → Arena → Arena → Prop
  | nil (a : Arena) : Leads [] a a
  | cons {r : Removal} {rs : List Removal} {a b d : Arena} (hstep : r.apply a = .ok b ())
      (hrest : Leads rs b d) : Leads (r :: rs) a d

/-- The removals of a list are of different nodes, all of which have a parent. -/
structure Removable (a : Arena) (rs : List Removal) : Prop where
  nodup : (rs.map node).Nodup
  parent : ∀ r ∈ rs, (a.node r.node).parent ≠ none

theorem Removable.perm (h : Removable a rs) (hperm : order.Perm rs) : Removable a order where
  nodup := (hperm.map node).nodup_iff.mpr h.nodup
  parent r hr := h.parent r (hperm.mem_iff.mp hr)

/-- A removal makes no other node a root. -/
theorem Removable.step (h : Removable a (r :: rs)) (hb : a.Removed r b) : Removable b rs := by
  obtain ⟨hnd, hparent⟩ := h
  obtain ⟨hr, hnd⟩ := List.nodup_cons.mp hnd
  refine ⟨hnd, fun s hs hroot => ?_⟩
  rcases (hb.root_iff s.node).mp hroot with heq | hroot
  · exact hr (heq ▸ List.mem_map_of_mem hs)
  · exact hparent s (List.mem_cons_of_mem _ hs) hroot

/-- **The removals of a list succeed in turn**, and their nodes become roots. -/
theorem Removable.exists_leads (h : a.Linked) (hrs : Removable a rs) :
    ∃ b, Leads rs a b ∧ b.Linked ∧
      ∀ x, (b.node x).parent = none ↔ x ∈ rs.map node ∨ (a.node x).parent = none := by
  induction rs generalizing a with
  | nil => exact ⟨a, .nil a, h, by simp⟩
  | cons r rs ih =>
    obtain ⟨b, hstep, hb⟩ := h.removed (hrs.parent r List.mem_cons_self)
    obtain ⟨d, hrest, hd, hroots⟩ := ih hb.linked (hrs.step hb)
    refine ⟨d, .cons hstep hrest, hd, fun x => ?_⟩
    rw [hroots, hb.root_iff, List.map_cons, List.mem_cons]
    tauto

/-- What a list of removals leads to from an arena that its first removal leads to. -/
theorem Leads.of_removed (h : a.Linked) (hr : (a.node r.node).parent ≠ none)
    (hleads : Leads (r :: rs) a d) : ∃ b, r.apply a = .ok b () ∧ a.Removed r b ∧ Leads rs b d := by
  obtain ⟨b, hstep, hb⟩ := h.removed hr
  cases hleads with
  | cons hstep' hrest =>
    obtain rfl : b = _ := congrArg Outcome.arena (hstep.symm.trans hstep')
    exact ⟨b, hstep, hb, hrest⟩

/-- The two first removals may be done in the other order. -/
theorem Leads.swap (h : a.Linked) (hrs : Removable a (s :: r :: rs))
    (hleads : Leads (s :: r :: rs) a d) : Leads (r :: s :: rs) a d := by
  have hrs' : Removable a (r :: s :: rs) := hrs.perm (.swap s r rs)
  have hne : s.node ≠ r.node := (List.nodup_cons.mp hrs.nodup).1 ∘ (List.mem_cons.mpr ∘ .inl)
  obtain ⟨b, -, hb, hrest⟩ := hleads.of_removed h (hrs.parent s List.mem_cons_self)
  obtain ⟨e, -, he, hrest⟩ :=
    hrest.of_removed hb.linked ((hrs.step hb).parent r List.mem_cons_self)
  obtain ⟨b', hfirst, hb'⟩ := h.removed (hrs'.parent r List.mem_cons_self)
  obtain ⟨e', hsecond, he'⟩ := hb'.linked.removed ((hrs'.step hb').parent s List.mem_cons_self)
  obtain rfl : e = e' := hb.comm h hne he hb' he'
  exact .cons hfirst (.cons hsecond hrest)

/-- **The order does not matter.** -/
theorem Leads.perm (h : a.Linked) (hrs : Removable a rs) (hleads : Leads rs a d)
    (hperm : rs.Perm order) : Leads order a d := by
  induction hperm generalizing a with
  | nil => exact hleads
  | cons r _ ih =>
    obtain ⟨b, hstep, hb, hrest⟩ := hleads.of_removed h (hrs.parent r List.mem_cons_self)
    exact .cons hstep (ih hb.linked (hrs.step hb) hrest)
  | swap r s rs => exact hleads.swap h hrs
  | trans hperm _ ih ih' => exact ih' h (hrs.perm hperm.symm) (ih h hrs hleads)

end Removal

namespace Arena

/-- **Removals may be done in any order.** Let different nodes that are no roots be chosen, each to
be folded under or to be torn. In whatever order this is done, it succeeds at every step, and it
ends in one and the same arena, the roots of which are the former ones and the chosen nodes. -/
theorem Linked.removals_commute {a : Arena} (h : a.Linked) (rs : List Removal)
    (hdistinct : (rs.map Removal.node).Nodup)
    (hparent : ∀ r ∈ rs, (a.node r.node).parent ≠ none) :
    ∃ b : Arena, b.Linked ∧
      (∀ x, (b.node x).parent = none ↔ x ∈ rs.map Removal.node ∨ (a.node x).parent = none) ∧
      ∀ order : List Removal, order.Perm rs → Removal.Leads order a b := by
  have hrs : Removal.Removable a rs := ⟨hdistinct, hparent⟩
  obtain ⟨b, hleads, hb, hroots⟩ := hrs.exists_leads h
  exact ⟨b, hb, hroots, fun order hperm => hleads.perm h hrs hperm.symm⟩

/-- A node, one of its children, and the siblings on both sides of it, the last of them. -/
theorem removals_commute_bushy :
    RuleTable.bushy.Linked ∧
      ∃ b : Arena, ((b.node 2).parent = none ∧ (b.node 4).parent ≠ none) ∧
        ∀ order : List Removal, order.Perm [.fold 2, .tear 3, .fold 1, .tear 5] →
          Removal.Leads order RuleTable.bushy b := by
  have hlinked := RuleTable.linked_bushy
  obtain ⟨b, -, hroots, horders⟩ :=
    hlinked.removals_commute [.fold 2, .tear 3, .fold 1, .tear 5] (by decide) (by decide)
  exact ⟨hlinked, b, ⟨(hroots 2).mpr (by decide), (hroots 4).not.mpr (by decide)⟩, horders⟩

end Arena

end ParseTree
