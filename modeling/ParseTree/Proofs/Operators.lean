import ParseTree.Proofs.Cloning
import ParseTree.Proofs.Gathering
import ParseTree.Proofs.Removal

/-!
# What the operators do

Every operator that succeeds rearranges child lists in a way that can be written down as a function
from nodes to lists, and every operator that fails leaves the arena as it was. `Relinked` is the
first half of that sentence. The function in it speaks about the nodes that were there. New nodes
may have new children besides, since a clone brings its own lists with it.

Each operator gets one theorem about linked arenas, which also says when it succeeds. Commands that
set links one by one can bend a list into a cycle or hang a node below two others, and then little
is left of the trees. What an operator refuses, and what it writes if it does not, can still be
said: `outcome` lemmas do.

## Main results

* `tearInto_outcome`, `insert_outcome`: what an operator that is not refused leaves.
* `Linked.foldUnder_cases`, `Linked.foldOver_cases`: the children of the node take its place.
* `Linked.tear_cases`, `Linked.tearInto_cases`: the node leaves its list.
* `Linked.gatherWithSiblings_cases`: siblings move below the node, behind its copy.
* `Linked.insert_cases`: the list gets a new member.
-/

namespace ParseTree

namespace Arena

variable {a b d : Arena} {i p c x : NodeId} {before after siblings : List NodeId}
  {kids kids' : NodeId → List NodeId}

/-! ## Rearranged child lists -/

/-- The child lists of `b`, as far as the nodes of `a` are concerned, are those of `kids`. -/
structure Relinked (a b : Arena) (kids : NodeId → List NodeId) : Prop where
  linked : b.Linked
  size_le : a.size ≤ b.size
  children_eq : ∀ x < a.size, b.children x = kids x
  /-- A new node lists new nodes besides those of `kids`. -/
  children_of_le : ∀ x, a.size ≤ x → ∀ c ∈ b.children x, a.size ≤ c ∨ c ∈ kids x

theorem Relinked.of_children_eq (h : b.Linked ∧ b.children = kids) (hsize : a.size ≤ b.size) :
    a.Relinked b kids where
  linked := h.1
  size_le := hsize
  children_eq _ _ := congrFun h.2 _
  children_of_le _ _ _ hc := .inr (by rwa [← h.2])

/-- A node of `a` is listed where `kids` lists it. -/
theorem Relinked.mem_children (h : a.Relinked b kids) (hc : c < a.size) (hmem : c ∈ b.children p) :
    c ∈ kids p := by
  rcases Nat.lt_or_ge p a.size with hp | hp
  · rwa [← h.children_eq p hp]
  · exact (h.children_of_le p hp c hmem).resolve_left (Nat.not_le.mpr hc)

/-- If a list has the first free slot in it, that slot is free no more. -/
theorem Relinked.size_lt (h : a.Relinked b kids) (hi : i < a.size) (hmem : a.size ∈ kids i) :
    a.size < b.size := by
  rw [← h.children_eq i hi] at hmem
  exact h.linked.lt_size_of_mem hmem

theorem Linked.parent_eq_none_iff (h : a.Linked) :
    (a.node i).parent = none ↔ ∀ p, i ∉ a.children p := by
  constructor
  · intro hi p hp
    simp [h.mem_children.mp hp] at hi
  · intro hi
    cases hp : (a.node i).parent with
    | none => rfl
    | some p => exact absurd (h.mem_children_of_parent hp) (hi p)

/-- A root stays a root if only nodes that had a parent are listed. -/
theorem Relinked.root_of_root (h : a.Relinked b kids) (ha : a.Linked) (hi : i < a.size)
    (hroot : (a.node i).parent = none)
    (hkids : ∀ p, i ∈ kids p → ∃ q, i ∈ a.children q) : (b.node i).parent = none := by
  refine h.linked.parent_eq_none_iff.mpr fun p hp => ?_
  obtain ⟨q, hq⟩ := hkids p (h.mem_children hi hp)
  exact ha.parent_eq_none_iff.mp hroot q hq

/-- Links that do not change rearrange nothing. -/
theorem Linked.relinked_of_sameLinks (h : a.Linked) (hab : a.SameLinks b)
    (hsize : a.size ≤ b.size) : a.Relinked b a.children :=
  .of_children_eq (h.of_sameLinks hab) hsize

/-- Labels may be set after any rearrangement. -/
theorem Relinked.of_sameLinks (h : a.Relinked b kids) (hbd : b.SameLinks d)
    (hsize : b.size ≤ d.size) : a.Relinked d kids where
  linked := (h.linked.of_sameLinks hbd).1
  size_le := Nat.le_trans h.size_le hsize
  children_eq := (h.linked.of_sameLinks hbd).2 ▸ h.children_eq
  children_of_le := (h.linked.of_sameLinks hbd).2 ▸ h.children_of_le

/-- A clone rearranges no list. -/
theorem Extension.relinked (h : a.Extension b) (ha : a.Linked) : a.Relinked b a.children where
  linked := h.linked
  size_le := Nat.le_of_lt h.size_lt
  children_eq _ := h.children_eq ha
  children_of_le _ hx _ hc := .inl (h.size_le_of_mem ha hx hc)

/-- After a clone, the list of an old node may be changed to one with the first new node in it. -/
theorem Extension.relinked_update (h : a.Extension b) (ha : a.Linked) {l : List NodeId}
    (hp : p < a.size) (hd : d.Linked ∧ d.children = Function.update b.children p l)
    (hsize : d.size = b.size) : a.Relinked d (Function.update a.children p l) where
  linked := hd.1
  size_le := hsize ▸ Nat.le_of_lt h.size_lt
  children_eq x hx := by
    rw [hd.2]
    by_cases hxp : x = p
    · rw [hxp, Function.update_self, Function.update_self]
    · rw [Function.update_of_ne hxp, Function.update_of_ne hxp, h.children_eq ha hx]
  children_of_le x hx c hc := by
    have hxp : x ≠ p := Nat.ne_of_gt (Nat.lt_of_lt_of_le hp hx)
    rw [hd.2, Function.update_of_ne hxp] at hc
    exact .inl (h.size_le_of_mem ha hx hc)

/-! ## The shapes of the rearrangements -/

/-- The children of `c` take its place between `before` and `after` in the list of `p`. -/
def promoted (a : Arena) (p c : NodeId) (before after : List NodeId) : NodeId → List NodeId :=
  Function.update (Function.update a.children p (before ++ a.children c ++ after)) c []

/-- What stood between `before` and `after` in the list of `p` is gone. -/
def shortened (a : Arena) (p : NodeId) (before after : List NodeId) : NodeId → List NodeId :=
  Function.update a.children p (before ++ after)

/-- The first free slot stands between `before` and `after` in the list of `p`. -/
def lengthened (a : Arena) (p : NodeId) (before after : List NodeId) : NodeId → List NodeId :=
  Function.update a.children p (before ++ a.size :: after)

/-- The first free slot stands between `i` and its former children. -/
def deepened (a : Arena) (i : NodeId) : NodeId → List NodeId :=
  Function.update (Function.update a.children i [a.size]) a.size (a.children i)

/-- As `deepened`, and `siblings` have moved from the list of `p` to behind the new node. -/
def gathered (a : Arena) (p i : NodeId) (before siblings after : List NodeId) :
    NodeId → List NodeId :=
  Function.update (Function.update (Function.update a.children p (before ++ i :: after))
    i (a.size :: siblings)) a.size (a.children i)

/-! ## Failures -/

/-- An edit that failed and left the arena alone. -/
def Refused {α : Type} (a : Arena) (o : Outcome α) : Prop :=
  ∃ e log, o = ⟨.error e, a, log⟩

theorem Refused.arena_eq {α : Type} {o : Outcome α} (h : a.Refused o) : o.arena = a := by
  obtain ⟨e, log, rfl⟩ := h
  rfl

theorem Refused.map {α β : Type} {o : Outcome α} (h : a.Refused o) (f : α → β) :
    a.Refused (o.map f) := by
  obtain ⟨e, log, rfl⟩ := h
  exact ⟨e, log, rfl⟩

theorem refused_fail {α : Type} (a : Arena) (error : EditError) (message : String)
    (fields : List (String × String)) :
    a.Refused (Outcome.fail a error message fields : Outcome α) :=
  ⟨error, _, rfl⟩

theorem withParent_of_root {edit : ParentEdit} {next : Arena → NodeId → Outcome Unit}
    (hi : (a.node i).parent = none) : a.Refused (a.withParent edit i next) := by
  rw [withParent, hi]
  exact refused_fail ..

theorem withParent_of_parent {edit : ParentEdit} {next : Arena → NodeId → Outcome Unit}
    (hi : (a.node i).parent = some p) : a.withParent edit i next = next a p := by
  rw [withParent, hi]

theorem Linked.withPredecessor_eq (h : a.Linked) {next : Arena → Option NodeId → Outcome Unit}
    (hp : a.children p = before ++ i :: after) :
    a.withPredecessor p i next = next a before.getLast? := by
  have hlist := h.childList p
  rw [hp] at hlist
  rw [withPredecessor, hlist.predecessor?_eq]

/-! ## Outcomes

What an operator writes if it is not refused, in any arena. -/

theorem deleteChild_outcome (a : Arena) (p c : NodeId) :
    a.Refused (a.deleteChild p c) ∨
      ∃ prev, a.predecessor? p c = some prev ∧
        a.deleteChild p c = .ok (a.promote p prev c) () := by
  unfold deleteChild withPredecessor
  split
  · next prev hprev => exact .inr ⟨prev, hprev, rfl⟩
  · exact .inl (refused_fail ..)

theorem foldUnder_outcome (a : Arena) (i : NodeId) :
    a.Refused (a.foldUnder i) ∨
      ∃ p prev, (a.node i).parent = some p ∧ a.predecessor? p i = some prev ∧
        a.foldUnder i = .ok (a.promote p prev i) () := by
  unfold foldUnder withParent
  split
  · next p hp =>
    exact (a.deleteChild_outcome p i).imp_right fun ⟨prev, hprev, h⟩ => ⟨p, prev, hp, hprev, h⟩
  · exact .inl (refused_fail ..)

theorem foldOver_outcome (a : Arena) (i : NodeId) :
    a.Refused (a.foldOver i) ∨
      ∃ p prev, (a.node i).parent = some p ∧ a.predecessor? p i = some prev ∧
        a.foldOver i = .ok ((a.promote p prev i).setLabel p (a.node i).label) () := by
  unfold foldOver withParent
  split
  · next p hp =>
    dsimp only
    rcases a.deleteChild_outcome p i with ⟨e, log, h⟩ | ⟨prev, hprev, h⟩
    · exact .inl ⟨e, log, by rw [h, Outcome.bind_error]⟩
    · exact .inr ⟨p, prev, hp, hprev, by rw [h, Outcome.bind_ok]⟩
  · exact .inl (refused_fail ..)

theorem gatherWithSiblings_outcome (a : Arena) (i : NodeId) (label : String)
    (siblings : List NodeId) :
    a.Refused (a.gatherWithSiblings i label siblings) ∨
      ∃ after, a.follow? (a.node i).nextSibling siblings = some after ∧
        a.gatherWithSiblings i label siblings =
          .ok ((a.gather i label).2.gatherRest i a.size siblings after) a.size := by
  unfold gatherWithSiblings
  split
  · exact .inl (refused_fail ..)
  · next after hfollow => exact .inr ⟨after, hfollow, rfl⟩

theorem tear_outcome (a : Arena) (i : NodeId) :
    a.Refused (a.tear i) ∨
      ∃ p prev, (a.node i).parent = some p ∧ a.predecessor? p i = some prev ∧
        a.tear i = .ok (a.splice p prev i none) () := by
  unfold tear withParent withPredecessor
  split
  · next p hp =>
    dsimp only
    split
    · next prev hprev => exact .inr ⟨p, prev, hp, hprev, rfl⟩
    · exact .inl (refused_fail ..)
  · exact .inl (refused_fail ..)

/-- A keyed tear clones the subtree and stores the clone, and then it cuts the subtree off. -/
theorem tearInto_outcome (a : Arena) (i : NodeId) (key : String) :
    a.Refused (a.tearInto i key) ∨
      ∃ p prev, (a.node i).parent = some p ∧ a.predecessor? p i = some prev ∧
        a.tearInto i key =
          .ok (((a.cloneSubtree i).2.updateStore ((a.cloneSubtree i).2.node p).store fun s =>
            s.insert key a.size).splice p prev i none) () := by
  unfold tearInto withParent withPredecessor
  split
  · next p hp =>
    dsimp only
    split
    · next prev hprev => exact .inr ⟨p, prev, hp, hprev, rfl⟩
    · exact .inl (refused_fail ..)
  · exact .inl (refused_fail ..)

/-- An insert clones what is stored and links the clone, wherever that is. -/
theorem insert_outcome (a : Arena) (i : NodeId) (position : Nat) (key : String) :
    a.Refused (a.insert i position key) ∨
      ∃ stored prev, a.torn? i key = some stored ∧
        (∀ x ∈ prev, x ∈ (a.cloneSubtree stored).2.children i) ∧
        a.insert i position key =
          .ok ((a.cloneSubtree stored).2.linkAfter i prev a.size) a.size := by
  unfold insert
  split
  · exact .inl (refused_fail ..)
  next stored hstored =>
  dsimp only
  split
  · exact .inl (refused_fail ..)
  · refine .inr ⟨stored, _, hstored, ?_, rfl⟩
    split
    · simp
    · exact fun x hx => List.mem_of_getElem? hx

/-! ## Folding -/

/-- Deleting a child promotes its children. -/
theorem Linked.deleteChild_eq (h : a.Linked) (hp : a.children p = before ++ c :: after) :
    a.deleteChild p c = .ok (a.promote p before.getLast? c) () := by
  rw [deleteChild, h.withPredecessor_eq hp]

/-- Folding under deletes the node from the children of its parent. -/
theorem Linked.foldUnder_eq (h : a.Linked) (hp : a.children p = before ++ i :: after) :
    a.foldUnder i = .ok (a.promote p before.getLast? i) () :=
  (withParent_of_parent (h.parent_eq hp)).trans (h.deleteChild_eq hp)

/-- Folding over labels the parent besides. -/
theorem Linked.foldOver_eq (h : a.Linked) (hp : a.children p = before ++ i :: after) :
    a.foldOver i =
      .ok ((a.promote p before.getLast? i).setLabel p (a.node i).label) () := by
  rw [foldOver, withParent_of_parent (h.parent_eq hp), h.deleteChild_eq hp, Outcome.bind_ok]

/-- A child is replaced by its children; a node that is no child is refused. -/
theorem Linked.deleteChild_cases (h : a.Linked) (p c : NodeId) :
    c ∉ a.children p ∧ a.Refused (a.deleteChild p c) ∨
    ∃ before after b, a.children p = before ++ c :: after ∧ a.deleteChild p c = .ok b () ∧
      a.Relinked b (a.promoted p c before after) ∧ b.stores = a.stores := by
  by_cases hc : c ∈ a.children p
  · obtain ⟨before, after, hp⟩ := List.append_of_mem hc
    refine .inr ⟨before, after, a.promote p before.getLast? c, hp, ?_, ?_, ?_⟩
    · exact h.deleteChild_eq hp
    · exact .of_children_eq (h.promote hp) (Nat.le_of_eq size_promote.symm)
    · exact stores_promote
  · refine .inl ⟨hc, ?_⟩
    have hnone : a.predecessor? p c = none := by
      rwa [← isSome_predecessor?, Bool.not_eq_true, Option.isSome_eq_false_iff,
        Option.isNone_iff_eq_none] at hc
    rw [deleteChild, withPredecessor, hnone]
    exact refused_fail ..

/-- Folding under is refused at a root; elsewhere the children of the node take its place. -/
theorem Linked.foldUnder_cases (h : a.Linked) (i : NodeId) :
    (a.node i).parent = none ∧ a.Refused (a.foldUnder i) ∨
    ∃ p before after b, a.children p = before ++ i :: after ∧ a.foldUnder i = .ok b () ∧
      a.Relinked b (a.promoted p i before after) ∧ b.stores = a.stores := by
  cases hi : (a.node i).parent with
  | none => exact .inl ⟨rfl, withParent_of_root hi⟩
  | some p =>
    rcases h.deleteChild_cases p i with ⟨hni, -⟩ | ⟨before, after, b, hp, hdel, hb⟩
    · exact absurd (h.mem_children_of_parent hi) hni
    · exact .inr ⟨p, before, after, b, hp, (withParent_of_parent hi).trans hdel, hb⟩

/-- Folding over differs from folding under in a label. -/
theorem Linked.foldOver_cases (h : a.Linked) (i : NodeId) :
    (a.node i).parent = none ∧ a.Refused (a.foldOver i) ∨
    ∃ p before after b, a.children p = before ++ i :: after ∧ a.foldOver i = .ok b () ∧
      a.Relinked b (a.promoted p i before after) ∧ b.stores = a.stores := by
  cases hi : (a.node i).parent with
  | none => exact .inl ⟨rfl, withParent_of_root hi⟩
  | some p =>
    rcases h.deleteChild_cases p i with ⟨hni, -⟩ | ⟨before, after, b, hp, hdel, hb, hstores⟩
    · exact absurd (h.mem_children_of_parent hi) hni
    · refine .inr ⟨p, before, after, b.setLabel p (a.node i).label, hp, ?_, ?_, ?_⟩
      · rw [foldOver, withParent_of_parent hi, hdel, Outcome.bind_ok]
      · exact hb.of_sameLinks (sameLinks_setLabel b p _) (by simp [setLabel])
      · rw [setLabel, stores_update, hstores]

/-! ## Gathering -/

theorem Linked.gather_relinked (h : a.Linked) (hi : i < a.size) (label : String) :
    a.Relinked (a.gather i label).2 (a.deepened i) :=
  .of_children_eq (h.gather hi label) (by simp)

/-- Siblings are gathered if they follow the node, and refused otherwise. A root has no siblings to
gather, so that only the level is added. -/
theorem Linked.gatherWithSiblings_cases (h : a.Linked) (hi : i < a.size) (label : String)
    (siblings : List NodeId) :
    a.Refused (a.gatherWithSiblings i label siblings) ∨
    (siblings = [] ∧ ∃ b, a.gatherWithSiblings i label siblings = .ok b a.size ∧
      a.Relinked b (a.deepened i) ∧ b.stores = a.stores) ∨
    ∃ p before after b, a.children p = before ++ i :: (siblings ++ after) ∧
      a.gatherWithSiblings i label siblings = .ok b a.size ∧
      a.Relinked b (a.gathered p i before siblings after) ∧ b.stores = a.stores := by
  by_cases hs : siblings = []
  · subst hs
    exact .inr (.inl ⟨rfl, _, gatherWithSiblings_nil a i label, h.gather_relinked hi label,
      stores_gather a i label⟩)
  cases hfollow : a.follow? (a.node i).nextSibling siblings with
  | none =>
    refine .inl ?_
    rw [Arena.gatherWithSiblings, hfollow]
    exact refused_fail ..
  | some next =>
    obtain ⟨after, hright, -⟩ := h.follow?_eq_some_iff.mp hfollow
    cases hpi : (a.node i).parent with
    | none =>
      rw [h.rightSiblings_of_root hpi] at hright
      exact absurd (List.append_eq_nil_iff.mp hright.symm).1 hs
    | some p =>
      obtain ⟨before, rest, hp⟩ := h.exists_children_eq hpi
      rw [h.rightSiblings_eq hp] at hright
      subst hright
      obtain ⟨b, hb, hlinked, hsize, hstores, hkids⟩ := h.gatherWithSiblings label hp
      refine .inr (.inr ⟨p, before, after, b, hp, hb, ?_, hstores⟩)
      exact .of_children_eq ⟨hlinked, hkids⟩ (hsize ▸ Nat.le_succ _)

/-! ## Tearing and inserting -/

/-- Tearing cuts the node out of its list. -/
theorem Linked.tear_eq (h : a.Linked) (hp : a.children p = before ++ i :: after) :
    a.tear i = .ok (a.splice p before.getLast? i none) () := by
  rw [tear, withParent_of_parent (h.parent_eq hp), h.withPredecessor_eq hp]

/-- Tearing is refused at a root; elsewhere the node leaves its list. -/
theorem Linked.tear_cases (h : a.Linked) (i : NodeId) :
    (a.node i).parent = none ∧ a.Refused (a.tear i) ∨
    ∃ p before after b, a.children p = before ++ i :: after ∧ a.tear i = .ok b () ∧
      a.Relinked b (a.shortened p before after) ∧ b.stores = a.stores := by
  cases hi : (a.node i).parent with
  | none => exact .inl ⟨rfl, withParent_of_root hi⟩
  | some p =>
    obtain ⟨before, after, hp⟩ := h.exists_children_eq hi
    refine .inr ⟨p, before, after, a.splice p before.getLast? i none, hp, ?_, ?_, stores_splice⟩
    · exact h.tear_eq hp
    · exact .of_children_eq (h.cut hp) (Nat.le_of_eq size_splice.symm)

/-- **Tearing into a store** stores a clone with the parent and then cuts. -/
theorem Linked.tearInto_eq (h : a.Linked) (hp : a.children p = before ++ i :: after)
    (key : String) :
    a.tearInto i key = .ok (((a.cloneSubtree i).2.updateStore (a.node p).store fun store =>
      store.insert key a.size).splice p before.getLast? i none) () := by
  have hi : (a.node i).parent = some p := h.parent_eq hp
  have hnode := (h.cloneSubtree i).node_eq p (h.parent_lt_size hi)
  rw [tearInto, withParent_of_parent hi, h.withPredecessor_eq hp, ← hnode]
  rfl

/-- The node leaves its list, and a tree of new nodes is stored. -/
theorem Linked.tearInto_relinked (h : a.Linked) (hp : a.children p = before ++ i :: after)
    (key : String) :
    ∃ b, a.tearInto i key = .ok b () ∧ a.Relinked b (a.shortened p before after) ∧
      a.size < b.size ∧ (b.node a.size).parent = none ∧
      b.stores = a.stores.modify (a.node p).store fun store => store.insert key a.size := by
  have hi : (a.node i).parent = some p := h.parent_eq hp
  have hps : p < a.size := h.parent_lt_size hi
  have hclone : a.Extension (a.cloneSubtree i).2 := h.cloneSubtree i
  have htear := h.tearInto_eq hp key
  generalize (a.cloneSubtree i).2 = d at hclone htear
  generalize hs : (a.node p).store = s at htear
  generalize he : d.updateStore s (fun store => store.insert key a.size) = e at htear
  have hes : e.size = d.size := by rw [← he]; rfl
  have hek : e.Linked ∧ e.children = d.children := by
    rw [← he]
    exact hclone.linked.of_sameLinks (sameLinks_updateStore d s _)
  have hpe : e.children p = before ++ i :: after := by
    rw [hek.2, hclone.children_eq h hps, hp]
  have hcut := hek.1.cut hpe
  rw [hek.2] at hcut
  refine ⟨e.splice p before.getLast? i none, htear, ?_, ?_, ?_, ?_⟩
  · exact hclone.relinked_update h hps hcut (size_splice.trans hes)
  · rw [size_splice, hes]
    exact hclone.size_lt
  · have hie : i < e.size := hes ▸ Nat.lt_trans (lt_size_of_parent hi) hclone.size_lt
    have hne : a.size ≠ i := Nat.ne_of_gt (lt_size_of_parent hi)
    have hroot : (e.node a.size).parent = none := by
      rw [← he]
      exact hclone.root
    rw [parent_splice hie, if_neg hne, hroot]
  · rw [stores_splice, ← hclone.stores, ← he]
    rfl

/-- Tearing into a store differs from tearing in the clone that is stored. -/
theorem Linked.tearInto_cases (h : a.Linked) (i : NodeId) (key : String) :
    (a.node i).parent = none ∧ a.Refused (a.tearInto i key) ∨
    ∃ p before after b, a.children p = before ++ i :: after ∧ a.tearInto i key = .ok b () ∧
      a.Relinked b (a.shortened p before after) ∧ a.size < b.size ∧ (b.node a.size).parent = none ∧
      ∃ s, b.stores = a.stores.modify s fun store => store.insert key a.size := by
  cases hi : (a.node i).parent with
  | none => exact .inl ⟨rfl, withParent_of_root hi⟩
  | some p =>
    obtain ⟨before, after, hp⟩ := h.exists_children_eq hi
    obtain ⟨b, hok, hb, hlt, hroot, hstores⟩ := h.tearInto_relinked hp key
    exact .inr ⟨p, before, after, b, hp, hok, hb, hlt, hroot, (a.node p).store, hstores⟩

/-- The node in front of a position is the last of those before it. -/
theorem getLast?_take_eq {l : List NodeId} : ∀ {position : Nat}, position ≤ l.length →
    (l.take position).getLast? =
      match position with
      | 0 => none
      | n + 1 => l[n]?
  | 0, _ => rfl
  | n + 1, h => by
    rw [List.getLast?_take]
    simp [show n < l.length from h]

/-- **Inserting** links a clone of the stored subtree behind the nodes in front of the position. -/
theorem Linked.insert_eq (h : a.Linked) (hi : i < a.size) {key : String} {stored position : Nat}
    (hstored : a.torn? i key = some stored) (hle : position ≤ (a.children i).length) :
    a.insert i position key = .ok ((a.cloneSubtree stored).2.linkAfter i
      ((a.children i).take position).getLast? a.size) a.size := by
  rw [insert, hstored]
  dsimp only
  rw [if_neg (Nat.not_lt.mpr hle), (h.cloneSubtree stored).children_eq h hi, getLast?_take_eq hle]
  rfl

/-- A clone of a stored subtree is inserted if there is one and the position is in range. -/
theorem Linked.insert_cases (h : a.Linked) (hi : i < a.size) (position : Nat) (key : String) :
    a.Refused (a.insert i position key) ∨
    ∃ before after b, a.children i = before ++ after ∧ a.insert i position key = .ok b a.size ∧
      a.Relinked b (a.lengthened i before after) ∧ b.stores = a.stores := by
  cases hstored : a.torn? i key with
  | none =>
    rw [insert, hstored]
    exact .inl (refused_fail ..)
  | some stored =>
  by_cases hle : position ≤ (a.children i).length
  · have hclone : a.Extension (a.cloneSubtree stored).2 := h.cloneSubtree stored
    have hsplit : a.children i = (a.children i).take position ++ (a.children i).drop position :=
      (List.take_append_drop position _).symm
    have hlink := hclone.linked.linkAfter ((hclone.children_eq h hi).trans hsplit)
      (Nat.lt_trans hi hclone.size_lt) hclone.size_lt hclone.root (hclone.not_within h hi)
    refine .inr ⟨_, _, _, hsplit, h.insert_eq hi hstored hle,
      hclone.relinked_update h hi hlink size_linkAfter, ?_⟩
    rw [stores_linkAfter, hclone.stores]
  · rw [insert, hstored]
    dsimp only
    rw [if_pos (Nat.not_le.mp hle)]
    exact .inl (refused_fail ..)

/-! ## Making and appending -/

theorem Linked.addChild_relinked (h : a.Linked) (hp : p < a.size) (hc : c < a.size)
    (hroot : (a.node c).parent = none) (hpc : ¬ a.Within p c) :
    a.Relinked (a.addChild p c) (Function.update a.children p (a.children p ++ [c])) :=
  .of_children_eq (h.addChild hp hc hroot hpc) (Nat.le_of_eq size_addChild.symm)

/-- Making a node adds a tree of one node. -/
theorem Linked.make_relinked (h : a.Linked) (label : String) (kind : Kind) (left right : Nat) :
    a.Relinked (a.make label kind left right).2 a.children :=
  h.relinked_of_sameLinks (sameLinks_make a label kind left right) (by simp)

/-- Pushing appends the new node. -/
theorem Linked.push_relinked (h : a.Linked) (hp : p < a.size) (label : String) (kind : Kind)
    (left right : Nat) :
    a.Relinked (a.push p label kind left right).2 (a.lengthened p (a.children p) []) := by
  have hmake := h.of_sameLinks (sameLinks_make a label kind left right)
  have hsize : (a.make label kind left right).2.size = a.size + 1 := size_make ..
  have hlt : a.size < (a.make label kind left right).2.size := hsize ▸ Nat.lt_succ_self _
  obtain ⟨hroot, hout⟩ := h.fresh (sameLinks_make a label kind left right) hp
  have hadd := hmake.1.addChild (Nat.lt_trans hp hlt) hlt hroot hout
  rw [hmake.2] at hadd
  refine .of_children_eq hadd ?_
  show a.size ≤ ((a.make label kind left right).2.addChild p a.size).size
  rw [size_addChild]
  exact Nat.le_of_lt hlt

end Arena

end ParseTree
