import ParseTree.Proofs.Ancestry

/-!
# Changes that leave links alone

Whether an arena is linked depends on its links only. Labels, kinds, extents and tear stores may
change at will, and a new node may be added: it comes without links, and a slot that is still free
reads as a node without links. `SameLinks` compares the links of two arenas slot by slot, and
`Linked.of_sameLinks` carries everything about child lists over.

## Main results

* `field_update`, `proj_update`, `proj_adopt`: one field of a node after an update.
* `Linked.of_sameLinks`: arenas with the same links are linked alike and have the same child lists.
* `sameLinks_make`, `sameLinks_copy`: allocation adds no link.
-/

namespace ParseTree

namespace Arena

variable {a b : Arena} {i x : NodeId}

/-! ## Fields that an operation leaves alone -/

/-- An update that leaves a field of every node alone. -/
theorem proj_update {β : Type} (field : Node → β) {f : Node → Node}
    (hf : ∀ n, field (f n) = field n) : field ((a.update i f).node x) = field (a.node x) := by
  rw [node_update]
  split
  · exact hf _
  · rfl

/-- A field after an update of a slot of the arena. -/
theorem field_update {β : Type} (field : Node → β) {f : Node → Node} (hi : i < a.size) :
    field ((a.update i f).node x) = if x = i then field (f (a.node i)) else field (a.node x) := by
  rw [node_update]
  grind

/-- Adoption leaves every field but the parent alone. -/
theorem proj_adopt {β : Type} (field : Node → β) {parent : Option NodeId} {ids : List NodeId}
    (hf : ∀ n parent, field { n with parent } = field n) :
    field ((a.adopt parent ids).node x) = field (a.node x) := by
  rw [node_adopt]
  split
  · exact hf _ _
  · rfl

@[simp] theorem stores_adopt {parent : Option NodeId} {ids : List NodeId} :
    (a.adopt parent ids).stores = a.stores := by
  induction ids generalizing a with
  | nil => rfl
  | cons i ids ih => exact ih

@[simp] theorem nextIdentity_adopt {parent : Option NodeId} {ids : List NodeId} :
    (a.adopt parent ids).nextIdentity = a.nextIdentity := by
  induction ids generalizing a with
  | nil => rfl
  | cons i ids ih => exact ih

/-! ## Changes that leave all links alone -/

/-- Every node has the same links in both arenas. -/
structure SameLinks (a b : Arena) : Prop where
  parent : ∀ i, (b.node i).parent = (a.node i).parent
  firstChild : ∀ i, (b.node i).firstChild = (a.node i).firstChild
  nextSibling : ∀ i, (b.node i).nextSibling = (a.node i).nextSibling
  lastChild : ∀ i, (b.node i).lastChild = (a.node i).lastChild

theorem SameLinks.trans {d : Arena} (h : a.SameLinks b) (h' : b.SameLinks d) : a.SameLinks d where
  parent i := (h'.parent i).trans (h.parent i)
  firstChild i := (h'.firstChild i).trans (h.firstChild i)
  nextSibling i := (h'.nextSibling i).trans (h.nextSibling i)
  lastChild i := (h'.lastChild i).trans (h.lastChild i)

/-- Child lists depend on links only. -/
theorem HasChildLists.of_sameLinks (h : a.HasChildLists) (hab : a.SameLinks b) :
    b.HasChildLists ∧ b.children = a.children :=
  HasChildLists.of_isChildList fun i => (h i).congr (hab.firstChild i) (hab.lastChild i)
    (fun c _ => hab.nextSibling c) fun c _ => hab.parent c

/-- Whether an arena is linked, and its child lists, depend on links only. -/
theorem Linked.of_sameLinks (h : a.Linked) (hab : a.SameLinks b) :
    b.Linked ∧ b.children = a.children := by
  refine Linked.of_childLists (fun i => ?_) (fun {i p} hi => ?_) (fun {i} hi => ?_)
    (h.rooted_of_above fun {i p} hi ih => ?_)
  · exact (h.childList i).congr (hab.firstChild i) (hab.lastChild i)
      (fun c _ => hab.nextSibling c) fun c _ => hab.parent c
  · exact h.mem_children_of_parent (by rw [← hab.parent, hi])
  · rw [hab.nextSibling]
    exact h.nextSibling_of_root (by rw [← hab.parent, hi])
  · exact ih p (.of_parent (by rw [← hab.parent, hi]))

theorem sameLinks_update (a : Arena) (i : NodeId) {f : Node → Node}
    (hf : ∀ n, (f n).parent = n.parent ∧ (f n).firstChild = n.firstChild ∧
      (f n).nextSibling = n.nextSibling ∧ (f n).lastChild = n.lastChild) :
    a.SameLinks (a.update i f) where
  parent _ := proj_update Node.parent fun n => (hf n).1
  firstChild _ := proj_update Node.firstChild fun n => (hf n).2.1
  nextSibling _ := proj_update Node.nextSibling fun n => (hf n).2.2.1
  lastChild _ := proj_update Node.lastChild fun n => (hf n).2.2.2

theorem sameLinks_setLabel (a : Arena) (i : NodeId) (label : String) :
    a.SameLinks (a.setLabel i label) :=
  sameLinks_update a i fun _ => ⟨rfl, rfl, rfl, rfl⟩

theorem sameLinks_setKind (a : Arena) (i : NodeId) (kind : Kind) :
    a.SameLinks (a.setKind i kind) :=
  sameLinks_update a i fun _ => ⟨rfl, rfl, rfl, rfl⟩

theorem sameLinks_setLeft (a : Arena) (i : NodeId) (left : Nat) :
    a.SameLinks (a.setLeft i left) :=
  sameLinks_update a i fun _ => ⟨rfl, rfl, rfl, rfl⟩

theorem sameLinks_setRight (a : Arena) (i : NodeId) (right : Nat) :
    a.SameLinks (a.setRight i right) :=
  sameLinks_update a i fun _ => ⟨rfl, rfl, rfl, rfl⟩

theorem sameLinks_updateStore (a : Arena) (s : Nat) (f : TearStore → TearStore) :
    a.SameLinks (a.updateStore s f) :=
  ⟨fun _ => rfl, fun _ => rfl, fun _ => rfl, fun _ => rfl⟩

/-- Allocation gives the new node no links, and a free slot reads as a node without links. -/
theorem sameLinks_of_push {fresh : Node} (hparent : fresh.parent = none)
    (hfirst : fresh.firstChild = none) (hnext : fresh.nextSibling = none)
    (hlast : fresh.lastChild = none)
    (hb : ∀ x, b.node x = if x = a.size then fresh else a.node x) : a.SameLinks b := by
  have hfree : a.node a.size = .blank := node_of_size_le (Nat.le_refl _)
  refine ⟨fun x => ?_, fun x => ?_, fun x => ?_, fun x => ?_⟩ <;> rw [hb] <;> split
  all_goals simp_all [Node.blank]

theorem sameLinks_make (a : Arena) (label : String) (kind : Kind) (left right : Nat) :
    a.SameLinks (a.make label kind left right).2 :=
  sameLinks_of_push rfl rfl rfl rfl (node_make a label kind left right)

theorem sameLinks_copy (a : Arena) (i : NodeId) : a.SameLinks (a.copy i).2 :=
  sameLinks_of_push rfl rfl rfl rfl (node_copy a i)

end Arena

end ParseTree
