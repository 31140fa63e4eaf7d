import ParseTree.Arena.Copying
import ParseTree.Proofs.Joining

/-!
# What copying a subtree leaves alone

A copy of a subtree is made of new nodes. `Extension` says what that means for everything else: the
nodes that were there keep all their fields, and the first new slot is a root, so old and new nodes
are in different trees. Copying goes through intermediate arenas, and each of them is an extension
of the arena that copying began with; the stack holds new nodes to copy to.

Which tree the copy is does not matter here. An edit that clones and then relinks needs to know only
that it may go on as if nothing had happened.

## Main results

* `Extension.children_eq`, `Extension.within_iff`: the old trees are as they were.
* `Linked.cloneSubtree`: a clone extends the arena.
-/

namespace ParseTree

namespace Arena

variable {a b : Arena} {i p c x r : NodeId} {stack : List (NodeId × NodeId)}

/-! ## Writing to few nodes -/

/-- Appending a root writes to the root, to its new parent, and to the children of the parent. -/
theorem Linked.node_addChild_of_ne (h : a.Linked) (hc : c < a.size)
    (hroot : (a.node c).parent = none) (hxp : x ≠ p) (hxc : x ≠ c) (hx : x ∉ a.children p) :
    (a.addChild p c).node x = a.node x := by
  have hnext : (a.node c).nextSibling = none := h.nextSibling_of_root hroot
  have hlist := h.childList p
  unfold Arena.addChild
  split
  · have hchain : a.chain a.size (some c) = [c] := chain_of_nextSibling_none hc hnext
    rw [setChild, node_update_of_ne _ (Ne.symm hxp), hchain, node_adopt, if_neg (by simp [hxc])]
  · next last hsome =>
    have hmem : last ∈ a.children p := List.mem_of_getLast? (hlist.lastChild.symm.trans hsome)
    have hlx : last ≠ x := fun hlx => hx (hlx ▸ hmem)
    have hlc : last ≠ c := by
      rintro rfl
      simp [h.mem_children.mp hmem] at hroot
    have hchain : (a.update last fun n => { n with nextSibling := some c }).chain
        (a.update last fun n => { n with nextSibling := some c }).size (some c) = [c] :=
      chain_of_nextSibling_none (by simpa using hc) (by rw [node_update_of_ne _ hlc, hnext])
    dsimp only
    rw [node_update_of_ne _ (Ne.symm hxp), hchain, node_adopt, if_neg (by simp [hxc]),
      node_update_of_ne _ hlx]

/-! ## Arenas with more nodes -/

/-- Arena `b` has new nodes in trees of their own; the first of them is a root. -/
structure Extension (a b : Arena) : Prop where
  linked : b.Linked
  size_lt : a.size < b.size
  /-- Nodes that were there keep their fields, their links among them. -/
  node_eq : ∀ x < a.size, b.node x = a.node x
  root : (b.node a.size).parent = none
  stores : b.stores = a.stores

namespace Extension

/-- Nodes that were there keep their children. -/
theorem children_eq (h : a.Extension b) (ha : a.Linked) (hx : x < a.size) :
    b.children x = a.children x := by
  have hnode : b.node x = a.node x := h.node_eq x hx
  have hkids : ∀ c ∈ a.children x, b.node c = a.node c := fun c hc =>
    h.node_eq c (ha.lt_size_of_mem hc)
  refine ((ha.childList x).congr ?_ ?_ (fun c hc => ?_) fun c hc => ?_).eq_children
  · rw [hnode]
  · rw [hnode]
  · rw [hkids c hc]
  · rw [hkids c hc]

/-- A new node is a child of new nodes only. -/
theorem size_le_of_mem (h : a.Extension b) (ha : a.Linked) (hp : a.size ≤ p)
    (hc : c ∈ b.children p) : a.size ≤ c := by
  by_contra hlt
  have hlt : c < a.size := Nat.not_le.mp hlt
  have hcp : (a.node c).parent = some p := by
    rw [← h.node_eq c hlt]
    exact h.linked.mem_children.mp hc
  exact Nat.not_lt.mpr hp (ha.parent_lt_size hcp)

theorem within_iff (h : a.Extension b) (ha : a.Linked) (hx : x < a.size) :
    b.Within x r ↔ a.Within x r := by
  constructor
  · intro hxr
    induction hxr using Relation.ReflTransGen.head_induction_on with
    | refl => rfl
    | head hxp _ ih =>
      rw [h.node_eq _ hx] at hxp
      exact (Within.of_parent hxp).trans (ih (ha.parent_lt_size hxp))
  · intro hxr
    induction hxr using Relation.ReflTransGen.head_induction_on with
    | refl => rfl
    | head hxp _ ih =>
      have hpx := ih (ha.parent_lt_size hxp)
      rw [← h.node_eq _ hx] at hxp
      exact (Within.of_parent hxp).trans hpx

/-- No node that was there is in the tree at the first new node. -/
theorem not_within (h : a.Extension b) (ha : a.Linked) (hx : x < a.size) :
    ¬ b.Within x a.size := by
  rw [h.within_iff ha hx]
  exact fun hxs => Nat.lt_irrefl _ (ha.within_lt_size hxs hx)

end Extension

/-- Copying one node extends the arena. -/
theorem Linked.extension_copy (h : a.Linked) (i : NodeId) : a.Extension (a.copy i).2 where
  linked := (h.of_sameLinks (sameLinks_copy a i)).1
  size_lt := by simp
  node_eq x hx := by rw [node_copy, if_neg (Nat.ne_of_lt hx)]
  root := by
    rw [node_copy, if_pos rfl]
    rfl
  stores := stores_copy a i

/-! ## Clones -/

/-- A copy of any node, appended to a new node, extends the arena further. -/
theorem Extension.addChild_copy (ha : a.Linked) (h : a.Extension b) (hp : a.size ≤ p)
    (hpb : p < b.size) (i : NodeId) : a.Extension ((b.copy i).2.addChild p b.size) := by
  obtain ⟨hcopy, hkids⟩ := h.linked.of_sameLinks (sameLinks_copy b i)
  have hsize : (b.copy i).2.size = b.size + 1 := size_copy b i
  have hlt : b.size < (b.copy i).2.size := hsize ▸ Nat.lt_succ_self _
  obtain ⟨hroot, hpc⟩ := h.linked.fresh (sameLinks_copy b i) hpb
  have hps : p < (b.copy i).2.size := Nat.lt_trans hpb hlt
  have hold : ∀ x < a.size, (b.copy i).2.node x = a.node x := by
    intro x hx
    rw [node_copy, if_neg (Nat.ne_of_lt (Nat.lt_trans hx h.size_lt)), h.node_eq x hx]
  refine ⟨(hcopy.addChild hps hlt hroot hpc).1, ?_, fun x hx => ?_, ?_, ?_⟩
  · rw [size_addChild]
    exact Nat.lt_trans h.size_lt hlt
  · have hxb : x ≠ b.size := Nat.ne_of_lt (Nat.lt_trans hx h.size_lt)
    have hxp : x ≠ p := Nat.ne_of_lt (Nat.lt_of_lt_of_le hx hp)
    refine (hcopy.node_addChild_of_ne hlt hroot hxp hxb fun hmem => ?_).trans (hold x hx)
    -- children of the new node `p` are new
    rw [hkids] at hmem
    exact Nat.not_lt.mpr (h.size_le_of_mem ha hp hmem) hx
  · rw [(hcopy.joinLinks_addChild hps hlt hroot).parent, if_neg (Nat.ne_of_lt h.size_lt), node_copy,
      if_neg (Nat.ne_of_lt h.size_lt), h.root]
  · rw [stores_addChild, stores_copy, h.stores]

/-- The nodes that a stack says to copy to are new. -/
def CopiesToNew (a b : Arena) (stack : List (NodeId × NodeId)) : Prop :=
  ∀ e ∈ stack, a.size ≤ e.2 ∧ e.2 < b.size

theorem copyChildren_cons (p i : NodeId) (l : List NodeId) (stack : List (NodeId × NodeId))
    (a : Arena) :
    copyChildren p (i :: l) stack a =
      let b := (a.copy i).2.addChild p a.size
      copyChildren p l (if (b.node i).firstChild.isSome then (i, a.size) :: stack else stack) b :=
  rfl

/-- Copying the nodes of a list below a new node extends the arena further. -/
theorem Extension.copyChildren (ha : a.Linked) (h : a.Extension b) (hp : a.size ≤ p)
    (hpb : p < b.size) (hstack : a.CopiesToNew b stack) (l : List NodeId) :
    a.Extension (copyChildren p l stack b).2 ∧
      a.CopiesToNew (copyChildren p l stack b).2 (copyChildren p l stack b).1 := by
  induction l generalizing b stack with
  | nil => exact ⟨h, hstack⟩
  | cons i l ih =>
    have hstep : a.Extension ((b.copy i).2.addChild p b.size) := h.addChild_copy ha hp hpb i
    have hsize : ((b.copy i).2.addChild p b.size).size = b.size + 1 := by simp
    have hgrow : ∀ {x}, x < b.size → x < ((b.copy i).2.addChild p b.size).size := fun hx =>
      hsize ▸ Nat.lt_succ_of_lt hx
    rw [copyChildren_cons]
    refine ih hstep (hgrow hpb) fun e he => ?_
    have hmem : e = (i, b.size) ∨ e ∈ stack := by
      grind
    rcases hmem with rfl | hmem
    · exact ⟨Nat.le_of_lt h.size_lt, hsize ▸ Nat.lt_succ_self _⟩
    · exact ⟨(hstack e hmem).1, hgrow (hstack e hmem).2⟩

/-- Copying for any number of rounds extends the arena further. -/
theorem Extension.copyPending (ha : a.Linked) (h : a.Extension b) (hstack : a.CopiesToNew b stack)
    (n : Nat) : a.Extension (copyPending n stack b) := by
  induction n generalizing b stack with
  | zero => exact h
  | succ n ih =>
    cases stack with
    | nil => exact h
    | cons e stack =>
      obtain ⟨i, c⟩ := e
      obtain ⟨hp, hpb⟩ := hstack (i, c) (by simp)
      have hrest : a.CopiesToNew b stack := fun e he => hstack e (by simp [he])
      obtain ⟨hext, hnew⟩ := h.copyChildren ha hp hpb hrest (b.children i)
      exact ih hext hnew

@[simp] theorem cloneSubtree_fst (a : Arena) (i : NodeId) : (a.cloneSubtree i).1 = a.size := rfl

/-- **A clone** extends the arena, and its root is the first new node. -/
theorem Linked.cloneSubtree (h : a.Linked) (i : NodeId) : a.Extension (a.cloneSubtree i).2 := by
  have hcopy : a.Extension (a.copy i).2 := h.extension_copy i
  refine hcopy.copyPending h (fun e he => ?_) _
  obtain rfl : e = (i, a.size) := List.mem_singleton.mp he
  exact ⟨Nat.le_refl _, hcopy.size_lt⟩

end Arena

end ParseTree
