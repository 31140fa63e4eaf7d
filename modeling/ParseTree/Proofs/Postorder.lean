import Mathlib.Data.List.Flatten
import ParseTree.Proofs.Ancestry

/-!
# Post-order lists

The post-order list of a subtree has every node of the subtree once, and no node in front of a node
below it. It is defined by recursion on a bound of the depth, and the number of slots is always
bound enough, so that on a linked arena the definition satisfies the recursive equation.

## Main results

* `Linked.postorder_eq`: the recursive equation.
* `Linked.mem_postorder`, `Linked.pairwise_postorder`: the list has the nodes of the subtree, each
  once, and children come before parents.
* `Linked.mem_postorderBelow` and its companions: the same without the root.
-/

namespace ParseTree

namespace Arena

variable {a : Arena} {i r x : NodeId} {m n : Nat}

/-- The nodes at most `n` levels deep in the subtree at `i`, children before parents. -/
def postorderWithin (a : Arena) : Nat → NodeId → List NodeId
  | 0, _ => []
  | n + 1, i => (a.children i).flatMap (a.postorderWithin n) ++ [i]

/-- The nodes of the subtree at `i`, children before parents and from left to right. -/
def postorder (a : Arena) (i : NodeId) : List NodeId :=
  a.postorderWithin a.size i

/-- The nodes below `r`, children before parents and from left to right. -/
def postorderBelow (a : Arena) (r : NodeId) : List NodeId :=
  (a.children r).flatMap a.postorder

/-- Within any bound, only nodes of the subtree are listed. -/
theorem within_of_mem_postorder (h : a.Linked) (hx : x ∈ a.postorder i) : a.Within x i := by
  rw [postorder] at hx
  generalize a.size = n at hx
  induction n generalizing i with
  | zero => simp [postorderWithin] at hx
  | succ n ih =>
    rw [postorderWithin, List.mem_append, List.mem_flatMap, List.mem_singleton] at hx
    rcases hx with ⟨c, hc, hx⟩ | rfl
    · exact (ih hx).trans (.of_parent (h.mem_children.mp hc))
    · rfl

namespace Linked

/-- A bound above the number of nodes below `i` is bound enough. -/
theorem postorderWithin_eq (h : a.Linked) (hm : a.weight i < m) (hn : a.weight i < n) :
    a.postorderWithin m i = a.postorderWithin n i := by
  induction m generalizing i n with
  | zero => exact absurd hm (Nat.not_lt_zero _)
  | succ m ih =>
    cases n with
    | zero => exact absurd hn (Nat.not_lt_zero _)
    | succ n =>
      have hkids : (a.children i).flatMap (a.postorderWithin m) =
          (a.children i).flatMap (a.postorderWithin n) := by
        refine List.flatMap_congr fun c hc => ?_
        have hlt : a.weight c < a.weight i := h.weight_lt_of_parent (h.mem_children.mp hc)
        exact ih (by omega) (by omega)
      rw [postorderWithin, postorderWithin, hkids]

/-- **The recursive equation**: first the subtrees of the children, then the node. -/
theorem postorder_eq (h : a.Linked) (hi : i < a.size) :
    a.postorder i = a.postorderBelow i ++ [i] := by
  have hlt : a.weight i < a.size := h.weight_lt_size hi
  rw [postorder, h.postorderWithin_eq hlt (Nat.lt_succ_of_lt hlt), postorderWithin]
  rfl

/-- A node below `r` is in the subtree of a child of `r`. -/
theorem below_iff_exists_child (h : a.Linked) :
    a.Below x r ↔ ∃ c ∈ a.children r, a.Within x c := by
  constructor
  · intro hx
    obtain ⟨c, hxc, hcr⟩ := Relation.TransGen.tail'_iff.mp hx
    exact ⟨c, h.mem_children_of_parent hcr, hxc⟩
  · rintro ⟨c, hc, hxc⟩
    exact hxc.trans_below (.of_parent (h.mem_children.mp hc))

theorem mem_postorder (h : a.Linked) (hi : i < a.size) : x ∈ a.postorder i ↔ a.Within x i := by
  induction i using h.induction_down generalizing x with
  | _ i ih =>
    have hbelow : x ∈ a.postorderBelow i ↔ a.Below x i := by
      rw [h.below_iff_exists_child, postorderBelow, List.mem_flatMap]
      refine exists_congr fun c => and_congr_right fun hc => ?_
      exact ih c hc (h.lt_size_of_mem hc)
    rw [h.postorder_eq hi, List.mem_append, List.mem_singleton, hbelow, within_iff, or_comm]

theorem mem_postorderBelow (h : a.Linked) : x ∈ a.postorderBelow r ↔ a.Below x r := by
  rw [h.below_iff_exists_child, postorderBelow, List.mem_flatMap]
  refine exists_congr fun c => and_congr_right fun hc => ?_
  exact h.mem_postorder (h.lt_size_of_mem hc)

/-- Subtrees of different children have no node in common, nor is one below a node of the other. -/
theorem pairwise_subtrees (h : a.Linked) (r : NodeId) :
    (a.children r).Pairwise fun c d => ∀ x, a.Within x c → ∀ y, a.Within y d →
      x ≠ y ∧ ¬ a.Below y x := by
  refine (h.nodup_children r).imp_of_mem fun {c d} hc hd hne x hx y hy => ?_
  have hc : (a.node c).parent = some r := h.mem_children.mp hc
  have hd : (a.node d).parent = some r := h.mem_children.mp hd
  refine ⟨?_, fun hyx => hne (h.eq_of_within hc hd (hyx.within.trans hx) hy)⟩
  rintro rfl
  exact hne (h.eq_of_within hc hd hx hy)

private theorem pairwise_postorderBelow_of (h : a.Linked)
    (hr : ∀ c ∈ a.children r, (a.postorder c).Pairwise fun x y => x ≠ y ∧ ¬ a.Below y x) :
    (a.postorderBelow r).Pairwise fun x y => x ≠ y ∧ ¬ a.Below y x := by
  refine List.pairwise_flatMap.mpr ⟨hr, (h.pairwise_subtrees r).imp_of_mem ?_⟩
  intro c d hc hd hcd x hx y hy
  rw [h.mem_postorder (h.lt_size_of_mem hc)] at hx
  rw [h.mem_postorder (h.lt_size_of_mem hd)] at hy
  exact hcd x hx y hy

/-- Every node is listed once, and no node is listed behind one that it is below. -/
theorem pairwise_postorder (h : a.Linked) (hi : i < a.size) :
    (a.postorder i).Pairwise fun x y => x ≠ y ∧ ¬ a.Below y x := by
  induction i using h.induction_down with
  | _ i ih =>
    rw [h.postorder_eq hi]
    refine List.pairwise_append.mpr ⟨?_, List.pairwise_singleton _ _, fun x hx y hy => ?_⟩
    · exact pairwise_postorderBelow_of h fun c hc => ih c hc (h.lt_size_of_mem hc)
    · -- the node itself comes last, and is below none of the others
      obtain rfl : y = i := List.mem_singleton.mp hy
      have hxy : a.Below x y := h.mem_postorderBelow.mp hx
      refine ⟨?_, fun hyx => h.acyclic y (hyx.trans hxy)⟩
      rintro rfl
      exact h.acyclic x hxy

theorem pairwise_postorderBelow (h : a.Linked) (r : NodeId) :
    (a.postorderBelow r).Pairwise fun x y => x ≠ y ∧ ¬ a.Below y x :=
  pairwise_postorderBelow_of h fun _ hc => h.pairwise_postorder (h.lt_size_of_mem hc)

theorem nodup_postorderBelow (h : a.Linked) (r : NodeId) : (a.postorderBelow r).Nodup :=
  (h.pairwise_postorderBelow r).imp And.left

/-- There are no more nodes below a node than there are slots. -/
theorem length_postorderBelow_le (h : a.Linked) (r : NodeId) :
    (a.postorderBelow r).length ≤ a.size :=
  length_le_size (h.nodup_postorderBelow r) fun _ hx => (h.mem_postorderBelow.mp hx).lt_size

end Linked

end Arena

end ParseTree
