import Mathlib.Algebra.BigOperators.Group.List.Basic
import Mathlib.Algebra.Ring.Nat
import ParseTree.Arena.Copying
import ParseTree.Proofs.Postorder

/-!
# Counting a subtree

The nodes of a subtree are counted by taking nodes off a stack, and the count is a step ahead of the
stack: a node on the stack has been counted, and those below it have not. So the count, with what is
below the nodes on the stack, is the same after every round, and when the stack is empty it is the
number of nodes.

A round counts the children of one node and puts some of them onto the stack. What is left to be
counted and the nodes on the stack therefore get fewer together, and the stack is empty after as
many rounds as there are nodes. In a linked arena the bound on the rounds is never what ends them.

## Main results

* `Linked.countRound_uncounted`: what a round keeps.
* `Linked.iterate_countRound`: what a run of rounds comes to.
* `Linked.countNodes_eq_length`: the number of nodes in a subtree is the length of its post-order
  list.
* `Linked.countNodes_eq`: it is one more than the numbers for the children together.
-/

namespace ParseTree

namespace Arena

variable {a : Arena} {i : NodeId} {stack : List NodeId} {count n : Nat}

theorem iterate_countRound_nil (a : Arena) (n count : Nat) :
    a.countRound^[n] ([], count) = ([], count) :=
  Function.iterate_fixed rfl n

theorem countPending_eq_iterate (a : Arena) (n : Nat) (s : List NodeId × Nat) :
    a.countPending n s = (a.countRound^[n] s).2 := by
  induction n generalizing s with
  | zero => rfl
  | succ n ih =>
    obtain ⟨_ | ⟨i, stack⟩, count⟩ := s
    · rw [iterate_countRound_nil]
      rfl
    · exact ih _

/-- The number of nodes below those on a stack. -/
def uncounted (a : Arena) (stack : List NodeId) : Nat :=
  (stack.map fun i => (a.postorderBelow i).length).sum

@[simp] theorem uncounted_nil (a : Arena) : a.uncounted [] = 0 := rfl

@[simp] theorem uncounted_cons (a : Arena) (i : NodeId) (stack : List NodeId) :
    a.uncounted (i :: stack) = (a.postorderBelow i).length + a.uncounted stack := rfl

@[simp] theorem uncounted_append (a : Arena) (l stack : List NodeId) :
    a.uncounted (l ++ stack) = a.uncounted l + a.uncounted stack := by
  simp [uncounted]

@[simp] theorem uncounted_reverse (a : Arena) (l : List NodeId) :
    a.uncounted l.reverse = a.uncounted l := by
  rw [uncounted, List.map_reverse, List.sum_reverse, uncounted]

/-- A round counts as many nodes as it puts onto the stack, at least. -/
theorem length_countRound_le (a : Arena) (i : NodeId) (stack : List NodeId) (count : Nat) :
    (a.countRound (i :: stack, count)).1.length + count ≤
      stack.length + (a.countRound (i :: stack, count)).2 := by
  rw [countRound_cons, List.length_append, List.length_reverse]
  have hle := List.length_filter_le (fun c => (a.node c).firstChild.isSome) (a.children i)
  dsimp only
  omega

namespace Linked

/-- Below a node there are its children and what is below them. -/
theorem length_postorderBelow (h : a.Linked) (i : NodeId) :
    (a.postorderBelow i).length = (a.children i).length + a.uncounted (a.children i) := by
  have hkids : ∀ c ∈ a.children i, (a.postorder c).length = 1 + (a.postorderBelow c).length := by
    intro c hc
    rw [h.postorder_eq (h.lt_size_of_mem hc), List.length_append, List.length_singleton,
      Nat.add_comm]
  rw [postorderBelow, List.length_flatMap, List.map_congr_left hkids, List.sum_map_add,
    List.map_const', List.sum_replicate_nat, Nat.mul_one]
  rfl

/-- There is nothing below the leaves, which are not put onto the stack. -/
theorem uncounted_filter (h : a.Linked) (l : List NodeId) :
    a.uncounted (l.filter fun c => (a.node c).firstChild.isSome) = a.uncounted l := by
  induction l with
  | nil => rfl
  | cons c l ih =>
    rw [List.filter_cons]
    split
    · rw [uncounted_cons, uncounted_cons, ih]
    · next hleaf =>
      have hkids : a.children c = [] := by
        rw [(h.childList c).firstChild] at hleaf
        simpa using hleaf
      rw [ih, uncounted_cons, postorderBelow, hkids, List.flatMap_nil, List.length_nil,
        Nat.zero_add]

/-- **A round** counts what it takes away from what is below the nodes on the stack. -/
theorem countRound_uncounted (h : a.Linked) (s : List NodeId × Nat) :
    (a.countRound s).2 + a.uncounted (a.countRound s).1 = s.2 + a.uncounted s.1 := by
  obtain ⟨_ | ⟨i, stack⟩, count⟩ := s
  · rfl
  · rw [countRound_cons, uncounted_append, uncounted_reverse, h.uncounted_filter, uncounted_cons,
      h.length_postorderBelow i]
    omega

/-- **The stack is empty** when there have been enough rounds, and everything has been counted. -/
theorem iterate_countRound (h : a.Linked) (hn : stack.length + a.uncounted stack ≤ n) :
    a.countRound^[n] (stack, count) = ([], count + a.uncounted stack) := by
  induction n generalizing stack count with
  | zero =>
    obtain rfl : stack = [] := List.length_eq_zero_iff.mp (by omega)
    rfl
  | succ n ih =>
    cases stack with
    | nil => exact a.iterate_countRound_nil (n + 1) count
    | cons i stack =>
      have hkept := h.countRound_uncounted (i :: stack, count)
      have hlength := a.length_countRound_le i stack count
      rw [Function.iterate_succ_apply]
      generalize a.countRound (i :: stack, count) = s at hkept hlength ⊢
      obtain ⟨stack', count'⟩ := s
      rw [List.length_cons] at hn
      rw [ih (by dsimp only at hkept hlength; omega), hkept]

/-- A subtree has one node more than there are below its root. -/
theorem countNodes_eq_succ (h : a.Linked) (i : NodeId) :
    a.countNodes i = (a.postorderBelow i).length + 1 := by
  have hle := h.length_postorderBelow_le i
  have hsurplus := two_le_surplus
  rw [countNodes, countPending_eq_iterate, h.iterate_countRound, Nat.add_comm]
  · simp
  · rw [uncounted_cons, uncounted_nil, List.length_singleton]
    omega

/-- **Counting a subtree comes to its end** by itself, within one round for each node. -/
theorem iterate_countRound_root (h : a.Linked) (hn : a.countNodes i ≤ n) :
    a.countRound^[n] ([i], 1) = ([], a.countNodes i) := by
  rw [h.countNodes_eq_succ] at hn ⊢
  rw [h.iterate_countRound, Nat.add_comm]
  · rfl
  · rw [uncounted_cons, uncounted_nil, List.length_singleton]
    omega

/-- **Counting a subtree** counts its post-order list. -/
theorem countNodes_eq_length (h : a.Linked) (hi : i < a.size) :
    a.countNodes i = (a.postorder i).length := by
  rw [h.countNodes_eq_succ, h.postorder_eq hi, List.length_append, List.length_singleton]

/-- A subtree has one node more than the subtrees of its children together. -/
theorem countNodes_eq (h : a.Linked) (i : NodeId) :
    a.countNodes i = ((a.children i).map a.countNodes).sum + 1 := by
  have hkids : ∀ c ∈ a.children i, a.countNodes c = (a.postorder c).length := fun c hc =>
    h.countNodes_eq_length (h.lt_size_of_mem hc)
  rw [h.countNodes_eq_succ, postorderBelow, List.length_flatMap, List.map_congr_left hkids]

/-- The rounds that a count may take are enough. -/
theorem countNodes_le (h : a.Linked) (i : NodeId) : a.countNodes i ≤ a.size + 1 := by
  rw [h.countNodes_eq_succ]
  exact Nat.succ_le_succ (h.length_postorderBelow_le i)

end Linked

end Arena

end ParseTree
