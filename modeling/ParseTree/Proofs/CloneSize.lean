import ParseTree.Proofs.Cloning
import ParseTree.Proofs.SubtreeSize

/-!
# Copying comes to its end

A subtree is copied by taking nodes off a stack, one a round, and the number of rounds is bounded by
the number of nodes in the subtree. In a linked arena the bound is never what ends it. Every round
takes a node off and puts on some of its children, and the sizes of the subtrees on the stack add up
to less than before.

## Main results

* `Linked.iterate_copyRound`: after so many rounds the stack is empty.
* `Linked.copyPending_eq_cloneSubtree`: more rounds than that number change nothing.
-/

namespace ParseTree

namespace Arena

variable {a b : Arena} {i p : NodeId} {l : List NodeId} {stack : List (NodeId × NodeId)} {m n : Nat}

/-- The number of nodes in the subtrees that are still to be copied. -/
def pendingSize (a : Arena) (stack : List (NodeId × NodeId)) : Nat :=
  (stack.map fun e => a.countNodes e.1).sum

/-- The nodes that a stack says to copy from are old. -/
def CopiesFromOld (a : Arena) (stack : List (NodeId × NodeId)) : Prop :=
  ∀ e ∈ stack, e.1 < a.size

/-- Copying a list of old nodes puts no other nodes onto the stack. -/
theorem copiesFromOld_copyChildren (hl : ∀ c ∈ l, c < a.size) (hstack : a.CopiesFromOld stack)
    (p : NodeId) (b : Arena) :
    a.CopiesFromOld (copyChildren p l stack b).1 ∧
      a.pendingSize (copyChildren p l stack b).1 ≤
        (l.map a.countNodes).sum + a.pendingSize stack := by
  induction l generalizing b stack with
  | nil => exact ⟨hstack, by simp [copyChildren]⟩
  | cons c l ih =>
    have hc : c < a.size := hl c (by simp)
    have hrest : ∀ c ∈ l, c < a.size := fun c hc => hl c (by simp [hc])
    rw [copyChildren_cons]
    dsimp only
    split
    · have hpush : a.CopiesFromOld ((c, b.size) :: stack) := by
        intro e he
        rcases List.mem_cons.mp he with rfl | he
        · exact hc
        · exact hstack e he
      obtain ⟨hold, hsize⟩ := ih hrest hpush ((b.copy c).2.addChild p b.size)
      refine ⟨hold, hsize.trans (Nat.le_of_eq ?_)⟩
      simp only [pendingSize, List.map_cons, List.sum_cons]
      omega
    · obtain ⟨hold, hsize⟩ := ih hrest hstack ((b.copy c).2.addChild p b.size)
      refine ⟨hold, hsize.trans ?_⟩
      simp only [List.map_cons, List.sum_cons]
      omega

/-! ## Rounds -/

/-- One round: a node is taken off the stack and its children are copied. An empty stack stays as it
is. -/
def copyRound : List (NodeId × NodeId) × Arena → List (NodeId × NodeId) × Arena
  | ([], a) => ([], a)
  | ((i, c) :: stack, a) => copyChildren c (a.children i) stack a

theorem iterate_copyRound_nil (n : Nat) (a : Arena) : copyRound^[n] ([], a) = ([], a) :=
  Function.iterate_fixed rfl n

theorem copyPending_eq_iterate (n : Nat) (stack : List (NodeId × NodeId)) (a : Arena) :
    Arena.copyPending n stack a = (copyRound^[n] (stack, a)).2 := by
  induction n generalizing stack a with
  | zero => rfl
  | succ n ih =>
    cases stack with
    | nil => rw [iterate_copyRound_nil]; rfl
    | cons e stack => exact ih ..

/-- **The stack is empty** after as many rounds as there are pending nodes. -/
theorem Extension.iterate_copyRound (ha : a.Linked) (h : a.Extension b)
    (hnew : a.CopiesToNew b stack) (hold : a.CopiesFromOld stack) (hn : a.pendingSize stack ≤ n) :
    (copyRound^[n] (stack, b)).1 = [] := by
  induction n generalizing b stack with
  | zero =>
    cases stack with
    | nil => rfl
    | cons e stack =>
      have hpos := ha.countNodes_eq e.1
      simp only [pendingSize, List.map_cons, List.sum_cons] at hn
      omega
  | succ n ih =>
    cases stack with
    | nil => rw [iterate_copyRound_nil]
    | cons e stack =>
      obtain ⟨i, c⟩ := e
      obtain ⟨hp, hpb⟩ := hnew (i, c) (by simp)
      have hi : i < a.size := hold (i, c) (by simp)
      have hpos := ha.countNodes_eq i
      have hkids : b.children i = a.children i := h.children_eq ha hi
      have hnewRest : a.CopiesToNew b stack := fun e he => hnew e (by simp [he])
      have holdRest : a.CopiesFromOld stack := fun e he => hold e (by simp [he])
      have hslots : ∀ k ∈ b.children i, k < a.size := by
        rw [hkids]
        exact fun k hk => ha.lt_size_of_mem hk
      obtain ⟨hext, hnew'⟩ := h.copyChildren ha hp hpb hnewRest (b.children i)
      obtain ⟨hold', hsize⟩ := copiesFromOld_copyChildren hslots holdRest c b
      rw [hkids] at hsize
      simp only [pendingSize, List.map_cons, List.sum_cons] at hn hsize
      refine ih hext hnew' hold' ?_
      rw [hkids]
      unfold pendingSize
      omega

/-- **Rounds beyond the number of pending nodes** change nothing. -/
theorem Extension.copyPending_eq (ha : a.Linked) (h : a.Extension b) (hnew : a.CopiesToNew b stack)
    (hold : a.CopiesFromOld stack) (hn : a.pendingSize stack ≤ n) :
    Arena.copyPending n stack b = Arena.copyPending (a.pendingSize stack) stack b := by
  obtain ⟨k, rfl⟩ := Nat.exists_eq_add_of_le hn
  have hend := h.iterate_copyRound ha hnew hold (Nat.le_refl _)
  rw [copyPending_eq_iterate, copyPending_eq_iterate, Nat.add_comm, Function.iterate_add_apply]
  generalize copyRound^[a.pendingSize stack] (stack, b) = r at hend ⊢
  obtain ⟨_, d⟩ := r
  obtain rfl := hend
  rw [iterate_copyRound_nil]

/-- What the work on a clone begins with: a copy of the root, on the stack. -/
theorem Linked.copies_root (h : a.Linked) (hi : i < a.size) :
    a.Extension (a.copy i).2 ∧ a.CopiesToNew (a.copy i).2 [(i, a.size)] ∧
      a.CopiesFromOld [(i, a.size)] ∧ a.pendingSize [(i, a.size)] = a.countNodes i := by
  have hcopy : a.Extension (a.copy i).2 := h.extension_copy i
  refine ⟨hcopy, fun e he => ?_, fun e he => ?_, by simp [pendingSize]⟩
  · obtain rfl : e = (i, a.size) := List.mem_singleton.mp he
    exact ⟨Nat.le_refl _, hcopy.size_lt⟩
  · obtain rfl : e = (i, a.size) := List.mem_singleton.mp he
    exact hi

/-- **Copying a subtree comes to its end** by itself. -/
theorem Linked.copyPending_eq_cloneSubtree (h : a.Linked) (hi : i < a.size)
    (hn : a.countNodes i ≤ n) :
    Arena.copyPending n [(i, a.size)] (a.copy i).2 = (a.cloneSubtree i).2 := by
  obtain ⟨hcopy, hnew, hold, hsize⟩ := h.copies_root hi
  rw [hcopy.copyPending_eq h hnew hold (hsize.trans_le hn), hsize]
  rfl

/-- **The stack of a clone is empty** after as many rounds as the subtree has nodes, and then the
clone is made. -/
theorem Linked.iterate_copyRound (h : a.Linked) (hi : i < a.size) (hn : a.countNodes i ≤ n) :
    copyRound^[n] ([(i, a.size)], (a.copy i).2) = ([], (a.cloneSubtree i).2) := by
  obtain ⟨hcopy, hnew, hold, hsize⟩ := h.copies_root hi
  refine Prod.ext (hcopy.iterate_copyRound h hnew hold (hsize.trans_le hn)) ?_
  rw [← copyPending_eq_iterate, h.copyPending_eq_cloneSubtree hi hn]

end Arena

end ParseTree
