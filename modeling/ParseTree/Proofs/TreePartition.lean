import ParseTree.Proofs.CloneSize
import ParseTree.Proofs.Joining
import ParseTree.Proofs.Preorder
import ParseTree.Proofs.WalkOrder

/-!
# An arena falls into trees

A traversal of a subtree, the count of its nodes, and the root that is found from one of them follow
different links: the first goes down, along and up, the second goes down, with a stack of nodes that
have children, and the third goes up. In a linked arena they agree. The traversal is the recursive
description to its last visit, and then it ends; what it enters is the subtree, each node once, and
as many nodes as are counted; and every slot is entered from exactly one root, so that the trees of
an arena have as many nodes as it has slots.

## Main results

* `Linked.length_subtree`: traversals and counts find the same number of nodes.
* `Linked.subtree_roots_perm`: the trees at the roots have every slot once.
* `Linked.traversals_agree`: traversals, counts and roots.
-/

namespace ParseTree

namespace Arena

variable {a : Arena} {i r x : NodeId}

/-! ## The nodes of a subtree -/

theorem Linked.length_subtree (h : a.Linked) (hi : i < a.size) :
    (a.subtree i).length = a.countNodes i := by
  rw [(h.subtree_perm_postorder hi).length_eq, h.countNodes_eq_length hi]

theorem mem_subtree_iff_enter : x ∈ a.subtree i ↔ .enter x ∈ a.bracket i := by
  rw [subtree, List.mem_filterMap]
  constructor
  · rintro ⟨v | v, hv, hx⟩
    · cases hx
      exact hv
    · cases hx
  · exact fun hx => ⟨_, hx, rfl⟩

/-- A node is left if and only if it is entered. -/
theorem Linked.leave_mem_bracket (h : a.Linked) :
    .leave x ∈ a.bracket i ↔ .enter x ∈ a.bracket i := by
  induction i using h.induction_down with
  | _ i ih =>
    rw [h.bracket_eq]
    simp only [List.mem_cons, List.mem_append, List.mem_flatMap, List.not_mem_nil, or_false,
      reduceCtorEq, false_or, Visit.enter.injEq, Visit.leave.injEq]
    rw [or_comm]
    exact or_congr_right (exists_congr fun c => and_congr_right fun hc => ih c hc)

/-! ## Roots -/

/-- The slots whose nodes have no parent. -/
def roots (a : Arena) : List NodeId :=
  (List.range a.size).filter fun r => (a.node r).parent.isNone

theorem mem_roots : r ∈ a.roots ↔ r < a.size ∧ (a.node r).parent = none := by
  simp [roots]

/-- **A slot is in the tree of one root**, the one that is found from it. -/
theorem Linked.mem_subtree_root_iff (h : a.Linked) :
    (a.node r).parent = none ∧ x ∈ a.subtree r ↔ r = a.root x := by
  rw [h.mem_subtree, and_comm, ← h.root_eq_iff, eq_comm]

theorem Linked.root_mem_roots (h : a.Linked) (hx : x < a.size) : a.root x ∈ a.roots := by
  obtain ⟨hwithin, hroot⟩ := h.root_eq_iff.mp (rfl : a.root x = a.root x)
  exact mem_roots.mpr ⟨h.within_lt_size hwithin hx, hroot⟩

/-- **The trees at the roots have every slot once.** -/
theorem Linked.subtree_roots_perm (h : a.Linked) :
    (a.roots.flatMap a.subtree).Perm (List.range a.size) := by
  have hnodup : (a.roots.flatMap a.subtree).Nodup := by
    refine List.nodup_flatMap.mpr ⟨fun r hr => h.nodup_subtree (mem_roots.mp hr).1, ?_⟩
    refine (List.nodup_range.filter _).imp_of_mem fun {r s} hr hs hne x hxr hxs => hne ?_
    have hrx := h.mem_subtree_root_iff.mp ⟨(mem_roots.mp hr).2, hxr⟩
    have hsx := h.mem_subtree_root_iff.mp ⟨(mem_roots.mp hs).2, hxs⟩
    exact hrx.trans hsx.symm
  refine (List.perm_ext_iff_of_nodup hnodup List.nodup_range).mpr fun x => ?_
  rw [List.mem_flatMap, List.mem_range]
  constructor
  · rintro ⟨r, hr, hxr⟩
    rcases within_iff.mp (h.mem_subtree.mp hxr) with rfl | hbelow
    · exact (mem_roots.mp hr).1
    · exact hbelow.lt_size
  · intro hx
    exact ⟨a.root x, h.root_mem_roots hx, (h.mem_subtree_root_iff.mpr rfl).2⟩

/-- The trees of an arena have as many nodes as it has slots. -/
theorem Linked.sum_countNodes_roots (h : a.Linked) :
    (a.roots.map a.countNodes).sum = a.size := by
  have hlength := h.subtree_roots_perm.length_eq
  rw [List.length_flatMap, List.length_range] at hlength
  rw [← hlength]
  refine congrArg List.sum (List.map_congr_left fun r hr => ?_)
  exact (h.length_subtree (mem_roots.mp hr).1).symm

/-! ## All of them -/

/-- **Traversals, counts and roots agree.** A traversal of a subtree yields the visits of the
recursive description, as many of them as are asked for, and no others; all of them are visits to
nodes of the subtree. The nodes that are entered are the node itself and those that have it on their
way up, each once. Counting takes a node with children off its stack in every round, so the stack is
empty after at most as many rounds as there are nodes, and what has been counted then is the number
of nodes entered. A slot is among the nodes entered from one root, which is the root that is found
from it, and so the counts at all roots add up to the number of slots. -/
theorem Linked.traversals_agree (h : a.Linked) :
    (∀ i < a.size,
      a.bracket i = .enter i :: ((a.children i).flatMap a.bracket ++ [.leave i]) ∧
      (∀ n, a.preorder i n = (a.bracket i).take n) ∧
      (∀ x, (.enter x ∈ a.bracket i ↔ a.Within x i) ∧ (.leave x ∈ a.bracket i ↔ a.Within x i)) ∧
      (∀ limit, a.descendants i limit = (a.subtree i).take limit) ∧
      (a.subtree i).Nodup ∧
      (∀ n ≥ a.countNodes i, a.countRound^[n] ([i], 1) = ([], a.countNodes i)) ∧
      (a.subtree i).length = a.countNodes i ∧
      ∀ x, x ∈ a.subtree i ↔ a.Within x i) ∧
    (∀ x < a.size, ∀ r, (a.node r).parent = none ∧ x ∈ a.subtree r ↔ r = a.root x) ∧
    (a.roots.map a.countNodes).sum = a.size := by
  refine ⟨fun i hi => ⟨h.bracket_eq i, h.preorder_eq_take i, fun x => ?_, h.descendants_eq_take hi,
    h.nodup_subtree hi, fun n hn => h.iterate_countRound_root hn, h.length_subtree hi,
    fun x => h.mem_subtree⟩,
    fun x _ r => h.mem_subtree_root_iff, h.sum_countNodes_roots⟩
  rw [h.leave_mem_bracket, ← mem_subtree_iff_enter, h.mem_subtree]
  exact ⟨Iff.rfl, Iff.rfl⟩

/-- An inner node with two children, which is neither the first nor the last child of the root. -/
theorem traversals_agree_bushy :
    RuleTable.bushy.Linked ∧
      (∀ n, RuleTable.bushy.preorder 2 n =
        [.enter 2, .enter 3, .leave 3, .enter 4, .leave 4, .leave 2].take n) ∧
      (∀ limit, RuleTable.bushy.descendants 2 limit = [2, 3, 4].take limit) ∧
      RuleTable.bushy.countRound^[3] ([2], 1) = ([], 3) ∧
      RuleTable.bushy.countNodes 2 = 3 ∧ RuleTable.bushy.root 4 = 0 := by
  have hlinked := RuleTable.linked_bushy
  obtain ⟨hall, hroot, -⟩ := hlinked.traversals_agree
  obtain ⟨-, hvisits, -, hfound, -, hrounds, hcount, -⟩ := hall 2 (by decide)
  have hbracket : RuleTable.bushy.bracket 2 =
      [.enter 2, .enter 3, .leave 3, .enter 4, .leave 4, .leave 2] := by decide
  have hsubtree : RuleTable.bushy.subtree 2 = [2, 3, 4] := by decide
  rw [hbracket] at hvisits
  rw [hsubtree] at hfound hcount
  rw [← hcount] at hrounds
  exact ⟨hlinked, hvisits, hfound, hrounds 3 (Nat.le_refl 3), hcount.symm,
    ((hroot 4 (by decide) 0).mp ⟨by decide, by decide⟩).symm⟩

end Arena

end ParseTree
