import ParseTree.Proofs.Runs
import ParseTree.Proofs.Showings

/-!
# The order of a walk

A walk with a rule table begins with all nodes below a root ahead of it, in post-order. It ends with
nothing ahead. What it has shown by then is a part of that list, in that order: nothing is shown
that was not there, nothing twice, and no node before one below it.

It may be a part only. A rule that gathers right siblings of the node moves nodes that are still
ahead, and the walk goes on behind them. These are all that is missing: a node is shown unless it
lies in the subtree of a node that was moved from behind the node that was being shown.

## Main results

* `walk_ends`: a walk ends, within two steps for every slot, and leaves a linked arena.
* `visited_sublist_postorderBelow`: the nodes shown, against the post-order list.
* `mem_visited_iff`: which nodes are shown.
-/

namespace ParseTree

open Arena

namespace Walk

variable {σ : Type} {s : Scheme σ} {input : String} {a : Arena} {r : NodeId} {gathers : Bool}

/-- A walk that has come to its end within the bound is where it was then. -/
theorem walk_eq_run {n : Nat} {state : σ} (hn : n ≤ bound a)
    (h : (run s input n (start a r state)).stack = []) :
    walk s input a r state = run s input n (start a r state) := by
  obtain ⟨k, hk⟩ : ∃ k, bound a = n + k := Nat.exists_eq_add_of_le hn
  have hrun : walk s input a r state = run s input (bound a) (start a r state) := rfl
  rw [hrun, hk, run_add, run_of_stack_nil _ _ _ h]

theorem two_mul_size_succ_le_bound (a : Arena) : 2 * a.size + 1 ≤ bound a := by
  have hsurplus := two_le_surplus
  unfold bound
  omega

/-- **A walk ends**, within two steps for every slot of the arena. -/
theorem run_stack_eq_nil (hs : s.IsConfined gathers) (input : String) (ha : a.Linked) (r : NodeId)
    (state : σ) {n : Nat} (hn : 2 * a.size + 1 ≤ n) :
    (run s input n (start a r state)).stack = [] := by
  obtain ⟨tail, -, -, -, -, hend⟩ := (follows_start ha r state).run hs input ha n
  have hlen : (a.postorderBelow r).length ≤ a.size := ha.length_postorderBelow_le r
  refine hend ?_
  show 2 * (a.postorderBelow r).length + 2 ≤ n + 1
  omega

end Walk

namespace RuleTable

variable {t : RuleTable} {input : String} {a : Arena} {d r : NodeId}

/-- **A walk with a rule table ends** and leaves a linked arena. -/
theorem walk_ends (t : RuleTable) (input : String) (ha : a.Linked) (r : NodeId) :
    (walk (Scheme.ofTable t) input a r ()).stack = [] ∧
      (walk (Scheme.ofTable t) input a r ()).arena.Linked := by
  have hend := Walk.run_stack_eq_nil t.isConfined input ha r () (Walk.two_mul_size_succ_le_bound a)
  obtain ⟨tail, htail, -⟩ := (Walk.follows_start ha r ()).run t.isConfined input ha (Walk.bound a)
  exact ⟨hend, htail.linked⟩

/-- What was shown, and what was lost, in the end. -/
theorem showings_spec (t : RuleTable) (input : String) (ha : a.Linked) (r : NodeId) :
    (t.visited input a r).Sublist (a.postorderBelow r) ∧
      (a.postorderBelow r).Perm (t.visited input a r ++
        (t.showings input a r).flatMap (Walk.Showing.lost a)) ∧
      (t.gathersSiblings = false → (t.showings input a r).flatMap (Walk.Showing.lost a) = []) := by
  have hend := Walk.run_stack_eq_nil t.isConfined input ha r () (Walk.two_mul_size_succ_le_bound a)
  obtain ⟨tail, htail, hsub, hperm, hlost, -⟩ :=
    (Walk.follows_start ha r ()).run t.isConfined input ha (Walk.bound a)
  obtain rfl : tail = [] := by
    have hagenda := htail.onAgenda
    rwa [hend] at hagenda
  rw [List.append_nil] at hsub hperm
  rw [visited_eq]
  exact ⟨hsub, hperm, hlost⟩

/-- **The nodes that a walk shows** are among those below the root when the walk began, in
post-order: none of them twice, none before a node below it. They are all of them if no rule of the
table gathers siblings. -/
theorem visited_sublist_postorderBelow (t : RuleTable) (input : String) (ha : a.Linked)
    (r : NodeId) :
    (t.visited input a r).Sublist (a.postorderBelow r) ∧
      (t.visited input a r).Nodup ∧
      (∀ x ∈ t.visited input a r, x ≠ r ∧ x < a.size ∧ a.Below x r) ∧
      (t.visited input a r).Pairwise (fun x y => ¬ a.Below y x) ∧
      (t.gathersSiblings = false → t.visited input a r = a.postorderBelow r) := by
  obtain ⟨hsub, hperm, hlost⟩ := t.showings_spec input ha r
  have hpair := (ha.pairwise_postorderBelow r).sublist hsub
  refine ⟨hsub, hpair.imp And.left, fun x hx => ?_, hpair.imp And.right, fun hno => ?_⟩
  · have hxr : a.Below x r := ha.mem_postorderBelow.mp (hsub.subset hx)
    refine ⟨?_, hxr.lt_size, hxr⟩
    rintro rfl
    exact ha.acyclic x hxr
  · rw [hlost hno, List.append_nil] at hperm
    exact hsub.eq_of_length hperm.length_eq.symm

/-- A rule that folds the node in the middle, whose two children are shown before it and not again.
-/
def foldTable : RuleTable :=
  .ofEntries [("m", [⟨.always, .edit .foldUnder⟩])]

/-- A root with the children `x`, `m` and `x`, of which `m` has two children. -/
def bushy : Arena :=
  Command.runAll [.make "r" .nonTerminal 0 4, .push 0 "x" .terminal 0 1,
    .push 0 "m" .nonTerminal 1 3, .push 2 "y" .terminal 1 2, .push 2 "y" .terminal 2 3,
    .push 0 "x" .terminal 3 4] {}

theorem linked_bushy : bushy.Linked :=
  (Command.runAll_wellFormed wellFormed_empty (by decide)).linked

theorem visited_foldTable : foldTable.visited "abcd" bushy 0 = [1, 3, 4, 2, 5] :=
  (foldTable.visited_sublist_postorderBelow "abcd" linked_bushy 0).2.2.2.2 (by decide)

/-- **Which nodes are shown**: a node below the root is left out exactly if it was in the subtree of
a node that stood behind a node being shown and that was then moved away from there. -/
theorem mem_visited_iff (t : RuleTable) (input : String) (ha : a.Linked) (hd : a.Below d r) :
    d ∈ t.visited input a r ↔
      ∀ v ∈ t.showings input a r, ∀ x ∈ v.moved, ¬ a.Within d x := by
  obtain ⟨-, hperm, -⟩ := t.showings_spec input ha r
  have hmem : d ∈ t.visited input a r ++ (t.showings input a r).flatMap (Walk.Showing.lost a) :=
    hperm.mem_iff.mp (ha.mem_postorderBelow.mpr hd)
  have hnd : (t.visited input a r ++ (t.showings input a r).flatMap (Walk.Showing.lost a)).Nodup :=
    hperm.nodup_iff.mp (ha.nodup_postorderBelow r)
  have hlost : d ∈ (t.showings input a r).flatMap (Walk.Showing.lost a) ↔
      ∃ v ∈ t.showings input a r, ∃ x ∈ v.moved, a.Within d x := by
    simp only [List.mem_flatMap, Walk.Showing.lost]
    refine exists_congr fun v => and_congr_right fun _ => exists_congr fun x => ?_
    refine and_congr_right fun _ => ⟨within_of_mem_postorder ha, fun hdx => ?_⟩
    exact (ha.mem_postorder (ha.within_lt_size hdx hd.lt_size)).mpr hdx
  constructor
  · intro hvisited v hv x hx hdx
    have hd' := hlost.mpr ⟨v, hv, x, hx, hdx⟩
    exact (List.nodup_append.mp hnd).2.2 d hvisited d hd' rfl
  · intro hno
    refine (List.mem_append.mp hmem).resolve_right fun hd' => ?_
    obtain ⟨v, hv, x, hx, hdx⟩ := hlost.mp hd'
    exact hno v hv x hx hdx

/-- A rule that gathers a node with all that stands behind it. -/
def gatherTable : RuleTable :=
  .ofEntries [("x", [⟨.always, .edit (.gatherWithSiblings "x")⟩])]

/-- A root with three children. -/
def threeLeaves : Arena :=
  Command.runAll [.make "r" .nonTerminal 0 3, .push 0 "x" .terminal 0 1, .push 0 "x" .terminal 1 2,
    .push 0 "x" .terminal 2 3] {}

theorem linked_threeLeaves : threeLeaves.Linked :=
  (Command.runAll_wellFormed wellFormed_empty (by decide)).linked

/-- The first child is shown and takes the others along, which are shown no more. -/
theorem visited_gatherTable : gatherTable.visited "abc" threeLeaves 0 = [1] := by
  have hn : 8 ≤ Walk.bound threeLeaves :=
    Nat.le_trans (by decide) (Walk.two_mul_size_succ_le_bound threeLeaves)
  rw [visited, Walk.walk_eq_run hn (by decide)]
  decide

/-- The second child is left out, and indeed it was moved. -/
theorem moved_of_not_mem_visited :
    2 ∉ gatherTable.visited "abc" threeLeaves 0 ∧
      ∃ v ∈ gatherTable.showings "abc" threeLeaves 0, ∃ x ∈ v.moved, threeLeaves.Within 2 x := by
  have hbelow : threeLeaves.Below 2 0 := .of_parent (by decide)
  have hno : 2 ∉ gatherTable.visited "abc" threeLeaves 0 := by
    rw [visited_gatherTable]
    decide
  refine ⟨hno, ?_⟩
  by_contra hstay
  have hshown := gatherTable.mem_visited_iff "abc" linked_threeLeaves hbelow
  exact hno (hshown.mpr fun v hv x hx hdx => hstay ⟨v, hv, x, hx, hdx⟩)

/-- **A walk may leave nodes out.** -/
theorem not_forall_mem_visited :
    ¬ ∀ (t : RuleTable) (input : String) (a : Arena), a.Linked → ∀ r d, a.Below d r →
      d ∈ t.visited input a r := by
  intro hall
  have hmem := hall gatherTable "abc" threeLeaves linked_threeLeaves 0 2 (.of_parent (by decide))
  rw [visited_gatherTable] at hmem
  simp at hmem

end RuleTable

end ParseTree
