import ParseTree.Proofs.CountRuns

/-!
# Counts of derivations are right

A counter answers with the number of derivation trees, or reports a cycle. Which of the two it is
depends on the forest and the node alone: what is known from earlier counts is cleared, whether they
succeeded or failed.

## Main results

* `Counter.countDerivations_of_acyclic`: if no cycle can be reached, the result is the number of
  derivations.
* `Counter.countDerivations_halts`: a count ends, and it fails if and only if a cycle can be
  reached.
-/

namespace ParseTree

open Forest

namespace Counter

variable {c : Counter} {root : Nat}

/-! ## Calls of a counter -/

/-- A call of a counter. -/
inductive Call where
  | count
  | countDerivations (root : Nat) (validParse : Bool)
  deriving DecidableEq, Repr

/-- Make a call. -/
def Call.run : Call → Counter → CountOutcome
  | count, c => c.count
  | countDerivations root validParse, c => c.countDerivations root validParse

/-- The counter after some calls. -/
def after (c : Counter) (calls : List Call) : Counter :=
  calls.foldl (fun c call => (call.run c).counter) c

theorem forest_countDerivations (c : Counter) (root : Nat) (validParse : Bool) :
    (c.countDerivations root validParse).counter.forest = c.forest := by
  unfold countDerivations
  split
  · dsimp only
    split <;> rfl
  · rfl

theorem forest_run (call : Call) (c : Counter) : (call.run c).counter.forest = c.forest := by
  cases call with
  | countDerivations root validParse => exact c.forest_countDerivations root validParse
  | count =>
    rw [Call.run, count]
    split
    · exact c.forest_countDerivations _ true
    · rfl

/-- Calls leave the forest alone. -/
@[simp] theorem forest_after (c : Counter) (calls : List Call) :
    (c.after calls).forest = c.forest := by
  induction calls generalizing c with
  | nil => rfl
  | cons call calls ih => exact (ih (call.run c).counter).trans (forest_run call c)

/-! ## Results -/

/-- What the end of the loop means for the caller. -/
def answer (root : Nat) (out : Except Nat Memo) : Except CountError Nat :=
  (out.map fun memo => (memo.count? root).getD 0).mapError .cyclicForest

/-- Nothing but the forest and the node matters. -/
theorem result_countDerivations (c : Counter) (root : Nat) :
    (c.countDerivations root true).result =
      answer root (c.forest.finish (c.forest.start root)) := by
  have hfinish : c.cleared.forest.countFrom root c.cleared.memo =
      (c.forest.finish (c.forest.start root)).map fun memo => (memo.count? root).getD 0 := rfl
  rw [countDerivations, if_pos rfl]
  dsimp only
  rw [hfinish, answer]
  cases c.forest.finish (c.forest.start root) <;> rfl

/-- If the answer is a number, links from the node come to an end. -/
theorem ends_or_exists_cycle (f : Forest) (root : Nat) :
    (f.Ends root ∧ answer root (f.finish (f.start root)) =
        .ok (Nat.card (f.Derivation root))) ∨
      ∃ i, answer root (f.finish (f.start root)) = .error (.cyclicForest i) ∧
        f.Reaches root i ∧ f.OnCycle i := by
  have hanswers := f.answers_start root
  cases hout : f.finish (f.start root) with
  | ok memo =>
    rw [hout] at hanswers
    obtain ⟨hends, hcount⟩ := hanswers
    refine .inl ⟨hends, ?_⟩
    rw [answer, Except.map, hcount]
    rfl
  | error i =>
    rw [hout] at hanswers
    exact .inr ⟨i, rfl, hanswers⟩

/-- **Without a cycle, the result is the number of derivations**, whatever was counted before. -/
theorem countDerivations_of_acyclic (c : Counter) (calls : List Call) (root : Nat)
    (hacyclic : ∀ i, c.forest.Reaches root i → ¬ c.forest.OnCycle i) :
    Finite (c.forest.Derivation root) ∧
      ((c.after calls).countDerivations root true).result =
        .ok (Nat.card (c.forest.Derivation root)) := by
  rw [result_countDerivations, forest_after]
  rcases ends_or_exists_cycle c.forest root with ⟨hends, hresult⟩ | ⟨i, -, hi, hcycle⟩
  · exact ⟨hends.finite, hresult⟩
  · exact absurd hcycle (hacyclic i hi)

/-- A forest with a node that is shared by the parts of the node above it, and an inner node apart
that is a part of itself. -/
def sharedPart : Forest where
  nodes := #[⟨1, 0, 1, true, #[]⟩, ⟨2, 0, 1, false, #[0, 1]⟩, ⟨0, 0, 1, false, #[2]⟩,
    ⟨3, 0, 1, false, #[3]⟩]
  packs := #[⟨none, 0, false⟩, ⟨none, 0, false⟩, ⟨some 1, 1, false⟩, ⟨none, 3, false⟩]
  accepted := some 2

theorem ends_sharedPart : ∀ i < 3, sharedPart.Ends i :=
  ends_of_parts_lt (by decide)

theorem card_derivation_sharedPart : Nat.card (sharedPart.Derivation 2) = 4 := by
  have hleaf : Nat.card (sharedPart.Derivation 0) = 1 := card_derivation_leaf rfl
  have hpart : Nat.card (sharedPart.Derivation 1) = 2 := by
    rw [card_derivation_inner (by decide) (ends_sharedPart 1 (by decide)),
      show sharedPart.activePacks 1 = [⟨none, 0, false⟩, ⟨none, 0, false⟩] by rfl]
    simp [packCard, Pack.parts, hleaf]
  rw [card_derivation_inner (by decide) (ends_sharedPart 2 (by decide)),
    show sharedPart.activePacks 2 = [⟨some 1, 1, false⟩] by rfl]
  simp [packCard, Pack.parts, hpart]

/-- Some counts fail, and others succeed before the root is counted. -/
theorem countDerivations_sharedPart :
    ((after { forest := sharedPart }
      [.countDerivations 3 true, .countDerivations 1 false, .countDerivations 1 true,
        .count]).countDerivations 2 true).result = .ok 4 := by
  rw [← card_derivation_sharedPart]
  exact (countDerivations_of_acyclic { forest := sharedPart } _ 2
    fun i => (ends_sharedPart 2 (by decide)).not_onCycle).2

/-- **A count ends**, after so many rounds at most as there are nodes and packs to be seen. It fails
if and only if a cycle can be reached, and then the node that it names lies on one. -/
theorem countDerivations_halts (c : Counter) (root : Nat) :
    (∃ n ≤ ((List.range c.forest.nodes.size).map fun i => 2 + 3 * (c.forest.packsOf i).length).sum,
      ∃ out, c.forest.Halts (c.forest.start root) n out ∧
        (c.countDerivations root true).result = answer root out) ∧
    ((∃ i, (c.countDerivations root true).result = .error (.cyclicForest i)) ↔
      ∃ i, c.forest.Reaches root i ∧ c.forest.OnCycle i) ∧
    ∀ i, (c.countDerivations root true).result = .error (.cyclicForest i) →
      c.forest.Reaches root i ∧ c.forest.OnCycle i := by
  rw [result_countDerivations]
  obtain ⟨n, hn, hhalts⟩ := c.forest.halts_finish (c.forest.start root)
  refine ⟨⟨n, hn.trans (c.forest.potential_start_le root), _, hhalts, rfl⟩, ?_, ?_⟩
  · rcases ends_or_exists_cycle c.forest root with ⟨hends, hresult⟩ | ⟨i, hresult, hi⟩
    · rw [hresult]
      refine ⟨fun ⟨_, h⟩ => by simp at h, fun ⟨i, hi, hcycle⟩ => ?_⟩
      exact absurd hcycle (hends.not_onCycle hi)
    · exact ⟨fun _ => ⟨i, hi⟩, fun _ => ⟨i, hresult⟩⟩
  · intro i h
    rcases ends_or_exists_cycle c.forest root with ⟨-, hresult⟩ | ⟨j, hresult, hj⟩
    · simp [hresult] at h
    · obtain rfl : j = i := by simpa [hresult] using h
      exact hj

end Counter

end ParseTree
