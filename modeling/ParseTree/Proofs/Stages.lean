import ParseTree.Builder
import ParseTree.Proofs.CloneSize
import ParseTree.Proofs.FirstDerivation
import ParseTree.Proofs.WalkOrder

/-!
# Stages of a builder

A builder may be asked for its stages in any order and any number of times, with a new input or a
new rule table in between. Each stage leaves a linked arena, provided that the reduction does: the
copy of the derivation tree is a clone, and a walk with a rule table keeps an arena linked. So the
check behind the transformation never finds anything, whatever the rules are.

## Main results

* `Builder.IsReady.toAst`: transforming a linked arena does not fail.
* `Builder.IsSound.call`: every call keeps a builder sound.
* `transformation_keeps_structure`: walks end, and no transformation leaves the tree inconsistent.
-/

namespace ParseTree

open Arena

/-- The reduction leaves a linked arena, whether it builds a tree or fails on the way. -/
def Reduction.KeepsLinked {ε : Type} (ρ : Reduction ε) : Prop :=
  ∀ (forest : Forest) (input : String) {a : Arena}, a.Linked → (ρ.reduce forest input a).2.Linked

theorem firstDerivation_keepsLinked (symbols : SymbolTable) :
    (firstDerivation symbols).KeepsLinked :=
  fun forest _ _ ha => forest.materialize_linked symbols _ ha

namespace Builder

variable {ε : Type} {b : Builder Unit ε}

/-- What a builder may be asked for. -/
inductive Call where
  | setInput (input : String)
  | setTable (table : RuleTable)
  | filter
  | toAst
  | generateAst (input : String)

/-- The builder after a call. -/
def call (b : Builder Unit ε) : Call → Builder Unit ε
  | .setInput input => b.setInput input
  | .setTable table => b.setScheme (Scheme.ofTable table) ()
  | .filter => b.filter.builder
  | .toAst => b.toAst.builder
  | .generateAst input => (b.generateAst input).builder

/-- The builder after a list of calls. -/
def calls (b : Builder Unit ε) (cs : List Call) : Builder Unit ε :=
  cs.foldl call b

/-- What transforming gives once the walk has come to its end. -/
def walked {σ : Type} (b : Builder σ ε) (root : NodeId) (w : Walk σ) : StageOutcome σ ε :=
  let b := { b with arena := w.arena, state := w.state }
  let log := w.log.toList
  let checked := if b.config.verifyStructure then b.arena.checkStructure root else .ok ()
  match checked with
  | .error e => ⟨.error (.structure e), b, log⟩
  | .ok () => ⟨.ok root, b, log ++ [constructed b.config b.arena root "AST"]⟩

theorem toAst_of_astRoot {σ : Type} {b : Builder σ ε} {root : NodeId}
    (hroot : b.astRoot = some root) :
    b.toAst = b.walked root (walk b.scheme b.input b.arena root b.state) := by
  obtain ⟨forest, reduction, scheme, state, config, arena, input, derivationRoot, astRoot⟩ := b
  obtain rfl : astRoot = some root := hroot
  rfl

/-- A walk that ends in a linked arena passes the check. -/
theorem walked_result {σ : Type} {b : Builder σ ε} (root : NodeId) {w : Walk σ}
    (hw : w.arena.Linked) : (b.walked root w).result = .ok root := by
  simp only [Builder.walked, hw.checkStructure_eq_ok root, ite_self]

/-- A builder that transforms a linked arena with a rule table. -/
structure IsReady (b : Builder Unit ε) : Prop where
  linked : b.arena.Linked
  scheme : ∃ table, b.scheme = Scheme.ofTable table

namespace IsReady

/-- A walk that ends in a linked arena passes the check. -/
theorem walked (h : b.IsReady) (root : NodeId) {w : Walk Unit} (hw : w.arena.Linked) :
    (b.walked root w).builder.IsReady ∧ ∀ e, (b.walked root w).result ≠ .error (.structure e) := by
  simp only [Builder.walked, hw.checkStructure_eq_ok root, ite_self]
  exact ⟨⟨hw, h.scheme⟩, by simp⟩

/-- The walk of a table leaves a linked arena. -/
theorem linked_walk (h : b.IsReady) (root : NodeId) :
    (walk b.scheme b.input b.arena root b.state).arena.Linked := by
  obtain ⟨table, hscheme⟩ := h.scheme
  rw [hscheme]
  exact (table.walk_ends b.input h.linked root).2

/-- Transforming does not find the tree inconsistent. -/
theorem toAst (h : b.IsReady) :
    b.toAst.builder.IsReady ∧ ∀ e, b.toAst.result ≠ .error (.structure e) := by
  cases hroot : b.astRoot with
  | none =>
    rw [(toAst_of_astRoot_none hroot).1, (toAst_of_astRoot_none hroot).2]
    exact ⟨h, by simp⟩
  | some root =>
    rw [toAst_of_astRoot hroot]
    exact h.walked root (h.linked_walk root)

/-- If there is a syntax tree, transforming gives its root. -/
theorem toAst_result (h : b.IsReady) {root : NodeId} (hroot : b.astRoot = some root) :
    b.toAst.result = .ok root := by
  rw [toAst_of_astRoot hroot]
  exact walked_result root (h.linked_walk root)

end IsReady

theorem walked_builder {σ : Type} (b : Builder σ ε) (root : NodeId) (w : Walk σ) :
    (b.walked root w).builder = { b with arena := w.arena, state := w.state } := by
  unfold Builder.walked
  dsimp only
  split <;> rfl

/-- Transforming replaces the arena and the state by those that the walk leaves. -/
theorem toAst_builder {σ : Type} {b : Builder σ ε} {root : NodeId}
    (hroot : b.astRoot = some root) :
    ∃ w, w = walk b.scheme b.input b.arena root b.state ∧
      b.toAst.builder = { b with arena := w.arena, state := w.state } :=
  ⟨_, rfl, by rw [toAst_of_astRoot hroot, walked_builder]⟩

/-- Transforming does not exchange the reduction. -/
theorem toAst_reduction {σ : Type} (b : Builder σ ε) :
    b.toAst.builder.reduction = b.reduction := by
  cases hroot : b.astRoot with
  | none => rw [(toAst_of_astRoot_none hroot).2]
  | some root =>
    obtain ⟨w, -, hbuilder⟩ := toAst_builder hroot
    rw [hbuilder]

theorem filter_of_error {σ : Type} {b : Builder σ ε} (ha : b.forest.accepted ≠ none) {e : ε}
    {a : Arena} (h : b.reduction.reduce b.forest b.input b.arena = (.error e, a)) :
    b.filter.result = .error (.reduction e) ∧ b.filter.builder = { b with arena := a } := by
  simp [Builder.filter, ha, h]

theorem filter_of_ok {σ : Type} {b : Builder σ ε} (ha : b.forest.accepted ≠ none) {root : NodeId}
    {a : Arena} (h : b.reduction.reduce b.forest b.input b.arena = (.ok root, a)) :
    b.filter.result = .ok root ∧ b.filter.builder = { b with
      arena := (a.cloneSubtree root).2, derivationRoot := some root, astRoot := some a.size } := by
  simp [Builder.filter, ha, h]

/-- If reducing fails, that is all that happens. -/
theorem generateAst_of_error {σ : Type} {b : Builder σ ε} {input : String} {e : BuildError ε}
    (h : (b.setInput input).filter.result = .error e) :
    (b.generateAst input).result = .error e ∧
      (b.generateAst input).builder = (b.setInput input).filter.builder := by
  unfold Builder.generateAst
  match ho : (b.setInput input).filter with
  | ⟨.error e', b', log⟩ =>
    rw [ho] at h
    exact ⟨h, rfl⟩
  | ⟨.ok root, b', log⟩ =>
    rw [ho] at h
    cases h

/-- If reducing succeeds, its result is transformed. -/
theorem generateAst_of_ok {σ : Type} {b : Builder σ ε} {input : String} {root : NodeId}
    (h : (b.setInput input).filter.result = .ok root) :
    (b.generateAst input).result = (b.setInput input).filter.builder.toAst.result ∧
      (b.generateAst input).builder = (b.setInput input).filter.builder.toAst.builder := by
  unfold Builder.generateAst
  match ho : (b.setInput input).filter with
  | ⟨.error e', b', log⟩ =>
    rw [ho] at h
    cases h
  | ⟨.ok root, b', log⟩ => exact ⟨rfl, rfl⟩

/-- A builder that is ready, and stays so when a forest is reduced. -/
structure IsSound (b : Builder Unit ε) : Prop extends b.IsReady where
  reduction : b.reduction.KeepsLinked

namespace IsSound

/-- What is made from a forest, a rule table and a reduction that keeps arenas linked. -/
theorem of_empty {forest : Forest} {ρ : Reduction ε} {config : BuilderConfig}
    (hρ : ρ.KeepsLinked) (table : RuleTable) :
    (⟨forest, ρ, Scheme.ofTable table, (), config, {}, "", none, none⟩ : Builder Unit ε).IsSound :=
  ⟨⟨linked_empty, table, rfl⟩, hρ⟩

theorem filter (h : b.IsSound) : b.filter.builder.IsSound := by
  have hreduce := h.reduction b.forest b.input h.linked
  unfold Builder.filter
  split
  · exact h
  · split
    · next e a heq =>
      rw [heq] at hreduce
      exact ⟨⟨hreduce, h.scheme⟩, h.reduction⟩
    · next root a heq =>
      rw [heq] at hreduce
      exact ⟨⟨(hreduce.cloneSubtree root).linked, h.scheme⟩, h.reduction⟩

theorem toAst (h : b.IsSound) : b.toAst.builder.IsSound :=
  ⟨h.toIsReady.toAst.1, by rw [toAst_reduction]; exact h.reduction⟩

theorem generateAst (h : b.IsSound) (input : String) :
    (b.generateAst input).builder.IsSound ∧
      ∀ e, (b.generateAst input).result ≠ .error (.structure e) := by
  have hfilter : (b.setInput input).filter.builder.IsSound :=
    filter ⟨⟨h.linked, h.scheme⟩, h.reduction⟩
  have hno : ∀ e, (b.setInput input).filter.result ≠ .error (.structure e) := by
    intro e
    unfold Builder.filter
    split
    · simp
    · split <;> simp
  cases hresult : (b.setInput input).filter.result with
  | error e =>
    obtain ⟨hr, hb⟩ := generateAst_of_error hresult
    rw [hr, hb, ← hresult]
    exact ⟨hfilter, hno⟩
  | ok root =>
    obtain ⟨hr, hb⟩ := generateAst_of_ok hresult
    rw [hr, hb]
    exact ⟨hfilter.toAst, hfilter.toIsReady.toAst.2⟩

/-- **Every call** keeps a builder sound. -/
theorem call (h : b.IsSound) (c : Call) : (b.call c).IsSound := by
  cases c with
  | setInput input => exact ⟨⟨h.linked, h.scheme⟩, h.reduction⟩
  | setTable table => exact ⟨⟨h.linked, table, rfl⟩, h.reduction⟩
  | filter => exact h.filter
  | toAst => exact h.toAst
  | generateAst input => exact (h.generateAst input).1

theorem calls (h : b.IsSound) (cs : List Call) : (b.calls cs).IsSound := by
  induction cs generalizing b with
  | nil => exact h
  | cons c cs ih => exact ih (h.call c)

end IsSound

end Builder

/-- **Transformations keep the structure.** From any linked arena and any node of it, a walk with a
rule table ends and leaves the whole arena linked, and so do the copies that its edits make. So a
builder with a rule table that has a linked arena, however it came by it, does not find the tree
inconsistent when it transforms it. Nor does it after any calls, if its reduction keeps arenas
linked. -/
theorem transformation_keeps_structure :
    (∀ (table : RuleTable) (input : String) {a : Arena}, a.Linked → ∀ root,
      (walk (Scheme.ofTable table) input a root ()).stack = [] ∧
        (walk (Scheme.ofTable table) input a root ()).arena.Linked) ∧
    (∀ {a : Arena}, a.Linked → ∀ i < a.size,
      (∀ n ≥ a.countNodes i, copyPending n [(i, a.size)] (a.copy i).2 = (a.cloneSubtree i).2) ∧
        (a.cloneSubtree i).2.Linked) ∧
    (∀ {ε : Type} {b : Builder Unit ε}, b.IsReady → ∀ e, b.toAst.result ≠ .error (.structure e)) ∧
    ∀ {ε : Type} {b : Builder Unit ε}, b.IsSound → ∀ cs : List Builder.Call, ∀ e,
      (b.calls cs).toAst.result ≠ .error (.structure e) ∧
        ∀ input, ((b.calls cs).generateAst input).result ≠ .error (.structure e) := by
  refine ⟨fun table input _ ha root => table.walk_ends input ha root, fun ha i hi => ⟨?_, ?_⟩,
    fun hb e => hb.toAst.2 e, fun hb cs e => ⟨?_, fun input => ?_⟩⟩
  · exact fun n hn => ha.copyPending_eq_cloneSubtree hi hn
  · exact (ha.cloneSubtree i).linked
  · exact (hb.calls cs).toIsReady.toAst.2 e
  · exact ((hb.calls cs).generateAst input).2 e

/-- A builder that reduces a forest to a root with two leaves and checks what it transforms. -/
def pairBuilder : Builder Unit DerivationError :=
  ⟨Forest.ladder 1 [(some 1, 1)], firstDerivation {}, Scheme.ofTable RuleTable.gatherTable, (),
    { verifyStructure := true }, {}, "", none, none⟩

/-- A walk that gathers what is ahead of it, and a builder that runs such walks. -/
theorem structure_of_gatherTable :
    (walk (Scheme.ofTable RuleTable.gatherTable) "abc" RuleTable.threeLeaves 0 ()).arena.Linked ∧
      copyPending 100 [(0, 4)] (RuleTable.threeLeaves.copy 0).2 =
        (RuleTable.threeLeaves.cloneSubtree 0).2 ∧
      pairBuilder.filter.builder.toAst.result ≠ .error (.structure (.siblingCycle 0)) ∧
      (pairBuilder.calls [.filter, .toAst]).toAst.result ≠
        .error (.structure (.siblingCycle 0)) := by
  obtain ⟨hwalk, hclone, hready, hcalls⟩ := transformation_keeps_structure
  have hlinked := RuleTable.linked_threeLeaves
  have hsound : pairBuilder.IsSound := .of_empty (firstDerivation_keepsLinked {}) _
  exact ⟨(hwalk RuleTable.gatherTable "abc" hlinked 0).2,
    (hclone hlinked 0 (by decide)).1 100 (by decide), hready hsound.filter.toIsReady _,
    (hcalls hsound [.filter, .toAst] _).1⟩

end ParseTree
