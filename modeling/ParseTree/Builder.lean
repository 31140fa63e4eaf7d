import ParseTree.Arena.Copying
import ParseTree.Arena.Rendering
import ParseTree.Arena.Structure
import ParseTree.Forest.Counting
import ParseTree.Forest.Derivation
import ParseTree.Walk

/-!
# From an accepted parse to a syntax tree

A builder reduces a forest to a derivation tree, copies that tree, and transforms the copy with a
scheme. Derivation tree and syntax tree live in one arena, and the derivation tree stays as the
reduction left it. Stages may be run again: reducing makes a new pair of trees, and transforming
goes on from the syntax tree as it is.
-/

namespace ParseTree

/-- Why a stage failed. -/
inductive BuildError (ε : Type) where
  | invalidParse
  /-- There is no derivation tree yet. -/
  | notFiltered
  | reduction (source : ε)
  | structure (source : StructureError)
  deriving DecidableEq, Repr

/-- The text of a build error. -/
def BuildError.message {ε : Type} : BuildError ε → String
  | invalidParse => "cannot reduce the forest without a valid parse"
  | notFiltered =>
    "cannot construct an AST before the forest has been reduced to a derivation tree"
  | reduction _ => "reduction to a derivation tree failed"
  | .structure _ => "transformation left the tree inconsistent"

/-- How a builder reports and whether it checks its work. -/
structure BuilderConfig where
  /-- Report progress at a higher level and with node counts. -/
  debugging : Bool := false
  /-- Check the links of the syntax tree after every transformation. -/
  verifyStructure : Bool := false
  deriving DecidableEq, Repr

/-- A forest on its way to a syntax tree. -/
structure Builder (σ ε : Type) where
  forest : Forest
  reduction : Reduction ε
  scheme : Scheme σ
  state : σ
  config : BuilderConfig := {}
  arena : Arena := {}
  input : String := ""
  derivationRoot : Option NodeId := none
  astRoot : Option NodeId := none

/-- What a stage gives: its result, the builder afterwards and the events. -/
structure StageOutcome (σ ε : Type) where
  result : Except (BuildError ε) NodeId
  builder : Builder σ ε
  log : List Event

namespace Builder

variable {σ ε : Type}

/-- The text that the forest was parsed from. -/
def setInput (b : Builder σ ε) (input : String) : Builder σ ε :=
  { b with input }

/-- Use another scheme from now on. -/
def setScheme (b : Builder σ ε) (scheme : Scheme σ) (state : σ) : Builder σ ε :=
  { b with scheme, state }

/-- The report that the tree at `root` was constructed. -/
def constructed (config : BuilderConfig) (a : Arena) (root : NodeId) (what : String) : Event :=
  let message := what ++ " constructed"
  if config.debugging then ⟨.info, message, [("nodes", toString (a.countNodes root))]⟩
  else ⟨.debug, message, []⟩

/-- Reduce the forest to a derivation tree and copy it. -/
def filter (b : Builder σ ε) : StageOutcome σ ε :=
  if b.forest.accepted.isNone then
    ⟨.error .invalidParse, b, [⟨.warn,
      "attempting to reduce the number of derivation trees without a valid parse", []⟩]⟩
  else
    match b.reduction.reduce b.forest b.input b.arena with
    | (.error e, arena) => ⟨.error (.reduction e), { b with arena }, []⟩
    | (.ok root, arena) =>
      let (copy, arena) := arena.cloneSubtree root
      let event := constructed b.config arena root "derivation tree"
      ⟨.ok root, { b with arena, derivationRoot := some root, astRoot := some copy }, [event]⟩

/-- Transform the copy of the derivation tree with the scheme. -/
def toAst (b : Builder σ ε) : StageOutcome σ ε :=
  match b.astRoot with
  | none =>
    ⟨.error .notFiltered, b, [⟨.warn,
      "attempting to create an AST without disambiguation", []⟩]⟩
  | some root =>
    let w := walk b.scheme b.input b.arena root b.state
    let b := { b with arena := w.arena, state := w.state }
    let log := w.log.toList
    let checked := if b.config.verifyStructure then b.arena.checkStructure root else .ok ()
    match checked with
    | .error e => ⟨.error (.structure e), b, log⟩
    | .ok () => ⟨.ok root, b, log ++ [constructed b.config b.arena root "AST"]⟩

/-- Set the input, reduce the forest and transform the result. -/
def generateAst (b : Builder σ ε) (input : String) : StageOutcome σ ε :=
  match (b.setInput input).filter with
  | ⟨.error e, b, log⟩ => ⟨.error e, b, log⟩
  | ⟨.ok _, b, log⟩ =>
    let o := b.toAst
    { o with log := log ++ o.log }

/-- Count the derivations that are not suppressed. -/
def remainingDerivations (b : Builder σ ε) : CountOutcome :=
  b.forest.count

/-- The drawing of the tree at `root`, empty if there is none. -/
def drawing (b : Builder σ ε) (root : Option NodeId) : String :=
  match root with
  | some root => b.arena.treeString root
  | none => ""

/-- The number of nodes of the tree at `root`, zero if there is none. -/
def nodeCount (b : Builder σ ε) (root : Option NodeId) : Nat :=
  match root with
  | some root => b.arena.countNodes root
  | none => 0

/-- The derivation tree as a tree string. -/
def derivationString (b : Builder σ ε) : String :=
  b.drawing b.derivationRoot

/-- The syntax tree as a tree string. -/
def astString (b : Builder σ ε) : String :=
  b.drawing b.astRoot

/-! ## Stages that refuse -/

theorem filter_of_not_accepted {b : Builder σ ε} (h : b.forest.accepted = none) :
    b.filter.result = .error .invalidParse ∧ b.filter.builder = b := by
  simp [filter, h]

theorem toAst_of_astRoot_none {b : Builder σ ε} (h : b.astRoot = none) :
    b.toAst.result = .error .notFiltered ∧ b.toAst.builder = b := by
  simp [toAst, h]

end Builder

end ParseTree
