import ParseTree.Arena.Links
import ParseTree.Forest.Basic

/-!
# Reducing a forest to one derivation

A reduction picks one derivation of a forest and builds its tree in an arena. `firstDerivation`
takes the first active pack of every node. A part whose symbol is an intermediate one has no node of
its own; what it derives is put into the list of the node above.
-/

namespace ParseTree

/-- Why the first derivation cannot be built. -/
inductive DerivationError where
  /-- The node has no active pack. -/
  | allSuppressed (node : Nat)
  /-- The chosen derivation of the node never ends. -/
  | endless (node : Nat)
  deriving DecidableEq, Repr

/-- The text of a derivation error. -/
def DerivationError.message : DerivationError → String
  | allSuppressed i => "every pack node of forest node " ++ toString i ++ " is suppressed"
  | endless i => "the first derivation of forest node " ++ toString i ++ " does not end"

/-- A way to pick a derivation: it builds a tree in an arena and gives its root. What was built
before a failure stays in the arena. -/
structure Reduction (ε : Type) where
  reduce : Forest → String → Arena → Except ε NodeId × Arena
  /-- The text of an error. -/
  message : ε → String

namespace Arena

/-- Make a node for the symbol with number `label`. -/
def makeSymbol (a : Arena) (symbols : SymbolTable) (label left right : Nat) : NodeId × Arena :=
  a.make (symbols.name label) (symbols.kind label) left right

end Arena

namespace Forest

/-- Build the parts that the first active pack of node `i` has below tree node `id`, looking at most
`n` nodes deep. -/
def expand (f : Forest) (symbols : SymbolTable) :
    Nat → Nat → NodeId → Arena → Except DerivationError Unit × Arena
  | 0, i, _, a => (.error (.endless i), a)
  | n + 1, i, id, a =>
    if f.arity i = 0 then (.ok (), a)
    else
      match (f.activePacks i).head? with
      | none => (.error (.allSuppressed i), a)
      | some p =>
        p.parts.foldl
          (fun (result, a) part =>
            match result with
            | .error e => (.error e, a)
            | .ok () =>
              let part' := f.node part
              if symbols.kind part'.label = .intermediate then f.expand symbols n part id a
              else
                let (child, a) := a.makeSymbol symbols part'.label part'.left part'.right
                match f.expand symbols n part child a with
                | (.error e, a) => (.error e, a)
                | (.ok (), a) => (.ok (), a.addChild id child))
          (.ok (), a)

/-- Build the tree of node `i` and give its root. A derivation that ends meets no node inside
itself, so it is no deeper than there are nodes. -/
def materialize (f : Forest) (symbols : SymbolTable) (i : Nat) (a : Arena) :
    Except DerivationError NodeId × Arena :=
  let n := f.node i
  let (id, a) := a.makeSymbol symbols n.label n.left n.right
  let (result, a) := f.expand symbols (f.nodes.size + 1) i id a
  (result.map fun _ => id, a)

end Forest

/-- The reduction to the first derivation. -/
def firstDerivation (symbols : SymbolTable) : Reduction DerivationError where
  reduce f _ a := f.materialize symbols (f.accepted.getD 0) a
  message := DerivationError.message

end ParseTree
