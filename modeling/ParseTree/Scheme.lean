import ParseTree.Rule.Table

/-!
# Schemes

A scheme decides node by node which edits turn a derivation tree into a syntax tree. It may carry a
state from node to node. A rule table is a scheme without state; further schemes are built around
one: a recording scheme notes what it is shown, and a detaching scheme cuts the parent link of every
node with a certain label, which leaves the tree inconsistent on purpose.
-/

namespace ParseTree

/-- What is done at one node: the state and the arena afterwards, and the events. -/
structure Scheme (σ : Type) where
  transform : String → σ → Arena → NodeId → σ × Arena × List Event

/-- A node and the label under which it was visited. -/
abbrev VisitRecord := NodeId × String

namespace Scheme

variable {σ : Type}

/-- The scheme that applies the matching rule of a table. -/
def ofTable (t : RuleTable) : Scheme Unit where
  transform input _ a i :=
    let (a, log) := t.transform input a i
    ((), a, log)

/-- Note every node before it is transformed. -/
def recording (s : Scheme σ) : Scheme (Array VisitRecord × σ) where
  transform input st a i :=
    let (records, st) := st
    let records := records.push (i, (a.node i).label)
    let (st, a, log) := s.transform input st a i
    ((records, st), a, log)

/-- Cut the parent link of nodes labelled `label` and leave all others to `s`. -/
def detaching (label : Option String) (s : Scheme σ) : Scheme σ where
  transform input st a i :=
    if label = some (a.node i).label then (st, a.setParent i none, [])
    else s.transform input st a i

end Scheme

end ParseTree
