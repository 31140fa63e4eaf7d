import ParseTree.Kind

/-!
# Shared packed parse forests

A forest holds all derivations of an input in one graph. A node is a *leaf*, which stands for one
derivation, or an *inner* node with a list of packs. Each pack is one way to split the node into a
right part and, except at the start, a left part. Nodes are shared: several packs may lead to one
node, and links may even form a cycle. Disambiguation *suppresses* packs, after which they count for
nothing.

Labels are numbers, which a symbol table resolves to names and kinds.
-/

namespace ParseTree

/-- One way to split a forest node. -/
structure Pack where
  left : Option Nat
  right : Nat
  suppressed : Bool := false
  deriving DecidableEq, Repr

/-- The parts of a split, the left one first. -/
def Pack.parts (p : Pack) : List Nat :=
  p.left.toList ++ [p.right]

/-- A node of a forest. -/
structure ForestNode where
  label : Nat
  left : Nat
  right : Nat
  leaf : Bool
  /-- The packs of the node by number, in order. -/
  packs : Array Nat := #[]
  deriving DecidableEq, Repr

/-- A shared packed parse forest. Without an accepted root there was no valid parse. -/
structure Forest where
  nodes : Array ForestNode := #[]
  packs : Array Pack := #[]
  accepted : Option Nat := none
  deriving DecidableEq, Repr

namespace Forest

/-- What is read at a number that names no node: a leaf. -/
def blankNode : ForestNode :=
  { label := 0, left := 0, right := 0, leaf := true }

/-- The forest node with number `i`. -/
def node (f : Forest) (i : Nat) : ForestNode :=
  f.nodes.getD i blankNode

/-- The pack with number `p`. -/
def pack (f : Forest) (p : Nat) : Pack :=
  f.packs.getD p { left := none, right := 0 }

/-- The number of alternatives of a node: none for a leaf, and at least one for an inner node, even
if it lists no pack. -/
def arity (f : Forest) (i : Nat) : Nat :=
  let n := f.node i
  if n.leaf then 0 else max 1 n.packs.size

/-- The packs of a node, suppressed ones included. -/
def packsOf (f : Forest) (i : Nat) : List Pack :=
  (f.node i).packs.toList.map f.pack

/-- The packs of a node that are not suppressed. -/
def activePacks (f : Forest) (i : Nat) : List Pack :=
  (f.packsOf i).filter fun p => !p.suppressed

/-! ## Building a forest -/

/-- Append a node without packs. -/
def addNode (f : Forest) (label left right : Nat) (leaf : Bool) : Forest :=
  { f with nodes := f.nodes.push { label, left, right, leaf } }

/-- Append a pack to the list of node `i` and give its number. -/
def addPack (f : Forest) (i : Nat) (p : Pack) : Nat × Forest :=
  (f.packs.size,
    { f with
      nodes := f.nodes.modify i fun n => { n with packs := n.packs.push f.packs.size }
      packs := f.packs.push p })

/-- Suppress pack `p`. -/
def suppress (f : Forest) (p : Nat) : Forest :=
  { f with packs := f.packs.modify p fun p => { p with suppressed := true } }

/-- Take `root` as the node that spans the input. -/
def accept (f : Forest) (root : Nat) : Forest :=
  { f with accepted := some root }

/-- A forest of `levels` inner nodes above a leaf. Each inner node has one pack for every pair of
offsets; an offset leads that many nodes down, or to the leaf if there are fewer, and a missing left
offset means that there is no left part. The topmost node is accepted. -/
def ladder (levels : Nat) (offsets : List (Option Nat × Nat)) : Forest :=
  let rungs := List.range' 1 levels
  let f := rungs.foldl (fun f _ => f.addNode 0 0 1 false) (addNode {} 0 0 1 true)
  let f := rungs.foldl
    (fun f i => offsets.foldl
      (fun f o => (f.addPack i { left := o.1.map (i - ·), right := i - o.2 }).2) f) f
  f.accept levels

end Forest

/-- Names and kinds of grammar symbols, by label number. -/
structure SymbolTable where
  symbols : Array (String × Kind) := #[]
  deriving DecidableEq, Repr

namespace SymbolTable

/-- The name of a label. -/
def name (t : SymbolTable) (label : Nat) : String :=
  (t.symbols.getD label ("", .nonTerminal)).1

/-- The kind of a label. -/
def kind (t : SymbolTable) (label : Nat) : Kind :=
  (t.symbols.getD label ("", .nonTerminal)).2

end SymbolTable

end ParseTree
