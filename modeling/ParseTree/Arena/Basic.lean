import ParseTree.Kind
import ParseTree.TearStore

/-!
# The node arena

All nodes of all trees live in one arena and are addressed by their slot. A node names its parent,
its first child, its next sibling and, as a cache, its last child; a tree is whatever is reachable
from a parentless node along first-child and next-sibling links. Slots are never reused, and
detaching a subtree only changes links.

Nodes come into being in two ways. A *made* node gets a tear store of its own; a *copied* node
shares the store of the node it was copied from. Either way the node gets the next identity, a
number that is never given twice.

## Main results

* `node_update`: an update changes the node at its slot and no other.
* `node_make`, `node_copy`: allocation adds one unlinked node at the end and changes no other.
-/

namespace ParseTree

/-- The slot of a node in its arena. -/
abbrev NodeId := Nat

/-- One node: what it stands for, and its links. -/
structure Node where
  label : String
  kind : Kind
  /-- Byte offset into the input at which the node starts. -/
  left : Nat
  /-- Byte offset into the input at which the node ends. -/
  right : Nat
  /-- Number of the node among all nodes ever allocated. -/
  identity : Nat
  /-- Index of the tear store that keyed tears of its children write to. -/
  store : Nat
  parent : Option NodeId := none
  firstChild : Option NodeId := none
  nextSibling : Option NodeId := none
  lastChild : Option NodeId := none
  deriving DecidableEq, Repr

/-- What is read at a slot that was never allocated: an unlinked node. -/
def Node.blank : Node :=
  { label := "", kind := .nonTerminal, left := 0, right := 0, identity := 0, store := 0 }

/-- An unlinked node with the label, kind, extents and tear store of `n`. -/
def Node.detached (n : Node) (identity : Nat) : Node :=
  { label := n.label, kind := n.kind, left := n.left, right := n.right, identity, store := n.store }

/-- Storage for nodes and for the tear stores that they share. -/
structure Arena where
  nodes : Array Node := #[]
  stores : Array TearStore := #[]
  /-- The identity that the next allocated node gets. -/
  nextIdentity : Nat := 0
  deriving DecidableEq, Repr

namespace Arena

/-- The number of slots, those of detached nodes included. -/
def size (a : Arena) : Nat :=
  a.nodes.size

/-- Whether no node was ever allocated. -/
def isEmpty (a : Arena) : Bool :=
  a.nodes.isEmpty

/-- The node at a slot. -/
def node (a : Arena) (i : NodeId) : Node :=
  a.nodes.getD i .blank

/-- The tear store that node `i` uses. -/
def storeOf (a : Arena) (i : NodeId) : TearStore :=
  a.stores.getD (a.node i).store {}

/-- Change the node at slot `i`. -/
def update (a : Arena) (i : NodeId) (f : Node → Node) : Arena :=
  { a with nodes := a.nodes.modify i f }

/-- Change the tear store with index `s`. -/
def updateStore (a : Arena) (s : Nat) (f : TearStore → TearStore) : Arena :=
  { a with stores := a.stores.modify s f }

/-! ## Allocation -/

/-- Append an unlinked node that has `label`, `kind`, the extents and a tear store of its own. -/
def make (a : Arena) (label : String) (kind : Kind) (left right : Nat) : NodeId × Arena :=
  (a.nodes.size,
    { nodes := a.nodes.push
        { label, kind, left, right, identity := a.nextIdentity, store := a.stores.size }
      stores := a.stores.push {}
      nextIdentity := a.nextIdentity + 1 })

/-- Append an unlinked copy of node `i`, which shares the tear store of `i`. -/
def copy (a : Arena) (i : NodeId) : NodeId × Arena :=
  let n := (a.node i).detached a.nextIdentity
  (a.nodes.size, { a with nodes := a.nodes.push n, nextIdentity := a.nextIdentity + 1 })

/-! ## Fields of one node -/

def setLabel (a : Arena) (i : NodeId) (label : String) : Arena :=
  a.update i fun n => { n with label }

def setKind (a : Arena) (i : NodeId) (kind : Kind) : Arena :=
  a.update i fun n => { n with kind }

def setLeft (a : Arena) (i : NodeId) (left : Nat) : Arena :=
  a.update i fun n => { n with left }

def setRight (a : Arena) (i : NodeId) (right : Nat) : Arena :=
  a.update i fun n => { n with right }

/-- Overwrite the parent link of `i`; no child list changes. -/
def setParent (a : Arena) (i : NodeId) (parent : Option NodeId) : Arena :=
  a.update i fun n => { n with parent }

/-- Whether two nodes store torn subtrees in the same place. -/
def sharesStore (a : Arena) (i j : NodeId) : Bool :=
  (a.node i).store == (a.node j).store

/-- The subtree that was last torn under `key` from a node sharing the store of `i`. -/
def torn? (a : Arena) (i : NodeId) (key : String) : Option NodeId :=
  (a.storeOf i).find? key

/-! ## What each operation does to the nodes -/

theorem node_of_size_le {a : Arena} {i : NodeId} (h : a.size ≤ i) : a.node i = .blank := by
  simp [node, Array.getD_eq_getD_getElem?, Array.getElem?_eq_none h]

theorem node_eq_getElem {a : Arena} {i : NodeId} (h : i < a.nodes.size) :
    a.node i = a.nodes[i] := by
  simp [node, h]

@[simp] theorem size_update (a : Arena) (i : NodeId) (f : Node → Node) :
    (a.update i f).size = a.size := by
  simp [update, size]

@[simp] theorem stores_update (a : Arena) (i : NodeId) (f : Node → Node) :
    (a.update i f).stores = a.stores := rfl

@[simp] theorem nextIdentity_update (a : Arena) (i : NodeId) (f : Node → Node) :
    (a.update i f).nextIdentity = a.nextIdentity := rfl

/-- **An update is local**: it changes the node at its slot and no other. -/
theorem node_update (a : Arena) (i j : NodeId) (f : Node → Node) :
    (a.update i f).node j = if i = j ∧ i < a.size then f (a.node j) else a.node j := by
  simp only [node, update, Array.getD_eq_getD_getElem?, Array.getElem?_modify, size]
  by_cases hij : i = j
  · subst hij
    by_cases hi : i < a.nodes.size
    · simp [hi]
    · simp [hi]
  · simp [hij]

theorem node_update_self {a : Arena} {i : NodeId} (f : Node → Node) (h : i < a.size) :
    (a.update i f).node i = f (a.node i) := by
  simp [node_update, h]

theorem node_update_of_ne {a : Arena} {i j : NodeId} (f : Node → Node) (h : i ≠ j) :
    (a.update i f).node j = a.node j := by
  simp [node_update, h]

@[simp] theorem make_fst (a : Arena) (label : String) (kind : Kind) (left right : Nat) :
    (a.make label kind left right).1 = a.size := rfl

@[simp] theorem size_make (a : Arena) (label : String) (kind : Kind) (left right : Nat) :
    (a.make label kind left right).2.size = a.size + 1 := by
  simp [make, size]

@[simp] theorem nextIdentity_make (a : Arena) (label : String) (kind : Kind) (left right : Nat) :
    (a.make label kind left right).2.nextIdentity = a.nextIdentity + 1 := rfl

/-- Making a node adds an unlinked node at the end, with a tear store that no other node has. -/
theorem node_make (a : Arena) (label : String) (kind : Kind) (left right : Nat) (j : NodeId) :
    (a.make label kind left right).2.node j =
      if j = a.size then
        { label, kind, left, right, identity := a.nextIdentity, store := a.stores.size }
      else a.node j := by
  simp only [node, make, Array.getD_eq_getD_getElem?, Array.getElem?_push, size]
  split <;> simp_all

@[simp] theorem copy_fst (a : Arena) (i : NodeId) : (a.copy i).1 = a.size := rfl

@[simp] theorem size_copy (a : Arena) (i : NodeId) : (a.copy i).2.size = a.size + 1 := by
  simp [copy, size]

@[simp] theorem stores_copy (a : Arena) (i : NodeId) : (a.copy i).2.stores = a.stores := rfl

@[simp] theorem nextIdentity_copy (a : Arena) (i : NodeId) :
    (a.copy i).2.nextIdentity = a.nextIdentity + 1 := rfl

/-- Copying a node adds an unlinked node at the end that shares its tear store. -/
theorem node_copy (a : Arena) (i j : NodeId) :
    (a.copy i).2.node j =
      if j = a.size then (a.node i).detached a.nextIdentity else a.node j := by
  simp only [node, copy, Array.getD_eq_getD_getElem?, Array.getElem?_push, size]
  split <;> simp_all

end Arena

end ParseTree
