import ParseTree.Arena.Copying
import ParseTree.Arena.Extent
import ParseTree.Edit.Outcome

/-!
# Folding, gathering and tearing

The operators that turn a derivation tree into a syntax tree.

* *Folding* removes a level: the children of a node take its place. Folding over passes the label of
  the node on to its parent, folding under drops it.
* *Gathering* adds a level: a node is relabelled and its former self becomes its child, on its own
  or together with right siblings.
* *Tearing* takes a subtree out, and a keyed tear keeps a copy that *inserting* can put back.

Every operator checks its arguments before it writes, so a failure leaves the arena as it was.

## Main results

* `deleteChild_eq_ok_iff`: a child can be deleted exactly if it is in the list of its parent.
-/

namespace ParseTree

namespace Arena

/-- Go on with the parent of `i`, or report that there is none. -/
def withParent (a : Arena) (edit : ParentEdit) (i : NodeId)
    (next : Arena → NodeId → Outcome Unit) : Outcome Unit :=
  match (a.node i).parent with
  | some parent => next a parent
  | none =>
    .fail a (.rootNode edit (a.node i).identity) "cannot apply operator to the root" []

/-- Go on with the sibling before `child` in the list of `parent`, or report that `child` is not in
that list. -/
def withPredecessor (a : Arena) (parent child : NodeId)
    (next : Arena → Option NodeId → Outcome Unit) : Outcome Unit :=
  match a.predecessor? parent child with
  | some prev => next a prev
  | none =>
    .fail a (.childNotFound (a.node parent).identity (a.node child).identity) "node not found" []

/-- Remove `child` from the children of `parent`; its own children take its place. -/
def deleteChild (a : Arena) (parent child : NodeId) : Outcome Unit :=
  a.withPredecessor parent child fun a prev => .ok (a.promote parent prev child) ()

/-! ## Folding -/

/-- Give the parent of `i` the label of `i` and let the children of `i` take its place. -/
def foldOver (a : Arena) (i : NodeId) : Outcome Unit :=
  a.withParent .foldOver i fun a parent =>
    let label := (a.node i).label
    (a.deleteChild parent i).bind fun a _ => .ok (a.setLabel parent label) ()

/-- Let the children of `i` take its place. -/
def foldUnder (a : Arena) (i : NodeId) : Outcome Unit :=
  a.withParent .foldUnder i fun a parent => a.deleteChild parent i

/-! ## Gathering -/

/-- Put a new level below `i`: a copy of `i` takes over the label, kind, extents and children and
becomes the only child of `i`, whose label is now `label`. Gives the copy. -/
def gather (a : Arena) (i : NodeId) (label : String) : NodeId × Arena :=
  let (c, a) := a.copy i
  let a := a.setChild c (a.node i).firstChild
  let a := (a.setLabel i label).setKind i .nonTerminal
  (c, a.setChild i (some c))

/-- Follow next-sibling links along `siblings`, starting at `next`, and give what comes after them;
`none` if the links lead elsewhere. -/
def follow? (a : Arena) : Option NodeId → List NodeId → Option (Option NodeId)
  | next, [] => some next
  | next, s :: rest => if next = some s then a.follow? (a.node s).nextSibling rest else none

/-- Move `siblings`, which follow `i` and are followed by `after`, below `i` behind the copy `c`
that gathering `i` made. The right extent of `i` grows to that of the last of them. -/
def gatherRest (a : Arena) (i c : NodeId) (siblings : List NodeId) (after : Option NodeId) :
    Arena :=
  match siblings.head?, siblings.getLast? with
  | some first, some last =>
    let a := a.update last fun n => { n with nextSibling := none }
    let a := a.update c fun n => { n with nextSibling := some first }
    let a := a.adopt (some i) (a.chain a.size (some c))
    let right := (a.node last).right
    let a := a.update i fun n => { n with lastChild := some last, nextSibling := after, right }
    match after, (a.node i).parent with
    | none, some parent => a.update parent fun n => { n with lastChild := some i }
    | _, _ => a
  | _, _ => a

/-- Gather `i` together with `siblings`, which must be the nodes directly following it, in order.
Gives the copy. -/
def gatherWithSiblings (a : Arena) (i : NodeId) (label : String) (siblings : List NodeId) :
    Outcome NodeId :=
  match a.follow? (a.node i).nextSibling siblings with
  | none =>
    .fail a (.siblingMismatch (a.node i).identity) "cannot gather" [("node", a.describe i)]
  | some after =>
    let (c, a) := a.gather i label
    .ok (a.gatherRest i c siblings after) c

/-! ## Tearing and inserting -/

/-- Detach the subtree at `i`, which becomes a tree of its own. -/
def tear (a : Arena) (i : NodeId) : Outcome Unit :=
  a.withParent .tear i fun a parent =>
    a.withPredecessor parent i fun a prev => .ok (a.splice parent prev i none) ()

/-- Store a copy of the subtree at `i` under `key` in the tear store of the parent, then detach the
subtree. -/
def tearInto (a : Arena) (i : NodeId) (key : String) : Outcome Unit :=
  a.withParent .tear i fun a parent =>
    a.withPredecessor parent i fun a prev =>
      let (c, a) := a.cloneSubtree i
      let a := a.updateStore (a.node parent).store fun s => s.insert key c
      .ok (a.splice parent prev i none) ()

/-- Link the root `subtree` into the child list of `i` behind `before`, or in front of the list. -/
def linkAfter (a : Arena) (i : NodeId) (before : Option NodeId) (subtree : NodeId) : Arena :=
  let after :=
    match before with
    | none => (a.node i).firstChild
    | some before => (a.node before).nextSibling
  let a :=
    match before with
    | none => a.update i fun n => { n with firstChild := some subtree }
    | some before => a.update before fun n => { n with nextSibling := some subtree }
  let a := a.update subtree fun n => { n with parent := some i, nextSibling := after }
  match after with
  | none => a.update i fun n => { n with lastChild := some subtree }
  | some _ => a

/-- Insert a copy of the subtree stored under `key` as child number `position` of `i`. The stored
subtree stays where it is. Gives the root of the copy. -/
def insert (a : Arena) (i : NodeId) (position : Nat) (key : String) : Outcome NodeId :=
  match a.torn? i key with
  | none => .fail a (.unknownTearId (a.node i).identity key) "cannot insert" []
  | some stored =>
    let count := (a.children i).length
    if position > count then
      .fail a (.positionOutOfRange (a.node i).identity position count) "cannot insert" []
    else
      let (c, a) := a.cloneSubtree stored
      let before :=
        match position with
        | 0 => none
        | n + 1 => (a.children i)[n]?
      .ok (a.linkAfter i before c) c

/-! ## When a child can be deleted -/

/-- **A child can be deleted** exactly if it is in the list of its parent. -/
theorem deleteChild_eq_ok_iff (a : Arena) (parent child : NodeId) :
    (∃ x, (a.deleteChild parent child).result = .ok x) ↔ child ∈ a.children parent := by
  rw [← isSome_predecessor?]
  simp only [deleteChild, withPredecessor]
  cases a.predecessor? parent child <;> simp [Outcome.fail, Outcome.ok]

end Arena

end ParseTree
