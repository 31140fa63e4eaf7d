import ParseTree.Arena.Siblings

/-!
# Checking the links of a subtree

A subtree is consistent if every node in it either has children, in which case its child list is a
finite chain that ends at the cached last child and whose members name it as their parent, or has
none and caches no last child, and if no node is reached twice. `checkStructure` searches a subtree
for the first violation. It works on any arena, cyclic links included: a node may be met once, so
each round of the search meets a new node or ends it.
-/

namespace ParseTree

/-- A violation of the link invariants at a node, which is named by its identity. -/
inductive StructureError where
  /-- The node has no child but caches a last one. -/
  | lastChildWithoutChild (node : Nat)
  /-- The cached last child is not where the child list ends. -/
  | staleLastChild (node : Nat)
  /-- A member of the child list names another parent, or none. -/
  | parentMismatch (node child : Nat)
  /-- A member of the child list was met before. -/
  | siblingCycle (node : Nat)
  deriving DecidableEq, Repr

/-- An identity as it appears in messages. -/
def identityText (identity : Nat) : String :=
  "#" ++ toString identity

/-- The text of a structure error. -/
def StructureError.message : StructureError → String
  | lastChildWithoutChild n => identityText n ++ " has no children but caches a last child"
  | staleLastChild n =>
    "cached last child of " ++ identityText n ++ " is not the tail of its child list"
  | parentMismatch n c =>
    identityText c ++ " is in the child list of " ++ identityText n ++
      " but names a different parent"
  | siblingCycle n => "child list of " ++ identityText n ++ " contains a cycle"

namespace Arena

/-- Go through the child list `list` of `i`. Each member must be new and must name `i` as its
parent; it is marked in `seen` and put onto the stack. -/
def checkList (a : Arena) (i : NodeId) :
    List NodeId → Array Bool → List NodeId → Except StructureError (Array Bool × List NodeId)
  | [], seen, stack => .ok (seen, stack)
  | child :: rest, seen, stack =>
    if seen.getD child false then
      .error (.siblingCycle (a.node i).identity)
    else if (a.node child).parent ≠ some i then
      .error (.parentMismatch (a.node i).identity (a.node child).identity)
    else
      a.checkList i rest (seen.setIfInBounds child true) (child :: stack)

/-- Take at most `n` nodes off the stack and check the links of each to its children. -/
def checkPending (a : Arena) : Nat → List NodeId → Array Bool → Except StructureError Unit
  | 0, _, _ => .ok ()
  | _ + 1, [], _ => .ok ()
  | n + 1, i :: stack, seen =>
    match (a.node i).firstChild with
    | none =>
      match (a.node i).lastChild with
      | some _ => .error (.lastChildWithoutChild (a.node i).identity)
      | none => a.checkPending n stack seen
    | some first =>
      let list := a.chain (a.size + 1) (some first)
      match a.checkList i list seen stack with
      | .error e => .error e
      | .ok (seen, stack) =>
        if (a.node i).lastChild = list.getLast? then a.checkPending n stack seen
        else .error (.staleLastChild (a.node i).identity)

/-- Look for a violation of the link invariants in the subtree at `i`. The chain of a child list is
followed one step further than there are slots, so that a cycle shows as a repeated member. -/
def checkStructure (a : Arena) (i : NodeId) : Except StructureError Unit :=
  a.checkPending (a.size + 1) [i] (Array.replicate a.size false)

end Arena

end ParseTree
