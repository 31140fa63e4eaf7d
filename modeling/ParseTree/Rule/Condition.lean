import ParseTree.Arena.Basic

/-!
# Conditions

A condition says where in a tree a rule applies. It looks at the labels of the parent and
grandparent of a node, or at whether the node has siblings.
-/

namespace ParseTree

/-- Where a rule applies. -/
inductive Condition where
  | always
  /-- The label of the parent is listed. -/
  | parentIs (labels : List String)
  /-- There is no parent, or its label is not listed. -/
  | parentIsNot (labels : List String)
  /-- There is no grandparent, or its label is not listed. -/
  | grandparentIsNot (labels : List String)
  /-- The node has a sibling on either side. -/
  | notOnlyChild
  deriving DecidableEq, Repr, Inhabited

namespace Condition

/-- Whether there is a node and its label is listed. -/
def labelIn (a : Arena) (i : Option NodeId) (labels : List String) : Bool :=
  match i with
  | some i => labels.contains (a.node i).label
  | none => false

/-- Whether a condition holds for node `i` where it now stands. -/
def holds (a : Arena) (i : NodeId) : Condition → Bool
  | always => true
  | parentIs labels => labelIn a (a.node i).parent labels
  | parentIsNot labels => !labelIn a (a.node i).parent labels
  | grandparentIsNot labels =>
    !labelIn a ((a.node i).parent.bind fun p => (a.node p).parent) labels
  | notOnlyChild =>
    (a.node i).nextSibling.isSome ||
      match (a.node i).parent with
      | some p => (a.node p).firstChild != some i
      | none => false

end Condition

end ParseTree
