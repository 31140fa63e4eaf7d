import ParseTree.Arena.Basic
import ParseTree.Text.Blank
import ParseTree.Text.Slice

/-!
# Extents and the text below them

A node covers the bytes of the input from its left extent to its right one. An inverted extent
covers nothing, at its left end.
-/

namespace ParseTree

namespace Arena

/-- First and last byte offset that a node covers. -/
def textRange (a : Arena) (i : NodeId) : Nat × Nat :=
  let n := a.node i
  (n.left, max n.left n.right)

/-- The input below a node without the white space around it. There is none if the extent leaves the
input or cuts a character. -/
def underlyingText? (a : Arena) (i : NodeId) (input : String) : Option String :=
  let (left, right) := a.textRange i
  (Text.sliceBytes left right input).map Text.trim

/-- A node in one line: identity, label and extents. -/
def describe (a : Arena) (i : NodeId) : String :=
  let n := a.node i
  toString n.identity ++ ":" ++ n.label ++ " " ++ toString n.left ++ "," ++ toString n.right

end Arena

end ParseTree
