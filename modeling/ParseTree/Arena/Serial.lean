import ParseTree.Arena.Extent
import ParseTree.Arena.Siblings
import ParseTree.Json

/-!
# Subtrees as data

A subtree is written as an object with the label, the kind, the covered range and the children of
its root. Nothing else of the arena shows: no slot, identity or tear store.
-/

namespace ParseTree

namespace Arena

/-- At most `n` levels of the subtree at `i` as data. -/
def serializeWithin (a : Arena) : Nat → NodeId → Json
  | 0, _ => .null
  | n + 1, i =>
    let (left, right) := a.textRange i
    .obj
      [("children", .arr ((a.children i).map (a.serializeWithin n))),
        ("kind", .str (a.node i).kind.name),
        ("label", .str (a.node i).label),
        ("range", .arr [.int left, .int right])]

/-- The subtree at `i` as data. -/
def serialize (a : Arena) (i : NodeId) : Json :=
  a.serializeWithin a.size i

end Arena

end ParseTree
