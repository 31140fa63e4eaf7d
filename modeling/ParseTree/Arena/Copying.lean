import ParseTree.Arena.Links

/-!
# Size and copies of a subtree

Both work through a stack that begins with the root of the subtree. A round takes the topmost node
off and goes through its children in order, and those with children of their own go onto the stack.

`countNodes` counts the children in every round. It begins at one, for the root, and a leaf is never
put onto the stack. `cloneSubtree` copies the children: the copies are new nodes at the end of the
arena, each sharing the tear store of the node it was made from, and the copy of the root has no
parent. The stack tells the order in which slots are handed out.

Each node with children is taken off the stack once, so the number of nodes bounds the copying.

## Main results

* `countRound_cons`: what a round of counting does, on the list of children.
-/

namespace ParseTree

namespace Arena

/-! ## Size -/

/-- Count a child, and put it onto the stack if it has children. -/
def countChild (a : Arena) (s : List NodeId × Nat) (child : NodeId) : List NodeId × Nat :=
  (if (a.node child).firstChild.isSome then child :: s.1 else s.1, s.2 + 1)

/-- One round of counting: the topmost node is taken off the stack and its children are counted. An
empty stack stays as it is. -/
def countRound (a : Arena) : List NodeId × Nat → List NodeId × Nat
  | ([], count) => ([], count)
  | (i :: stack, count) =>
    a.foldChain a.countChild a.size (a.node i).firstChild (stack, count)

/-- What has been counted after at most `n` rounds. -/
def countPending (a : Arena) : Nat → List NodeId × Nat → Nat
  | 0, s => s.2
  | n + 1, s => if s.1.isEmpty then s.2 else a.countPending n (a.countRound s)

/-- The number of nodes in the subtree at `i`, with `i` itself. Every node is taken off the stack at
most once; the surplus is for links that a caller has damaged. -/
def countNodes (a : Arena) (i : NodeId) : Nat :=
  a.countPending (surplus + a.size) ([i], 1)

theorem foldl_countChild (a : Arena) (l stack : List NodeId) (count : Nat) :
    l.foldl a.countChild (stack, count) =
      ((l.filter fun c => (a.node c).firstChild.isSome).reverse ++ stack, count + l.length) := by
  induction l generalizing stack count with
  | nil => rfl
  | cons c l ih =>
    rw [List.foldl_cons, countChild, ih, List.filter_cons, List.length_cons, Nat.add_assoc,
      Nat.add_comm 1]
    split <;> simp

/-- **A round** counts the children and puts those that are no leaves onto the stack. -/
theorem countRound_cons (a : Arena) (i : NodeId) (stack : List NodeId) (count : Nat) :
    a.countRound (i :: stack, count) =
      (((a.children i).filter fun c => (a.node c).firstChild.isSome).reverse ++ stack,
        count + (a.children i).length) := by
  rw [countRound, foldChain_eq_foldl]
  exact a.foldl_countChild (a.children i) stack count

/-! ## Copies -/

/-- Copy the nodes of a list below `parent`, in order. A copied node that has children is put onto
the stack together with its copy. -/
def copyChildren (parent : NodeId) :
    List NodeId → List (NodeId × NodeId) → Arena → List (NodeId × NodeId) × Arena
  | [], stack, a => (stack, a)
  | child :: rest, stack, a =>
    let (c, a) := a.copy child
    let a := a.addChild parent c
    let stack := if (a.node child).firstChild.isSome then (child, c) :: stack else stack
    copyChildren parent rest stack a

/-- Take at most `n` nodes off the stack and copy the children of each. -/
def copyPending : Nat → List (NodeId × NodeId) → Arena → Arena
  | 0, _, a => a
  | _ + 1, [], a => a
  | n + 1, (i, c) :: stack, a =>
    let (stack, a) := copyChildren c (a.children i) stack a
    copyPending n stack a

/-- Copy the subtree at `i`. The copy of `i` is a new root. -/
def cloneSubtree (a : Arena) (i : NodeId) : NodeId × Arena :=
  let n := a.countNodes i
  let (c, a) := a.copy i
  (c, copyPending n [(i, c)] a)

end Arena

end ParseTree
