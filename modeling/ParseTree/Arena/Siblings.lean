import ParseTree.Arena.Basic

/-!
# Sibling chains

Following next-sibling links from a node gives a chain. A child list is the chain that starts at a
first child. Links set one by one can close into a cycle, so every walk along links is given a bound
on its length. A chain that does not meet a node twice has at most as many nodes as the arena, and
`children` and `rightSiblings` use that number as their bound.

A loop that takes nodes off a stack may come to a node many times if links lead to it from several
sides, although none of them closes a cycle. The bounds of such loops have `surplus` on top of what
a well-formed arena needs.

## Main results

* `chain_zero`, `chain_none`, `chain_some`: the equations of `chain`.
* `foldChain_eq_foldl`: a fold along links, which builds no list, is a fold over the chain.
* `isSome_predecessor?`: the search for the sibling before a node finds the children.
-/

namespace ParseTree

namespace Arena

/-- The rounds that a loop over links may take beyond those for a well-formed arena: more than can
ever be made, so that the bound does not show on any links without a cycle. -/
def surplus : Nat :=
  0x4000000000000000

theorem two_le_surplus : 2 ≤ surplus := by decide

/-- Fold `f` over at most `n` nodes along next-sibling links, beginning with `start`. -/
def foldChain {β : Type} (a : Arena) (f : β → NodeId → β) : Nat → Option NodeId → β → β
  | 0, _, b => b
  | _ + 1, none, b => b
  | n + 1, some i, b => a.foldChain f n (a.node i).nextSibling (f b i)

/-- At most `n` nodes along next-sibling links, beginning with `start`. -/
def chain (a : Arena) (n : Nat) (start : Option NodeId) : List NodeId :=
  (a.foldChain (fun ids i => i :: ids) n start []).reverse

private theorem foldChain_cons_eq (a : Arena) (n : Nat) (start : Option NodeId)
    (acc : List NodeId) :
    a.foldChain (fun ids i => i :: ids) n start acc =
      a.foldChain (fun ids i => i :: ids) n start [] ++ acc := by
  induction n generalizing start acc with
  | zero => rfl
  | succ n ih =>
    cases start with
    | none => rfl
    | some i => rw [foldChain, foldChain, ih, ih _ [i]]; simp

@[simp] theorem chain_zero (a : Arena) (start : Option NodeId) : a.chain 0 start = [] := rfl

@[simp] theorem chain_none (a : Arena) (n : Nat) : a.chain n none = [] := by
  cases n <;> rfl

/-- A chain is its first node and then the chain of the next sibling. -/
@[simp] theorem chain_some (a : Arena) (n : Nat) (i : NodeId) :
    a.chain (n + 1) (some i) = i :: a.chain n (a.node i).nextSibling := by
  simp only [chain, foldChain]
  rw [foldChain_cons_eq]
  simp

/-- Folding along links is folding over the chain. -/
theorem foldChain_eq_foldl {β : Type} (a : Arena) (f : β → NodeId → β) (n : Nat)
    (start : Option NodeId) (b : β) :
    a.foldChain f n start b = (a.chain n start).foldl f b := by
  induction n generalizing start b with
  | zero => rfl
  | succ n ih =>
    cases start with
    | none => simp [foldChain]
    | some i => rw [foldChain, ih, chain_some, List.foldl_cons]

/-- The children of `i`, in order. -/
def children (a : Arena) (i : NodeId) : List NodeId :=
  a.chain a.size (a.node i).firstChild

/-- The nodes that follow `i` in its child list, in order. -/
def rightSiblings (a : Arena) (i : NodeId) : List NodeId :=
  a.chain a.size (a.node i).nextSibling

/-! ## Going up, and looking for a child -/

/-- The node reached from `i` by at most `n` parent links. -/
def climb (a : Arena) : Nat → NodeId → NodeId
  | 0, i => i
  | n + 1, i =>
    match (a.node i).parent with
    | none => i
    | some p => a.climb n p

/-- The root of the tree that `i` belongs to. -/
def root (a : Arena) (i : NodeId) : NodeId :=
  a.climb a.size i

/-- Look for `child` among at most `n` nodes of a chain, and give the node before it: `prev` if
`child` comes first, `none` if `child` is not in the chain. -/
def predecessorFrom (a : Arena) (child : NodeId) :
    Nat → Option NodeId → Option NodeId → Option (Option NodeId)
  | 0, _, _ => none
  | _ + 1, _, none => none
  | n + 1, prev, some i =>
    if i = child then some prev
    else a.predecessorFrom child n (some i) (a.node i).nextSibling

/-- The sibling before `child` among the children of `parent`, with `some none` for a first child
and `none` for a node that is no child. -/
def predecessor? (a : Arena) (parent child : NodeId) : Option (Option NodeId) :=
  a.predecessorFrom child a.size none (a.node parent).firstChild

/-- The search succeeds exactly on the members of the chain. -/
theorem isSome_predecessorFrom (a : Arena) (child : NodeId) (n : Nat) (prev start : Option NodeId) :
    (a.predecessorFrom child n prev start).isSome ↔ child ∈ a.chain n start := by
  induction n generalizing prev start with
  | zero => simp [predecessorFrom]
  | succ n ih =>
    cases start with
    | none => simp [predecessorFrom]
    | some i =>
      rw [predecessorFrom, chain_some]
      by_cases h : i = child
      · simp [h]
      · simp [h, ih, Ne.symm h]

/-- A predecessor is found exactly for the nodes of the child list. -/
theorem isSome_predecessor? (a : Arena) (parent child : NodeId) :
    (a.predecessor? parent child).isSome ↔ child ∈ a.children parent :=
  a.isSome_predecessorFrom child _ _ _

end Arena

end ParseTree
