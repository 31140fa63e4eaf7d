import ParseTree.Arena.Basic

/-!
# Pre-order traversal

A traversal enters every node of a subtree before its children and leaves it after them. It needs no
stack: from where it stands, the links of the current node say where to go next, and leaving the
start ends it. Traversals are lazy, so that a bounded number of visits can be taken from one that
runs over damaged links and never ends.
-/

namespace ParseTree

/-- One visit of a traversal. -/
inductive Visit where
  | enter (i : NodeId)
  | leave (i : NodeId)
  deriving DecidableEq, Repr

/-- The node that is entered, if the visit enters one. -/
def Visit.entered? : Visit → Option NodeId
  | enter i => some i
  | leave _ => none

namespace Arena

/-- The visit after a given one in the traversal that began at `start`. -/
def visitAfter (a : Arena) (start : NodeId) : Visit → Option Visit
  | .enter i =>
    match (a.node i).firstChild with
    | some child => some (.enter child)
    | none => some (.leave i)
  | .leave i =>
    if i = start then none
    else
      match (a.node i).nextSibling with
      | some sibling => some (.enter sibling)
      | none => (a.node i).parent.map .leave

/-- The first `n` visits from `next` on, in front of which `done` stands in reverse. -/
private def visitsInto (a : Arena) (start : NodeId) :
    Nat → Option Visit → List Visit → List Visit
  | 0, _, done => done.reverse
  | _ + 1, none, done => done.reverse
  | n + 1, some v, done => a.visitsInto start n (a.visitAfter start v) (v :: done)

/-- The first `n` visits from `next` on. -/
def visitsFrom (a : Arena) (start : NodeId) (n : Nat) (next : Option Visit) : List Visit :=
  a.visitsInto start n next []

/-- The first `n` visits of the traversal of the subtree at `i`. -/
def preorder (a : Arena) (i : NodeId) (n : Nat) : List Visit :=
  a.visitsFrom i n (some (.enter i))

/-- The first `limit` nodes entered within `n` visits, in front of which `done` stands in reverse.
-/
private def enteredInto (a : Arena) (start : NodeId) :
    Nat → Nat → Option Visit → List NodeId → List NodeId
  | 0, _, _, done => done.reverse
  | _ + 1, 0, _, done => done.reverse
  | _ + 1, _ + 1, none, done => done.reverse
  | n + 1, limit + 1, some (.enter i), done =>
    a.enteredInto start n limit (a.visitAfter start (.enter i)) (i :: done)
  | n + 1, limit + 1, some (.leave i), done =>
    a.enteredInto start n (limit + 1) (a.visitAfter start (.leave i)) done

/-- The first `limit` nodes of the subtree at `i` in pre-order. Between two nodes that are entered a
traversal leaves nodes along one chain of parents, which bounds the visits that are needed. -/
def descendants (a : Arena) (i : NodeId) (limit : Nat) : List NodeId :=
  a.enteredInto i ((limit + 1) * (a.size + 1)) limit (some (.enter i)) []

/-! ## Equations of the lazy traversal -/

private theorem visitsInto_eq (a : Arena) (start : NodeId) (n : Nat) (next : Option Visit)
    (done : List Visit) :
    a.visitsInto start n next done = done.reverse ++ a.visitsInto start n next [] := by
  induction n generalizing next done with
  | zero => simp [visitsInto]
  | succ n ih =>
    cases next with
    | none => simp [visitsInto]
    | some v => rw [visitsInto, visitsInto, ih, ih _ [v]]; simp

@[simp] theorem visitsFrom_zero (a : Arena) (start : NodeId) (next : Option Visit) :
    a.visitsFrom start 0 next = [] := rfl

@[simp] theorem visitsFrom_none (a : Arena) (start : NodeId) (n : Nat) :
    a.visitsFrom start n none = [] := by
  cases n <;> rfl

/-- The visits from `v` on are `v` and the visits after it. -/
@[simp] theorem visitsFrom_some (a : Arena) (start : NodeId) (n : Nat) (v : Visit) :
    a.visitsFrom start (n + 1) (some v) = v :: a.visitsFrom start n (a.visitAfter start v) := by
  rw [visitsFrom, visitsInto, visitsInto_eq]
  rfl

private theorem enteredInto_eq (a : Arena) (start : NodeId) (n limit : Nat) (next : Option Visit)
    (done : List NodeId) :
    a.enteredInto start n limit next done =
      done.reverse ++ ((a.visitsFrom start n next).filterMap Visit.entered?).take limit := by
  induction n generalizing limit next done with
  | zero => simp [enteredInto]
  | succ n ih =>
    cases limit with
    | zero => simp [enteredInto]
    | succ limit =>
      match next with
      | none => simp [enteredInto]
      | some (.enter i) => simp [enteredInto, ih, Visit.entered?]
      | some (.leave i) => simp [enteredInto, ih, List.filterMap_cons, Visit.entered?]

/-- The nodes of a subtree are those that its traversal enters, in that order. -/
theorem descendants_eq (a : Arena) (i : NodeId) (limit : Nat) :
    a.descendants i limit =
      ((a.preorder i ((limit + 1) * (a.size + 1))).filterMap Visit.entered?).take limit := by
  simp [descendants, enteredInto_eq, preorder]

end Arena

end ParseTree
