import ParseTree.Scheme

/-!
# Walking a tree with a scheme

A walk shows the nodes below a root to a scheme, children from left to right and each node after
its children, so that a scheme sees at a node what its edits below have left. The edits change the
lists that are being walked. A walk therefore looks up where to go next when it gets there: behind
the node just visited if that is still a child of the node whose list is walked, and otherwise
behind the place where it stood before the visit. A node that a visit has moved away from the lists
ahead is passed over: right siblings gathered below the node just visited are not shown.

A walk is a machine. Its stack has one frame for each list that is being walked, the innermost
first: the node that the list belongs to, and the next child to go to.

## Main results

* `step_descend`, `step_leaf`, `step_ascend`: the steps that go to a node or visit one.
* `run_of_stack_nil`: a walk with an empty stack is over.
-/

namespace ParseTree

/-- The state of a walk. -/
structure Walk (σ : Type) where
  /-- The lists being walked, innermost first: their owner and the next child to go to. -/
  stack : List (NodeId × Option NodeId)
  state : σ
  arena : Arena
  log : Array Event

namespace Walk

variable {σ : Type}

/-- Show node `i` to the scheme and find the next child in the list of `owner`. -/
def visit (s : Scheme σ) (input : String) (i owner : NodeId) (rest : List (NodeId × Option NodeId))
    (state : σ) (a : Arena) (log : Array Event) : Walk σ :=
  let next := (a.node i).nextSibling
  let (state, a, events) := s.transform input state a i
  let next := if (a.node i).parent = some owner then (a.node i).nextSibling else next
  ⟨(owner, next) :: rest, state, a, log ++ events⟩

/-- One step: go down to the first child, visit a leaf, or go up and visit the owner of a list that
has come to its end. The root of the walk is not visited. -/
def step (s : Scheme σ) (input : String) : Walk σ → Walk σ
  | ⟨[], state, a, log⟩ => ⟨[], state, a, log⟩
  | ⟨(owner, some i) :: rest, state, a, log⟩ =>
    match (a.node i).firstChild with
    | some first => ⟨(i, some first) :: (owner, some i) :: rest, state, a, log⟩
    | none => visit s input i owner rest state a log
  | ⟨[(_, none)], state, a, log⟩ => ⟨[], state, a, log⟩
  | ⟨(i, none) :: (owner, _) :: rest, state, a, log⟩ => visit s input i owner rest state a log

/-- At most `n` steps. -/
def run (s : Scheme σ) (input : String) : Nat → Walk σ → Walk σ
  | 0, w => w
  | n + 1, w => if w.stack.isEmpty then w else run s input n (step s input w)

/-- The walk that is about to begin below `root`. -/
def start (a : Arena) (root : NodeId) (state : σ) : Walk σ :=
  ⟨[(root, (a.node root).firstChild)], state, a, #[]⟩

/-- A bound on the steps of a walk. In a well-formed arena every node is gone to and visited at most
once; the surplus is for links that a caller has damaged. -/
def bound (a : Arena) : Nat :=
  2 * a.size + Arena.surplus

end Walk

/-- Show the nodes below `root` to the scheme, in the order in which they are met along the lists as
the visits leave them. What a visit moves away from the lists ahead is not shown. -/
def walk {σ : Type} (s : Scheme σ) (input : String) (a : Arena) (root : NodeId) (state : σ) :
    Walk σ :=
  let n := Walk.bound a
  Walk.run s input n (Walk.start a root state)

namespace Walk

variable {σ : Type} (s : Scheme σ) (input : String)

/-! ## The steps -/

theorem step_descend {owner i first : NodeId} {rest : List (NodeId × Option NodeId)} {state : σ}
    {a : Arena} {log : Array Event} (h : (a.node i).firstChild = some first) :
    step s input ⟨(owner, some i) :: rest, state, a, log⟩ =
      ⟨(i, some first) :: (owner, some i) :: rest, state, a, log⟩ := by
  simp [step, h]

theorem step_leaf {owner i : NodeId} {rest : List (NodeId × Option NodeId)} {state : σ}
    {a : Arena} {log : Array Event} (h : (a.node i).firstChild = none) :
    step s input ⟨(owner, some i) :: rest, state, a, log⟩ =
      visit s input i owner rest state a log := by
  simp [step, h]

theorem step_ascend (i owner : NodeId) (next : Option NodeId)
    (rest : List (NodeId × Option NodeId)) (state : σ) (a : Arena) (log : Array Event) :
    step s input ⟨(i, none) :: (owner, next) :: rest, state, a, log⟩ =
      visit s input i owner rest state a log := rfl

/-- A walk with an empty stack is over. -/
theorem run_of_stack_nil (n : Nat) {w : Walk σ} (h : w.stack = []) : run s input n w = w := by
  cases n <;> simp [run, h]

/-- Steps can be taken in two goes. -/
theorem run_add (m n : Nat) (w : Walk σ) :
    run s input (m + n) w = run s input n (run s input m w) := by
  induction m generalizing w with
  | zero => simp [run]
  | succ m ih =>
    rw [Nat.succ_add, run, run]
    split
    · rename_i h
      rw [run_of_stack_nil s input n (List.isEmpty_iff.1 h)]
    · exact ih _

end Walk

end ParseTree
