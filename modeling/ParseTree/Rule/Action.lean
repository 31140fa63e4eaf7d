import ParseTree.Edit.Operators

/-!
# Actions

An action is an edit or a sequence of actions. Edits act on a *focus*, at first the node that a rule
matched. Gathering the focus moves the focus to the copy, which holds what the focus held before;
every other edit leaves the focus where it is. So a sequence goes on with the same content one level
further down.

A sequence stops at its first failure and keeps the edits before it.

## Main results

* `apply_eq_applyEdits`: an action does what the edits in it do, one after the other, however its
  sequences are nested.
-/

namespace ParseTree

/-- A single edit of the focus. -/
inductive Edit where
  /-- Relabel the focus with the input that it covers. -/
  | literal
  | foldUnder
  | foldOver
  /-- Gather the focus under a new level with the given label. -/
  | gather (label : String)
  /-- Gather the focus together with all its right siblings. -/
  | gatherWithSiblings (label : String)
  /-- Gather the focus together with the `count` nodes that follow it. -/
  | gatherWithNext (label : String) (count : UInt64)
  /-- Gather all children of the focus under one new node. -/
  | gatherChildren (label : String)
  /-- Gather the first child of the focus. -/
  | gatherFirstChild (label : String)
  | tear
  /-- Tear the focus and keep a copy under `key`. -/
  | tearAs (key : String)
  /-- Insert the subtree stored under `key` as child number `position` of the focus. -/
  | insert (position : UInt64) (key : String)
  deriving DecidableEq, Repr

/-- An edit, or actions to be taken in turn. -/
inductive Action where
  | edit (e : Edit)
  | sequence (actions : List Action)
  deriving Repr

/-! ## Equality of actions -/

mutual

/-- Whether two actions are the same. -/
def Action.beq : Action → Action → Bool
  | .edit e, .edit f => decide (e = f)
  | .sequence xs, .sequence ys => Action.beqAll xs ys
  | .edit _, .sequence _ => false
  | .sequence _, .edit _ => false

/-- Whether two lists of actions are the same. -/
def Action.beqAll : List Action → List Action → Bool
  | [], [] => true
  | x :: xs, y :: ys => Action.beq x y && Action.beqAll xs ys
  | [], _ :: _ => false
  | _ :: _, [] => false

end

mutual

theorem Action.beq_iff : ∀ x y : Action, Action.beq x y = true ↔ x = y
  | .edit e, .edit f => by simp [Action.beq]
  | .sequence xs, .sequence ys => by simp [Action.beq, Action.beqAll_iff xs ys]
  | .edit _, .sequence _ => by simp [Action.beq]
  | .sequence _, .edit _ => by simp [Action.beq]

theorem Action.beqAll_iff : ∀ xs ys : List Action, Action.beqAll xs ys = true ↔ xs = ys
  | [], [] => by simp [Action.beqAll]
  | x :: xs, y :: ys => by
    simp [Action.beqAll, Action.beq_iff x y, Action.beqAll_iff xs ys]
  | [], _ :: _ => by simp [Action.beqAll]
  | _ :: _, [] => by simp [Action.beqAll]

end

instance : DecidableEq Action := fun x y => decidable_of_iff _ (Action.beq_iff x y)

/-! ## Applying actions -/

/-- Apply an edit to the focus `i` and give the focus for what follows. -/
def Edit.apply (input : String) (e : Edit) (a : Arena) (i : NodeId) : Outcome NodeId :=
  match e with
  | literal =>
    match a.underlyingText? i input with
    | some text => .ok (a.setLabel i text) i
    | none =>
      let (left, right) := a.textRange i
      .fail a (.extentOutOfInput (a.node i).identity left right)
        "cannot relabel with the input text" []
  | foldUnder => (a.foldUnder i).map fun _ => i
  | foldOver => (a.foldOver i).map fun _ => i
  | gather label =>
    let (c, a) := a.gather i label
    .ok a c
  | gatherWithSiblings label => a.gatherWithSiblings i label (a.rightSiblings i)
  | gatherWithNext label count =>
    let wanted := count.toNat
    let siblings := a.chain wanted (a.node i).nextSibling
    if siblings.length < wanted then
      .fail a (.siblingMismatch (a.node i).identity) "cannot gather"
        [("available", toString siblings.length), ("wanted", toString wanted)]
    else a.gatherWithSiblings i label siblings
  | gatherChildren label =>
    match (a.node i).firstChild with
    | some first => (a.gatherWithSiblings first label (a.rightSiblings first)).map fun _ => i
    | none => .ok a i
  | gatherFirstChild label =>
    match (a.node i).firstChild with
    | some first => .ok (a.gather first label).2 i
    | none => .ok a i
  | tear => (a.tear i).map fun _ => i
  | tearAs key => (a.tearInto i key).map fun _ => i
  | insert position key => (a.insert i position.toNat key).map fun _ => i

/-- Apply edits in turn, each to the focus that the one before it gave. -/
def Edit.applyAll (input : String) : List Edit → Arena → NodeId → Outcome NodeId
  | [], a, i => .ok a i
  | e :: es, a, i => (e.apply input a i).bind fun a i => Edit.applyAll input es a i

mutual

/-- Apply an action to the focus `i` and give the focus for what follows. -/
def Action.apply (input : String) : Action → Arena → NodeId → Outcome NodeId
  | .edit e, a, i => e.apply input a i
  | .sequence actions, a, i => Action.applyAll input actions a i

/-- Apply actions in turn, each to the focus that the one before it gave. -/
def Action.applyAll (input : String) : List Action → Arena → NodeId → Outcome NodeId
  | [], a, i => .ok a i
  | x :: xs, a, i => (Action.apply input x a i).bind fun a i => Action.applyAll input xs a i

end

mutual

/-- The edits of an action, in the order in which they are applied. -/
def Action.edits : Action → List Edit
  | .edit e => [e]
  | .sequence actions => Action.editsAll actions

/-- The edits of a list of actions, in the order in which they are applied. -/
def Action.editsAll : List Action → List Edit
  | [] => []
  | x :: xs => Action.edits x ++ Action.editsAll xs

end

theorem Edit.applyAll_append (input : String) (es fs : List Edit) (a : Arena) (i : NodeId) :
    Edit.applyAll input (es ++ fs) a i =
      (Edit.applyAll input es a i).bind fun a i => Edit.applyAll input fs a i := by
  induction es generalizing a i with
  | nil => simp [Edit.applyAll]
  | cons e es ih => simp [Edit.applyAll, ih, Outcome.bind_assoc]

theorem Outcome.bind_ok_right {α : Type} (o : Outcome α) : o.bind (fun a x => .ok a x) = o := by
  match o with
  | ⟨.error _, _, _⟩ => rfl
  | ⟨.ok x, a, log⟩ => simp [Outcome.bind, Outcome.ok]

mutual

/-- **An action does what its edits do**, one after the other, however its sequences are nested. -/
theorem Action.apply_eq_applyEdits (input : String) :
    ∀ (x : Action) (a : Arena) (i : NodeId),
      Action.apply input x a i = Edit.applyAll input x.edits a i
  | .edit e, a, i => by simp [Action.apply, Action.edits, Edit.applyAll, Outcome.bind_ok_right]
  | .sequence xs, a, i => by
    simpa [Action.apply, Action.edits] using Action.applyAll_eq_applyEdits input xs a i

theorem Action.applyAll_eq_applyEdits (input : String) :
    ∀ (xs : List Action) (a : Arena) (i : NodeId),
      Action.applyAll input xs a i = Edit.applyAll input (Action.editsAll xs) a i
  | [], a, i => by simp [Action.applyAll, Action.editsAll, Edit.applyAll]
  | x :: xs, a, i => by
    simp only [Action.applyAll, Action.editsAll, Edit.applyAll_append,
      Action.apply_eq_applyEdits input x a i]
    congr 1
    funext b j
    exact Action.applyAll_eq_applyEdits input xs b j

end

end ParseTree
