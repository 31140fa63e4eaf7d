import ParseTree.Arena.Structure
import ParseTree.Event

/-!
# Outcomes of edits

An edit may be misused: at a root, with a node that is no child, with a key that nothing was torn
under. It then gives an error that says what was wrong, and reports it as a warning. An outcome
holds the result, the arena afterwards and the events; the arena is there for a failure too, so that
what a failed edit leaves behind can be stated.

## Main results

* `bind_ok`, `bind_error`: a later edit runs exactly if the earlier one succeeded.
-/

namespace ParseTree

/-- The edits that need a node with a parent. -/
inductive ParentEdit where
  | foldOver
  | foldUnder
  | tear
  deriving DecidableEq, Repr

/-- An edit as it is named in messages. -/
def ParentEdit.text : ParentEdit → String
  | foldOver => "fold over"
  | foldUnder => "fold under"
  | tear => "tear"

/-- Misuse of an edit. Nodes are named by their identities. -/
inductive EditError where
  /-- The edit needs a parent, and the node has none. -/
  | rootNode (edit : ParentEdit) (node : Nat)
  | childNotFound (parent child : Nat)
  /-- What was to be gathered does not follow the node. -/
  | siblingMismatch (node : Nat)
  | unknownTearId (node : Nat) (key : String)
  | extentOutOfInput (node left right : Nat)
  | positionOutOfRange (node position children : Nat)
  deriving DecidableEq, Repr

/-- The text of an edit error. -/
def EditError.message : EditError → String
  | rootNode edit n => "cannot " ++ edit.text ++ " the root node " ++ identityText n
  | childNotFound p c => "node " ++ identityText c ++ " is not a child of " ++ identityText p
  | siblingMismatch n =>
    "nodes supplied to gather are not the right siblings of " ++ identityText n
  | unknownTearId n key =>
    "no subtree was torn under id `" ++ key ++ "` for " ++ identityText n
  | extentOutOfInput n left right =>
    "extent " ++ toString left ++ ".." ++ toString right ++ " of " ++ identityText n ++
      " does not lie within the input"
  | positionOutOfRange n position children =>
    "invalid child position " ++ toString position ++ " for insert on " ++ identityText n ++
      ", which has " ++ toString children ++ " children"

/-- What an edit gives: its result, the arena after it and the events it emitted. -/
structure Outcome (α : Type) where
  result : Except EditError α
  arena : Arena
  log : List Event

namespace Outcome

variable {α β : Type}

/-- Success without an event. -/
def ok (arena : Arena) (x : α) : Outcome α :=
  ⟨.ok x, arena, []⟩

/-- Failure, reported as a warning with the text of the error in front of its other fields. -/
def fail (arena : Arena) (error : EditError) (message : String)
    (fields : List (String × String)) : Outcome α :=
  ⟨.error error, arena, [⟨.warn, message, ("error", error.message) :: fields⟩]⟩

/-- Go on with `next` if the edit succeeded. The events of both are kept in order. -/
def bind (o : Outcome α) (next : Arena → α → Outcome β) : Outcome β :=
  match o with
  | ⟨.error e, arena, log⟩ => ⟨.error e, arena, log⟩
  | ⟨.ok x, arena, log⟩ =>
    let o := next arena x
    ⟨o.result, o.arena, log ++ o.log⟩

/-- Replace the value of a success. -/
def map (f : α → β) (o : Outcome α) : Outcome β :=
  match o with
  | ⟨.error e, arena, log⟩ => ⟨.error e, arena, log⟩
  | ⟨.ok x, arena, log⟩ => ⟨.ok (f x), arena, log⟩

/-- Replacing the value does not touch the arena. -/
theorem arena_map (o : Outcome α) (f : α → β) : (o.map f).arena = o.arena := by
  match o with
  | ⟨.error _, _, _⟩ => rfl
  | ⟨.ok _, _, _⟩ => rfl

/-- Replacing the value does not touch the error. -/
theorem result_map_eq_error (o : Outcome α) (f : α → β) {e : EditError} :
    (o.map f).result = .error e ↔ o.result = .error e := by
  match o with
  | ⟨.error _, _, _⟩ => simp [map]
  | ⟨.ok _, _, _⟩ => exact ⟨nofun, nofun⟩

/-- An edit follows a successful one. -/
@[simp] theorem bind_ok (a : Arena) (x : α) (next : Arena → α → Outcome β) :
    (ok a x).bind next = next a x := by
  simp [ok, bind]

/-- Nothing follows a failed edit. -/
@[simp] theorem bind_error (a : Arena) (e : EditError) (log : List Event)
    (next : Arena → α → Outcome β) :
    (⟨.error e, a, log⟩ : Outcome α).bind next = ⟨.error e, a, log⟩ := rfl

/-- Sequencing of edits is associative. -/
theorem bind_assoc {γ : Type} (o : Outcome α) (f : Arena → α → Outcome β)
    (g : Arena → β → Outcome γ) :
    (o.bind f).bind g = o.bind fun a x => (f a x).bind g := by
  match o with
  | ⟨.error _, _, _⟩ => rfl
  | ⟨.ok x, a, log⟩ =>
    simp only [bind]
    match f a x with
    | ⟨.error _, _, _⟩ => rfl
    | ⟨.ok y, b, log'⟩ => simp [List.append_assoc]

end Outcome

end ParseTree
