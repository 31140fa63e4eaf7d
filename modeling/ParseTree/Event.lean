/-!
# Diagnostic events

Operations report misuse and progress as events beside their result. An event has a level, a message
and named fields, all of them text. Events are values: an operation returns the list of those it
emitted, in order, and nothing is written anywhere.
-/

namespace ParseTree

/-- How serious an event is. -/
inductive Level where
  | warn
  | info
  | debug
  | trace
  deriving DecidableEq, Repr

/-- The written name of a level. -/
def Level.name : Level → String
  | .warn => "WARN"
  | .info => "INFO"
  | .debug => "DEBUG"
  | .trace => "TRACE"

/-- One diagnostic event. -/
structure Event where
  level : Level
  message : String
  fields : List (String × String)
  deriving DecidableEq, Repr

/-- The text of a field of an event. -/
def Event.field? (e : Event) (name : String) : Option String :=
  e.fields.lookup name

end ParseTree
