import ParseTree.Command

/-!
# Sessions

A session has several desks, each with an arena and a current input text. The arenas share one
numbering of nodes: an identity that one arena has given is never given by another.
-/

namespace ParseTree

/-- An arena and the text that is being worked on. -/
structure Desk where
  arena : Arena := {}
  input : String := ""
  deriving DecidableEq, Repr

/-- Desks whose arenas draw identities from one counter. -/
structure Session where
  desks : Array Desk
  /-- The identity that the next allocated node gets, whichever arena allocates it. -/
  nextIdentity : Nat := 0
  deriving DecidableEq, Repr

namespace Session

/-- A session with `n` empty desks. -/
def start (n : Nat) : Session :=
  { desks := Array.replicate n {} }

/-- Desk number `t`, ready to allocate the next identity. -/
def desk (s : Session) (t : Nat) : Desk :=
  let d := s.desks.getD t {}
  { d with arena := { d.arena with nextIdentity := s.nextIdentity } }

/-- Hand desk number `t` out, ready to allocate the next identity. An empty desk stands in for it
until it is put back. -/
def handOut (s : Session) (t : Nat) : Desk × Session :=
  (s.desk t, { s with desks := s.desks.setIfInBounds t {} })

/-- Put desk number `t` back, and go on numbering where its arena left off. A number that names no
desk changes nothing. -/
def putBack (s : Session) (t : Nat) (d : Desk) : Session :=
  if t < s.desks.size then
    { desks := s.desks.setIfInBounds t d, nextIdentity := d.arena.nextIdentity }
  else s

/-- What is put back replaces what was handed out. -/
theorem putBack_handOut (s : Session) (t : Nat) (d : Desk) :
    (s.handOut t).2.putBack t d = s.putBack t d := by
  simp only [handOut, putBack, Array.size_setIfInBounds]
  split
  · simp
  · rename_i h
    rw [Array.setIfInBounds_eq_of_size_le (Nat.not_lt.1 h)]

/-- Carry out a command on desk number `t`. -/
def perform (s : Session) (t : Nat) (c : Command) : Session :=
  let d := s.desk t
  s.putBack t { d with arena := (c.run d.arena).arena }

/-- The session after a list of commands, each for one desk. -/
def performAll (s : Session) (cs : List (Nat × Command)) : Session :=
  cs.foldl (fun s c => s.perform c.1 c.2) s

end Session

end ParseTree
