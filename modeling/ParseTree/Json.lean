/-!
# JSON values

The values that rule tables and subtrees are written as. Only what those formats tell apart is told
apart here: a number is an integer or it is not, and no reader accepts one that is not.
-/

namespace ParseTree

/-- A JSON value. -/
inductive Json where
  | null
  | bool (b : Bool)
  | int (i : Int)
  /-- A number that is not written as an integer. -/
  | fraction
  | str (s : String)
  | arr (items : List Json)
  | obj (fields : List (String × Json))
  deriving Repr, Inhabited

namespace Json

/-- The value of the field `key` of an object, if the value is an object that has it. -/
def field? (j : Json) (key : String) : Option Json :=
  match j with
  | obj fields => fields.lookup key
  | _ => none

/-- The text of a string. -/
def str? : Json → Option String
  | str s => some s
  | _ => none

/-- The members of an array. -/
def arr? : Json → Option (List Json)
  | arr items => some items
  | _ => none

/-- A natural number below `2 ^ 64`. -/
def word? : Json → Option UInt64
  | int (.ofNat n) => if n < UInt64.size then some (UInt64.ofNat n) else none
  | _ => none

/-- The texts of an array of strings. -/
def strings? (j : Json) : Option (List String) := do
  (← j.arr?).mapM str?

/-- An array of strings. -/
def ofStrings (ss : List String) : Json :=
  arr (ss.map str)

/-- A word as a number. -/
def ofWord (w : UInt64) : Json :=
  int (.ofNat w.toNat)

@[simp] theorem strings?_ofStrings (ss : List String) : (ofStrings ss).strings? = some ss := by
  simp only [strings?, ofStrings, arr?, Option.bind_eq_bind, Option.bind_some]
  induction ss with
  | nil => rfl
  | cons s ss ih => simp [List.mapM_cons, str?, ih]

@[simp] theorem word?_ofWord (w : UInt64) : (ofWord w).word? = some w := by
  simp only [word?, ofWord]
  rw [if_pos w.toNat_lt_size, UInt64.ofNat_toNat]

end Json

end ParseTree
