/-!
# Kinds of grammar symbols

Every node of a derivation tree stands for a grammar symbol, and the kind says which sort of symbol
that is. The kind decides how a node is printed and whether it is a terminal. It is written by name,
and `ofName?_eq_some_iff` says that the names are read back and nothing else is.
-/

namespace ParseTree

/-- The sort of grammar symbol that a node stands for. -/
inductive Kind where
  | terminal
  | caseInsensitiveTerminal
  | caseSensitiveTerminal
  | characterTerminal
  | nonTerminal
  | epsilon
  | intermediate
  deriving DecidableEq, Repr, Inhabited

namespace Kind

/-- The written name of a kind. -/
def name : Kind → String
  | terminal => "Terminal"
  | caseInsensitiveTerminal => "CaseInsensitiveTerminal"
  | caseSensitiveTerminal => "CaseSensitiveTerminal"
  | characterTerminal => "CharacterTerminal"
  | nonTerminal => "NonTerminal"
  | epsilon => "Epsilon"
  | intermediate => "Intermediate"

/-- All kinds, in the order of their declaration. -/
def all : List Kind :=
  [terminal, caseInsensitiveTerminal, caseSensitiveTerminal, characterTerminal, nonTerminal,
    epsilon, intermediate]

/-- The kind with the given name. -/
def ofName? (s : String) : Option Kind :=
  all.find? fun k => k.name == s

theorem ofName?_name (k : Kind) : ofName? k.name = some k := by
  cases k <;> rfl

theorem name_injective {j k : Kind} (h : j.name = k.name) : j = k :=
  Option.some.inj (by rw [← ofName?_name j, h, ofName?_name k])

/-- Exactly the names of kinds are read, each as its own kind. -/
theorem ofName?_eq_some_iff {s : String} {k : Kind} : ofName? s = some k ↔ s = k.name := by
  constructor
  · intro h
    have := List.find?_some h
    exact (by simpa using this : k.name = s).symm
  · rintro rfl
    exact ofName?_name k

/-- Whether a kind is one of the four sorts of terminal. -/
def isTerminal : Kind → Bool
  | terminal | caseInsensitiveTerminal | caseSensitiveTerminal | characterTerminal => true
  | nonTerminal | epsilon | intermediate => false

end Kind

end ParseTree
