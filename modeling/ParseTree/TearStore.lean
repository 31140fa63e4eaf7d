/-!
# Tear stores

A keyed tear keeps a copy of the torn subtree under a key, so that it can be inserted again. A tear
store is the map from keys to the roots of those copies. Storing under a key that is in use replaces
the entry, so a store behaves as a function from keys: `find?_insert` is all there is to know.
-/

namespace ParseTree

/-- A map from keys to the roots of stored subtrees. -/
structure TearStore where
  entries : List (String × Nat) := []
  deriving DecidableEq, Repr, Inhabited

namespace TearStore

/-- The subtree stored under `key`. -/
def find? (s : TearStore) (key : String) : Option Nat :=
  s.entries.lookup key

/-- Store `root` under `key`, in place of an earlier entry. -/
def insert (s : TearStore) (key : String) (root : Nat) : TearStore :=
  ⟨(key, root) :: s.entries.filter fun e => e.1 != key⟩

@[simp] theorem find?_empty (key : String) : ({} : TearStore).find? key = none := rfl

private theorem lookup_filter_ne {key other : String} (h : other ≠ key) :
    ∀ es : List (String × Nat),
      (es.filter fun e => e.1 != key).lookup other = es.lookup other
  | [] => rfl
  | (k, v) :: es => by
    have ih := lookup_filter_ne h es
    by_cases hk : k = key
    · subst hk
      have : (other == k) = false := by simpa using h
      simp [List.lookup_cons, ih, this]
    · by_cases ho : other = k
      · subst ho; simp [hk]
      · have : (other == k) = false := by simpa using ho
        simp [List.lookup_cons, hk, ih, this]

/-- **The last write under a key wins**, and no other key is touched. -/
theorem find?_insert (s : TearStore) (key other : String) (root : Nat) :
    (s.insert key root).find? other = if other = key then some root else s.find? other := by
  by_cases h : other = key
  · subst h; simp [find?, insert]
  · have hb : (other == key) = false := by simpa using h
    simp [find?, insert, List.lookup_cons, hb, lookup_filter_ne h, h]

end TearStore

end ParseTree
