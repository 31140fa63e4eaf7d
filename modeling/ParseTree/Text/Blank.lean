/-!
# White space

A character is blank if it has the Unicode property White_Space. `trim` takes the blank characters
off both ends of a text.

## Main results

* `dropRight_append_takeRight`: trimming on the right cuts the text in two and loses nothing.
* `trim_eq_trimChars`: trimming a text is trimming its list of characters.
-/

namespace ParseTree

namespace Text

/-- The code points with the property White_Space, as inclusive ranges. -/
def blankRanges : List (Nat × Nat) :=
  [(0x09, 0x0D), (0x20, 0x20), (0x85, 0x85), (0xA0, 0xA0), (0x1680, 0x1680), (0x2000, 0x200A),
    (0x2028, 0x2029), (0x202F, 0x202F), (0x205F, 0x205F), (0x3000, 0x3000)]

/-- Whether a character is white space. -/
def isBlank (c : Char) : Bool :=
  blankRanges.any fun r => decide (r.1 ≤ c.toNat) && decide (c.toNat ≤ r.2)

/-- A list without its longest suffix of members that satisfy `p`. -/
def dropRight (p : Char → Bool) (cs : List Char) : List Char :=
  (cs.reverse.dropWhile p).reverse

/-- The longest suffix of members that satisfy `p`. -/
def takeRight (p : Char → Bool) (cs : List Char) : List Char :=
  (cs.reverse.takeWhile p).reverse

theorem dropRight_append_takeRight (p : Char → Bool) (cs : List Char) :
    dropRight p cs ++ takeRight p cs = cs := by
  simp [dropRight, takeRight, ← List.reverse_append]

private theorem isEmpty_dropWhile (p : Char → Bool) (cs : List Char) :
    (cs.dropWhile p).isEmpty = cs.all p := by
  induction cs with
  | nil => rfl
  | cons c cs ih => cases h : p c <;> simp [h, ih]

/-- What is cut off on the right of two lists in turn. -/
theorem dropRight_append (p : Char → Bool) (xs ys : List Char) :
    dropRight p (xs ++ ys) = if ys.all p then dropRight p xs else xs ++ dropRight p ys := by
  rw [dropRight, List.reverse_append, List.dropWhile_append, isEmpty_dropWhile,
    List.all_reverse]
  split <;> simp [dropRight]

/-- A list of characters without the blank ones at either end. -/
def trimChars (cs : List Char) : List Char :=
  dropRight isBlank (cs.dropWhile isBlank)

/-- A text without the blank characters at either end. -/
def trim (s : String) : String :=
  ((s.dropWhile isBlank).dropEndWhile isBlank).copy

private theorem dropWhile_eq_of_append {p : Char → Bool} {xs ys : List Char} (hx : xs.all p)
    (hy : ys.head?.any p = false) : (xs ++ ys).dropWhile p = ys := by
  rw [List.dropWhile_append, if_pos (by rw [isEmpty_dropWhile]; exact hx)]
  cases ys with
  | nil => rfl
  | cons y ys => rw [List.dropWhile_cons_of_neg (by simpa using hy)]

/-- Trimming a text, which looks at its ends only, is trimming its list of characters. -/
theorem trim_eq_trimChars (s : String) : trim s = String.ofList (trimChars s.toList) := by
  have hfront : s.toList.dropWhile isBlank = (s.dropWhile isBlank).copy.toList := by
    have hcut : (s.takeWhile isBlank).copy ++ (s.dropWhile isBlank).copy = s :=
      String.takeWhile_append_dropWhile
    have hs := congrArg String.toList hcut
    rw [String.toList_append] at hs
    rw [← hs]
    refine dropWhile_eq_of_append ?_ ?_
    · rw [← String.Slice.all_bool_eq]
      exact String.all_takeWhile
    · rw [← String.Slice.startsWith_bool_eq_head?]
      exact String.startsWith_dropWhile
  have hback (t : String.Slice) :
      dropRight isBlank t.copy.toList = (t.dropEndWhile isBlank).copy.toList := by
    have hcut : (t.dropEndWhile isBlank).copy ++ (t.takeEndWhile isBlank).copy = t.copy :=
      String.Slice.dropEndWhile_append_takeEndWhile
    have ht := congrArg String.toList hcut
    rw [String.toList_append] at ht
    rw [← ht, dropRight, List.reverse_append, dropWhile_eq_of_append, List.reverse_reverse]
    · rw [List.all_reverse, ← String.Slice.revAll_bool_eq]
      exact String.Slice.revAll_takeEndWhile
    · rw [List.head?_reverse, ← String.Slice.endsWith_bool_eq_getLast?]
      exact String.Slice.endsWith_dropEndWhile
  rw [trimChars, hfront, hback, String.ofList_toList, trim]

end Text

end ParseTree
