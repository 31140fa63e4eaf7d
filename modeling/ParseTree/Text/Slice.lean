/-!
# Slices by byte offset

Extents are byte offsets into the UTF-8 encoding of a text. An offset is usable if it falls between
two characters or at an end. `sliceBytes` cuts a text at two offsets and fails if one of them is not
usable.

## Main results

* `splitBytes_eq_some_iff`: a split at an offset is the one decomposition whose first part has that
  many bytes.
* `sliceChars_eq_some_iff`, `sliceBytes_eq_some_iff`: the same for a slice of a list of characters
  and of a text.
* `sliceBytes_eq_sliceChars`: cutting a text is cutting its list of characters.
-/

namespace ParseTree

namespace Text

/-- The number of bytes that a list of characters takes in UTF-8. -/
def byteLength : List Char → Nat
  | [] => 0
  | c :: cs => c.utf8Size + byteLength cs

theorem byteLength_append (xs ys : List Char) :
    byteLength (xs ++ ys) = byteLength xs + byteLength ys := by
  induction xs with
  | nil => simp [byteLength]
  | cons c xs ih => simp [byteLength, ih]; omega

/-- The bytes of a text are those of its characters. -/
theorem byteLength_toList (s : String) : byteLength s.toList = s.utf8ByteSize := by
  have h : ∀ cs : List Char, byteLength cs = (String.ofList cs).utf8ByteSize := by
    intro cs
    induction cs with
    | nil => rfl
    | cons c cs ih =>
      rw [byteLength, ih, ← String.utf8ByteSize_singleton, ← String.utf8ByteSize_append]
      congr 1
      exact String.ext (by simp)
  rw [h, String.ofList_toList]

/-- Move characters to `done`, in reverse, until `n` bytes are used up. -/
private def splitInto : Nat → List Char → List Char → Option (List Char × List Char)
  | 0, done, rest => some (done.reverse, rest)
  | _ + 1, _, [] => none
  | n + 1, done, c :: rest =>
    if c.utf8Size ≤ n + 1 then splitInto (n + 1 - c.utf8Size) (c :: done) rest else none

/-- Cut a text after its first `n` bytes, if a character ends there. -/
def splitBytes (n : Nat) (cs : List Char) : Option (List Char × List Char) :=
  splitInto n [] cs

private theorem splitInto_eq_some_iff {n : Nat} {done rest xs ys : List Char} :
    splitInto n done rest = some (xs, ys) ↔
      ∃ zs, xs = done.reverse ++ zs ∧ rest = zs ++ ys ∧ byteLength zs = n := by
  induction rest generalizing n done with
  | nil =>
    cases n with
    | zero =>
      simp only [splitInto, Option.some.injEq, Prod.mk.injEq]
      constructor
      · rintro ⟨rfl, rfl⟩
        exact ⟨[], by simp [byteLength]⟩
      · rintro ⟨zs, rfl, hz, _⟩
        obtain ⟨rfl, rfl⟩ := List.append_eq_nil_iff.1 hz.symm
        simp
    | succ n =>
      simp only [splitInto, reduceCtorEq, false_iff]
      rintro ⟨zs, _, hz, hn⟩
      obtain ⟨rfl, _⟩ := List.append_eq_nil_iff.1 hz.symm
      simp [byteLength] at hn
  | cons c rest ih =>
    have hc := c.utf8Size_pos
    cases n with
    | zero =>
      simp only [splitInto, Option.some.injEq, Prod.mk.injEq]
      constructor
      · rintro ⟨rfl, rfl⟩
        exact ⟨[], by simp [byteLength]⟩
      · rintro ⟨zs, rfl, hz, hn⟩
        cases zs with
        | nil => simpa using hz
        | cons d zs => simp [byteLength] at hn; have := d.utf8Size_pos; omega
    | succ n =>
      rw [splitInto]
      constructor
      · intro h
        split at h
        · obtain ⟨zs, rfl, rfl, hn⟩ := ih.1 h
          exact ⟨c :: zs, by simp, by simp, by simp [byteLength, hn]; omega⟩
        · simp at h
      · rintro ⟨zs, rfl, hz, hn⟩
        cases zs with
        | nil => simp [byteLength] at hn
        | cons d zs =>
          obtain ⟨rfl, rfl⟩ : c = d ∧ rest = zs ++ ys := by simpa using hz
          simp only [byteLength] at hn
          rw [if_pos (by omega), ih]
          exact ⟨zs, by simp, rfl, by omega⟩

/-- **A split at byte `n`** is the decomposition whose first part has `n` bytes. It exists exactly
if `n` falls on a boundary between characters. -/
theorem splitBytes_eq_some_iff {n : Nat} {cs xs ys : List Char} :
    splitBytes n cs = some (xs, ys) ↔ cs = xs ++ ys ∧ byteLength xs = n := by
  rw [splitBytes, splitInto_eq_some_iff]
  simp

/-- The characters from byte `left` to byte `right`, for `left ≤ right`. -/
def sliceChars (left right : Nat) (cs : List Char) : Option (List Char) := do
  let (_, rest) ← splitBytes left cs
  let (middle, _) ← splitBytes (right - left) rest
  return middle

/-- **A slice** is the middle part of a decomposition of the text whose first two parts have the
right numbers of bytes. -/
theorem sliceChars_eq_some_iff {left right : Nat} {cs middle : List Char} :
    sliceChars left right cs = some middle ↔
      ∃ before after, cs = before ++ middle ++ after ∧ byteLength before = left ∧
        byteLength middle = right - left := by
  simp only [sliceChars, Option.bind_eq_bind, Option.pure_def, Option.bind_eq_some_iff,
    Option.some.injEq, Prod.exists, splitBytes_eq_some_iff]
  constructor
  · rintro ⟨before, rest, ⟨rfl, hl⟩, _, after, ⟨rfl, hm⟩, rfl⟩
    exact ⟨before, after, by simp, hl, hm⟩
  · rintro ⟨before, after, rfl, hl, hm⟩
    exact ⟨before, middle ++ after, ⟨by simp, hl⟩, middle, after, ⟨rfl, hm⟩, rfl⟩

/-- The text from byte `left` to byte `right`, for `left ≤ right`. -/
def sliceBytes (left right : Nat) (s : String) : Option String := do
  let l ← s.pos? ⟨left⟩
  let r ← s.pos? ⟨right⟩
  return s.extract l r

private theorem pos?_eq_some {s : String} {n : Nat} {p : s.Pos} (h : s.pos? ⟨n⟩ = some p) :
    p.offset = ⟨n⟩ := by
  simp only [String.pos?, String.Slice.pos?, Option.map_eq_some_iff] at h
  obtain ⟨q, hq, rfl⟩ := h
  split at hq
  · obtain rfl := Option.some.inj hq
    rfl
  · simp at hq

private theorem exists_pos?_eq_some {xs : String} (ys : String) {n : Nat}
    (h : xs.utf8ByteSize = n) :
    ∃ p, (xs ++ ys).pos? ⟨n⟩ = some p := by
  have hv : String.Pos.Raw.IsValid (xs ++ ys) ⟨n⟩ :=
    String.Pos.Raw.isValid_iff_exists_append.2 ⟨xs, ys, rfl, by rw [← h]; rfl⟩
  simp only [String.pos?, String.Slice.pos?]
  rw [dif_pos (String.Pos.Raw.isValidForSlice_eq_true_iff.2 hv.toSlice)]
  exact ⟨_, rfl⟩

/-- **A slice of a text** is the middle part of a decomposition of it, as for lists. -/
theorem sliceBytes_eq_some_iff {left right : Nat} (h : left ≤ right) {s t : String} :
    sliceBytes left right s = some t ↔
      ∃ before after, s = before ++ t ++ after ∧ before.utf8ByteSize = left ∧
        t.utf8ByteSize = right - left := by
  simp only [sliceBytes, Option.bind_eq_bind, Option.pure_def, Option.bind_eq_some_iff,
    Option.some.injEq]
  constructor
  · rintro ⟨p, hp, q, hq, rfl⟩
    have hp := pos?_eq_some hp
    have hq := pos?_eq_some hq
    have hle := String.Pos.Raw.le_iff.1 q.isValid.le_rawEndPos
    rw [hq] at hle
    have hle : right ≤ s.utf8ByteSize := hle
    refine ⟨s.extract s.startPos p, s.extract q s.endPos, ?_, ?_, ?_⟩
    · simp only [← String.toByteArray_inj, String.toByteArray_append, String.toByteArray_extract,
        hp, hq, String.offset_startPos, String.offset_endPos]
      simp [Nat.max_eq_right h, ← String.size_toByteArray]
    · rw [← String.size_toByteArray, String.toByteArray_extract, ByteArray.size_extract, hp,
        String.size_toByteArray]
      simp; omega
    · rw [← String.size_toByteArray, String.toByteArray_extract, ByteArray.size_extract, hp, hq,
        String.size_toByteArray, Nat.min_eq_left hle]
  · rintro ⟨before, after, rfl, hl, ht⟩
    have hr : (before ++ t).utf8ByteSize = right := by rw [String.utf8ByteSize_append]; omega
    obtain ⟨q, hq⟩ := exists_pos?_eq_some after hr
    obtain ⟨p, hp⟩ : ∃ p, (before ++ t ++ after).pos? ⟨left⟩ = some p :=
      String.append_assoc ▸ exists_pos?_eq_some (t ++ after) hl
    refine ⟨p, hp, q, hq, ?_⟩
    rw [← String.toByteArray_inj, String.toByteArray_extract, pos?_eq_some hp, pos?_eq_some hq]
    rw [String.append_assoc, String.toByteArray_append, String.toByteArray_append]
    obtain rfl : right = left + t.utf8ByteSize := by omega
    rw [← Nat.add_zero left, Nat.add_assoc, ByteArray.extract_append_size_add' hl.symm,
      Nat.zero_add, ByteArray.extract_append_eq_left t.size_toByteArray.symm]

/-- Cutting a text, which looks at two of its bytes only, is cutting its list of characters. -/
theorem sliceBytes_eq_sliceChars {left right : Nat} (h : left ≤ right) (s : String) :
    sliceBytes left right s = (sliceChars left right s.toList).map String.ofList := by
  ext t
  rw [sliceBytes_eq_some_iff h, Option.map_eq_some_iff]
  constructor
  · rintro ⟨before, after, rfl, hl, ht⟩
    refine ⟨t.toList, sliceChars_eq_some_iff.2 ⟨before.toList, after.toList, ?_, ?_, ?_⟩, ?_⟩
    · simp
    · rw [byteLength_toList, hl]
    · rw [byteLength_toList, ht]
    · simp
  · rintro ⟨middle, hm, rfl⟩
    obtain ⟨before, after, hs, hl, ht⟩ := sliceChars_eq_some_iff.1 hm
    refine ⟨String.ofList before, String.ofList after, ?_, ?_, ?_⟩
    · rw [← String.ofList_append, ← String.ofList_append, ← hs, String.ofList_toList]
    · rw [← byteLength_toList, String.toList_ofList, hl]
    · rw [← byteLength_toList, String.toList_ofList, ht]

end Text

end ParseTree
