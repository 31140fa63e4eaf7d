import Mathlib.Data.List.TakeWhile
import ParseTree.Proofs.Cancelling

/-!
# The text that a node covers

Extents are byte offsets, and the text below a node is cut out of the input at two of them. The cut
can be made if both offsets are inside the input and neither is inside a character, which the byte
there tells. What was cut out is then trimmed: of all texts that are left when white space is taken
off at both ends, `Trimmed` is the only one with no more white space to take off.

What a node covers does not depend on its label. So relabelling a node with its text is settled by
these two facts: it is refused if there is no text, and otherwise it writes the label, the same one
however often it is done.

## Main results

* `Text.isSome_sliceBytes_iff`: where a text can be cut.
* `Text.trim_eq_iff`: what trimming leaves.
* `Arena.isSome_underlyingText?_iff`, `Arena.underlyingText?_eq_some_iff`: when there is text below
  a node, and which text it is.
* `Action.literal_relabels`: both, and what relabelling makes of them.
-/

namespace ParseTree

namespace Text

/-! ## Cutting -/

/-- An offset inside a text is at a boundary if the byte there is the first one of a character.
Behind the text there is no character to be cut. -/
def AtBoundary (n : Nat) (s : String) : Prop :=
  ∀ h : n < s.utf8ByteSize, (s.getUTF8Byte ⟨n⟩ h).IsUTF8FirstByte

theorem isSome_pos?_iff {s : String} {n : Nat} :
    (s.pos? ⟨n⟩).isSome ↔ n ≤ s.utf8ByteSize ∧ AtBoundary n s := by
  have hvalid : (s.pos? ⟨n⟩).isSome ↔ String.Pos.Raw.IsValid s ⟨n⟩ := by
    rw [String.pos?, Option.isSome_map, String.Slice.pos?, Option.isSome_dite,
      String.Pos.Raw.isValidForSlice_eq_true_iff, String.Pos.Raw.isValidForSlice_toSlice_iff]
  rw [hvalid, String.Pos.Raw.isValid_iff_isUTF8FirstByte]
  constructor
  · rintro (hend | ⟨hlt, hfirst⟩)
    · obtain rfl : n = s.utf8ByteSize := congrArg String.Pos.Raw.byteIdx hend
      exact ⟨Nat.le_refl _, fun h => absurd h (Nat.lt_irrefl _)⟩
    · exact ⟨Nat.le_of_lt hlt, fun _ => hfirst⟩
  · rintro ⟨hle, hfirst⟩
    rcases Nat.lt_or_eq_of_le hle with hlt | rfl
    · exact .inr ⟨hlt, hfirst hlt⟩
    · exact .inl rfl

/-- **A text can be cut** at two offsets if both are inside it and neither is inside a character. -/
theorem isSome_sliceBytes_iff {left right : Nat} {s : String} :
    (sliceBytes left right s).isSome ↔
      (left ≤ s.utf8ByteSize ∧ right ≤ s.utf8ByteSize) ∧
        AtBoundary left s ∧ AtBoundary right s := by
  have hboth : (sliceBytes left right s).isSome ↔
      (s.pos? ⟨left⟩).isSome ∧ (s.pos? ⟨right⟩).isSome := by
    rw [sliceBytes]
    cases s.pos? ⟨left⟩ <;> cases s.pos? ⟨right⟩ <;> simp
  rw [hboth, isSome_pos?_iff, isSome_pos?_iff, and_and_and_comm]

/-! ## Trimming -/

/-- Every character of the text is white space. -/
def IsBlank (s : String) : Prop :=
  s.toList.all isBlank = true

instance (s : String) : Decidable (IsBlank s) :=
  inferInstanceAs (Decidable (s.toList.all isBlank = true))

theorem isBlank_append {s t : String} : IsBlank (s ++ t) ↔ IsBlank s ∧ IsBlank t := by
  rw [IsBlank, String.toList_append, List.all_append, Bool.and_eq_true]
  rfl

/-- What is left of the text `t` if white space is taken off at both ends until there is none. -/
structure Trimmed (t s : String) : Prop where
  split : ∃ front back, t = front ++ s ++ back ∧ IsBlank front ∧ IsBlank back
  bare_front : s.toList.head?.any isBlank = false
  bare_back : s.toList.getLast?.any isBlank = false

theorem head?_dropWhile {p : Char → Bool} {cs : List Char} :
    (cs.dropWhile p).head?.any p = false := by
  have hhead := List.head?_dropWhile_not p cs
  cases h : (cs.dropWhile p).head? with
  | none => rfl
  | some c => rwa [h] at hhead

theorem dropWhile_eq_self {p : Char → Bool} {cs : List Char} (h : cs.head?.any p = false) :
    cs.dropWhile p = cs := by
  cases cs with
  | nil => rfl
  | cons c cs => rw [List.dropWhile_cons_of_neg (by simpa using h)]

theorem dropRight_eq_self {p : Char → Bool} {cs : List Char} (h : cs.getLast?.any p = false) :
    dropRight p cs = cs := by
  rw [dropRight, dropWhile_eq_self (by rwa [List.head?_reverse]), List.reverse_reverse]

/-- Trimming leaves something trimmed. -/
theorem trimmed_trim (t : String) : Trimmed t (trim t) := by
  have hright := dropRight_append_takeRight isBlank (t.toList.dropWhile isBlank)
  refine ⟨⟨String.ofList (t.toList.takeWhile isBlank),
    String.ofList (takeRight isBlank (t.toList.dropWhile isBlank)), ?split, ?front, ?back⟩,
    ?first, ?last⟩
  case split =>
    rw [trim_eq_trimChars, ← String.ofList_append, ← String.ofList_append, List.append_assoc,
      trimChars, hright, List.takeWhile_append_dropWhile, String.ofList_toList]
  case front =>
    rw [IsBlank, String.toList_ofList]
    exact List.all_takeWhile
  case back =>
    rw [IsBlank, String.toList_ofList, takeRight, List.all_reverse]
    exact List.all_takeWhile
  case first =>
    rw [trim_eq_trimChars, String.toList_ofList, trimChars]
    -- what is cut off on the right leaves the first character, if it leaves anything
    have hhead : (t.toList.dropWhile isBlank).head?.any isBlank = false := head?_dropWhile
    rw [← hright, List.head?_append] at hhead
    cases h : (dropRight isBlank (t.toList.dropWhile isBlank)).head? with
    | none => rfl
    | some c => rwa [h] at hhead
  case last =>
    rw [trim_eq_trimChars, String.toList_ofList, trimChars, dropRight, List.getLast?_reverse]
    exact head?_dropWhile

/-- **What trimming leaves** is the only text that is bare at both ends and left of the text if
white space is taken off there. -/
theorem trim_eq_iff {t s : String} : trim t = s ↔ Trimmed t s := by
  refine ⟨fun h => h ▸ trimmed_trim t, fun h => ?_⟩
  obtain ⟨⟨front, back, rfl, hfront, hback⟩, hfirst, hlast⟩ := h
  rw [trim_eq_trimChars, ← String.toList_inj, String.toList_ofList, String.toList_append,
    String.toList_append, trimChars, List.append_assoc,
    List.dropWhile_append_of_pos (List.all_eq_true.mp hfront)]
  cases hs : s.toList with
  | nil =>
    rw [List.nil_append, List.dropWhile_eq_nil_iff.mpr (List.all_eq_true.mp hback)]
    rfl
  | cons c cs =>
    rw [hs] at hfirst hlast
    have hkeep : (c :: cs ++ back.toList).head?.any isBlank = false := hfirst
    have hcut : back.toList.all isBlank = true := hback
    rw [dropWhile_eq_self hkeep, dropRight_append, if_pos hcut, dropRight_eq_self hlast]

/-- Nothing is left of a text exactly if it is white space. -/
theorem Trimmed.eq_empty_iff {t s : String} (h : Trimmed t s) : s = "" ↔ IsBlank t := by
  obtain ⟨front, back, rfl, hfront, hback⟩ := h.split
  rw [isBlank_append, isBlank_append, and_iff_left hback, and_iff_right hfront]
  constructor
  · rintro rfl
    rfl
  · intro hs
    have hbare := h.bare_front
    rw [← String.toList_inj, String.toList_empty]
    cases hchars : s.toList with
    | nil => rfl
    | cons c cs =>
      rw [IsBlank, hchars, List.all_cons, Bool.and_eq_true] at hs
      rw [hchars, List.head?_cons, Option.any_some, hs.1] at hbare
      cases hbare

end Text

namespace Arena

variable {a b : Arena} {i : NodeId} {input s : String}

/-! ## The text below a node -/

/-- **There is text below a node** if its extent is inside the input and cuts no character. An
inverted extent counts as empty at its left end. -/
theorem isSome_underlyingText?_iff :
    (a.underlyingText? i input).isSome ↔
      ((a.node i).left ≤ input.utf8ByteSize ∧
          max (a.node i).left (a.node i).right ≤ input.utf8ByteSize) ∧
        Text.AtBoundary (a.node i).left input ∧
        Text.AtBoundary (max (a.node i).left (a.node i).right) input := by
  rw [underlyingText?, textRange, Option.isSome_map, Text.isSome_sliceBytes_iff]

/-- **The text below a node** is the part of the input from the left end of its extent to the right
one, trimmed. It is empty if that part is white space. -/
theorem underlyingText?_eq_some_iff :
    a.underlyingText? i input = some s ↔
      ∃ before slice after, input = before ++ slice ++ after ∧
        before.utf8ByteSize = (a.node i).left ∧
        (before ++ slice).utf8ByteSize = max (a.node i).left (a.node i).right ∧
        Text.Trimmed slice s ∧ (s = "" ↔ Text.IsBlank slice) := by
  have hle := Nat.le_max_left (a.node i).left (a.node i).right
  rw [underlyingText?, textRange, Option.map_eq_some_iff]
  simp only [Text.sliceBytes_eq_some_iff hle, Text.trim_eq_iff, String.utf8ByteSize_append]
  constructor
  · rintro ⟨slice, ⟨before, after, hinput, hleft, hslice⟩, hs⟩
    exact ⟨before, slice, after, hinput, hleft, by omega, hs, hs.eq_empty_iff⟩
  · rintro ⟨before, slice, after, hinput, hleft, hright, hs, -⟩
    exact ⟨slice, ⟨before, after, hinput, hleft, by omega⟩, hs⟩

/-! ## Relabelling -/

/-- `b` is `a` with another label at node `i`. -/
structure Relabelled (i : NodeId) (label : String) (a b : Arena) : Prop where
  node_eq : ∀ j, b.node j = if j = i then { a.node i with label } else a.node j
  size_eq : b.size = a.size
  stores_eq : b.stores = a.stores
  nextIdentity_eq : b.nextIdentity = a.nextIdentity

theorem relabelled_setLabel (hi : i < a.size) (label : String) :
    Relabelled i label a (a.setLabel i label) where
  node_eq j := by
    rw [setLabel, node_update]
    by_cases hij : i = j
    · subst hij
      rw [if_pos ⟨rfl, hi⟩, if_pos rfl]
    · rw [if_neg fun h => hij h.1, if_neg (Ne.symm hij)]
  size_eq := size_update ..
  stores_eq := rfl
  nextIdentity_eq := rfl

namespace Relabelled

variable {label : String}

/-- What a node covers does not depend on its label. -/
theorem underlyingText?_eq (h : Relabelled i label a b) :
    b.underlyingText? i input = a.underlyingText? i input := by
  rw [underlyingText?, underlyingText?, textRange, textRange, h.node_eq, if_pos rfl]

/-- Writing a label again changes nothing. -/
theorem setLabel_eq (h : Relabelled i label a b) : b.setLabel i label = b := by
  refine eq_of_node (size_update ..) (fun j => ?_) rfl rfl
  rw [setLabel, node_update]
  split
  · next hij => rw [← hij.1, h.node_eq, if_pos rfl]
  · rfl

end Relabelled

end Arena

namespace Edit

open Arena

variable {a : Arena} {i : NodeId} {input s : String}

theorem literal_apply_of_some (h : a.underlyingText? i input = some s) :
    literal.apply input a i = .ok (a.setLabel i s) i := by
  simp only [apply, h]

/-- Relabelling fails if there is no text to relabel with. -/
theorem literal_eq_error_iff {e : EditError} :
    (literal.apply input a i).result = .error e ↔
      a.underlyingText? i input = none ∧ e = .extentOutOfInput (a.node i).identity
        (a.node i).left (max (a.node i).left (a.node i).right) := by
  unfold apply
  dsimp only
  cases htext : a.underlyingText? i input with
  | none => simp [Outcome.fail, textRange, eq_comm]
  | some s => simp [Outcome.ok]

end Edit

namespace Action

open Arena

/-- **Relabelling by the input.** There is text below a node exactly if both ends of its extent are
inside the input and at boundaries between characters; an inverted extent is empty at its left end.
The text is the part of the input between them without the white space around it, and so it is
empty if there is nothing but white space. The action fails exactly if there is no text. Else it
writes the text to the label and changes nothing besides, and nothing at all if it is applied
again. -/
theorem literal_relabels (input : String) {a : Arena} {i : NodeId} (hi : i < a.size) :
    let left := (a.node i).left
    let right := max (a.node i).left (a.node i).right
    ((a.underlyingText? i input).isSome ↔
      (left ≤ input.utf8ByteSize ∧ right ≤ input.utf8ByteSize) ∧
        Text.AtBoundary left input ∧ Text.AtBoundary right input) ∧
    (∀ s, a.underlyingText? i input = some s ↔
      ∃ before slice after, input = before ++ slice ++ after ∧ before.utf8ByteSize = left ∧
        (before ++ slice).utf8ByteSize = right ∧ Text.Trimmed slice s ∧
        (s = "" ↔ Text.IsBlank slice)) ∧
    (∀ e, ((edit .literal).apply input a i).result = .error e ↔
      a.underlyingText? i input = none ∧
        e = .extentOutOfInput (a.node i).identity left right) ∧
    ∀ s, a.underlyingText? i input = some s →
      ∃ b, (edit .literal).apply input a i = .ok b i ∧ Relabelled i s a b ∧
        (edit .literal).apply input b i = .ok b i := by
  refine ⟨isSome_underlyingText?_iff, fun s => underlyingText?_eq_some_iff,
    fun e => Edit.literal_eq_error_iff, fun s hs => ?_⟩
  have hrelabelled := relabelled_setLabel hi s
  have hagain : (a.setLabel i s).underlyingText? i input = some s :=
    hrelabelled.underlyingText?_eq.trans hs
  refine ⟨a.setLabel i s, Edit.literal_apply_of_some hs, hrelabelled, ?_⟩
  exact (Edit.literal_apply_of_some hagain).trans
    (congrArg (Outcome.ok · i) hrelabelled.setLabel_eq)

/-- White space of one, of two and of three bytes, around a letter of two bytes. -/
def wideBlanks : String :=
  " \u3000\u00e9\u00a0b"

/-- A node that covers the letter with the white space around it, one that begins inside the
letter, and one whose extent is inverted. -/
def lettered : Arena :=
  Command.runAll [.make "all" .terminal 0 8, .make "cut" .terminal 5 9,
    .make "inverted" .terminal 4 1] {}

/-- The letter is what is left of the first extent, and relabelling with it leaves the label of the
other nodes alone. The second extent cuts the letter, and the third one is empty. -/
theorem literal_relabels_lettered :
    0 < lettered.size ∧ 1 < lettered.size ∧ 2 < lettered.size ∧
      (∃ b, (edit .literal).apply wideBlanks lettered 0 = .ok b 0 ∧
        (b.node 0).label = "\u00e9" ∧ (b.node 1).label = "cut" ∧
        (edit .literal).apply wideBlanks b 0 = .ok b 0) ∧
      ((edit .literal).apply wideBlanks lettered 1).result = .error (.extentOutOfInput 1 5 9) ∧
      lettered.underlyingText? 2 wideBlanks = some "" := by
  have h0 : 0 < lettered.size := by decide
  have h1 : 1 < lettered.size := by decide
  have h2 : 2 < lettered.size := by decide
  refine ⟨h0, h1, h2, ?letter, ?cut, ?inverted⟩
  case letter =>
    obtain ⟨-, htext, -, hrelabel⟩ := literal_relabels wideBlanks h0
    have htrimmed : Text.Trimmed " \u3000\u00e9\u00a0" "\u00e9" :=
      ⟨⟨" \u3000", "\u00a0", by decide, by decide, by decide⟩, by decide, by decide⟩
    obtain ⟨b, hok, hb, hagain⟩ := hrelabel "\u00e9"
      ((htext _).mpr ⟨"", " \u3000\u00e9\u00a0", "b", by decide, by decide, by decide, htrimmed,
        htrimmed.eq_empty_iff⟩)
    refine ⟨b, hok, ?_, ?_, hagain⟩
    · rw [hb.node_eq, if_pos rfl]
    · rw [hb.node_eq, if_neg (by decide)]
      decide
  case cut =>
    obtain ⟨hsome, -, herror, -⟩ := literal_relabels wideBlanks h1
    have hno : ¬ Text.AtBoundary 5 wideBlanks := fun h => absurd (h (by decide)) (by decide)
    refine (herror _).mpr ⟨?_, by decide⟩
    rw [← Option.not_isSome_iff_eq_none, hsome]
    exact fun h => hno h.2.1
  case inverted =>
    obtain ⟨-, htext, -, -⟩ := literal_relabels wideBlanks h2
    have htrimmed : Text.Trimmed "" "" :=
      ⟨⟨"", "", by decide, by decide, by decide⟩, by decide, by decide⟩
    exact (htext "").mpr ⟨" \u3000", "", "\u00e9\u00a0b", by decide, by decide, by decide,
      htrimmed, htrimmed.eq_empty_iff⟩

end Action

end ParseTree
