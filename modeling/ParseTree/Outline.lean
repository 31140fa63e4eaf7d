import ParseTree.Arena.Links
import ParseTree.Text.Blank
import ParseTree.Text.Slice

/-!
# Trees from outlines

An outline is a tree of labels over tokens. Laying it out writes the tokens one after the other,
each followed by a blank, and makes a node for every part of the outline that spans the tokens below
it. The end of a part is the end of the text without the white space behind it.

## Main results

* `trimmed_layOut`: the length that a layout keeps is that of its text trimmed on the right.
-/

namespace ParseTree

/-- A token, or a label over parts. -/
inductive Outline where
  | token (text : String)
  | group (label : String) (parts : List Outline)
  deriving Repr

/-- An arena and a text that are being written. -/
structure Layout where
  arena : Arena
  input : String := ""
  /-- The number of bytes of the text without the white space at its end. -/
  filled : Nat := 0

namespace Layout

/-- The bytes of a text without the white space at its end. -/
def trimmedSize (cs : List Char) : Nat :=
  Text.byteLength (Text.dropRight Text.isBlank cs)

/-- Write a text behind the input. A text that is all white space does not move the end of what is
filled. -/
def write (l : Layout) (text : String) : Layout :=
  { l with
    input := l.input ++ text
    filled :=
      if text.toList.all Text.isBlank then l.filled
      else l.input.utf8ByteSize + trimmedSize text.toList }

end Layout

mutual

/-- Lay an outline out behind the input and give its node. -/
def Outline.layOut : Outline → Layout → NodeId × Layout
  | .token text, l =>
    let left := l.input.utf8ByteSize
    let l := l.write text
    let (id, arena) := l.arena.make text .caseSensitiveTerminal left l.input.utf8ByteSize
    (id, { l with arena }.write " ")
  | .group label parts, l =>
    let left := l.input.utf8ByteSize
    let (id, arena) := l.arena.make label .nonTerminal left left
    let l := Outline.layOutBelow id parts { l with arena }
    (id, { l with arena := l.arena.setRight id (max left l.filled) })

/-- Lay outlines out in turn and append their nodes to the children of `parent`. -/
def Outline.layOutBelow (parent : NodeId) : List Outline → Layout → Layout
  | [], l => l
  | o :: rest, l =>
    let (child, l) := Outline.layOut o l
    Outline.layOutBelow parent rest { l with arena := l.arena.addChild parent child }

end

/-! ## The filled part of a text -/

namespace Layout

/-- Whether the length that is kept is that of the text trimmed on the right. -/
def Trimmed (l : Layout) : Prop :=
  l.filled = trimmedSize l.input.toList

theorem trimmed_write {l : Layout} (h : l.Trimmed) (text : String) : (l.write text).Trimmed := by
  simp only [Trimmed, write, trimmedSize, String.toList_append, Text.dropRight_append] at h ⊢
  split
  · exact h
  · rw [Text.byteLength_append, Text.byteLength_toList]

theorem trimmed_of_eq {l m : Layout} (h : l.Trimmed) (hi : m.input = l.input)
    (hf : m.filled = l.filled) : m.Trimmed := by
  rw [Trimmed, hi, hf]
  exact h

end Layout

mutual

/-- **The filled length** that a layout keeps is that of its text trimmed on the right. -/
theorem Outline.trimmed_layOut :
    ∀ (o : Outline) {l : Layout}, l.Trimmed → (o.layOut l).2.Trimmed
  | .token text, l, h => by
    rw [Outline.layOut]
    exact Layout.trimmed_write
      (Layout.trimmed_of_eq (Layout.trimmed_write h text) rfl rfl) " "
  | .group label parts, l, h => by
    let below := (l.arena.make label .nonTerminal l.input.utf8ByteSize l.input.utf8ByteSize)
    have h' : (Outline.layOutBelow below.1 parts { l with arena := below.2 }).Trimmed :=
      Outline.trimmed_layOutBelow _ parts (Layout.trimmed_of_eq h rfl rfl)
    rw [Outline.layOut]
    exact Layout.trimmed_of_eq h' rfl rfl

theorem Outline.trimmed_layOutBelow (parent : NodeId) :
    ∀ (parts : List Outline) {l : Layout},
      l.Trimmed → (Outline.layOutBelow parent parts l).Trimmed
  | [], _, h => h
  | o :: rest, l, h => by
    rw [Outline.layOutBelow]
    exact Outline.trimmed_layOutBelow parent rest
      (Layout.trimmed_of_eq (Outline.trimmed_layOut o h) rfl rfl)

end

end ParseTree
