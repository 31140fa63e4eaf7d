import ParseTree.Event
import ParseTree.Forest.Basic
import ParseTree.Text.Decimal
import Std.Data.HashMap.Lemmas

/-!
# Counting derivations

A leaf has one derivation. A derivation of an inner node is the choice of one of its active packs
with a derivation of each part, so the count of a pack is the product of the counts of its parts and
the count of a node is the sum over its active packs. Shared nodes are counted once: a memo keeps
what is known. A node that is met again while it is being counted lies on a cycle, and then the
forest has no finite count.

Counting is a loop over a stack that has one frame for each node being counted, the innermost first.
A round takes up the next pack of the innermost node. If a part of the pack has no count yet, that
part is entered, and the pack will be taken up again; else the pack is added to the total. A node
without further packs has its count. The loop ends because each round uses up some of `potential`:
entering a node pays for the rounds that its frame will take, and no node is entered twice.

Packs are taken in order and the left part before the right one, so the first node that is met again
is the one that the error names.

## Main results

* `round_of_eq_ok`, `exists_of_round_eq_error`: what a round does, and where it fails.
* `Round.potential_lt`: every round uses up potential.
* `finish_of_stack_eq_nil`, `finish_of_round_eq_ok`, `finish_of_round_eq_error`: the equations of
  the loop.
-/

namespace ParseTree

/-- Why derivations cannot be counted. -/
inductive CountError where
  | invalidParse
  /-- The node is reached from itself. -/
  | cyclicForest (node : Nat)
  deriving DecidableEq, Repr

/-- The text of a counting error. -/
def CountError.message : CountError → String
  | invalidParse => "cannot count derivations without a valid parse"
  | cyclicForest i => "forest contains a cycle through " ++ toString i

/-- What is noted about a node that was met. -/
inductive Mark where
  /-- The node is being counted. -/
  | counting
  | counted (count : Nat)
  deriving DecidableEq, Repr

/-- The count that was noted, if the node is not being counted. -/
def Mark.count? : Mark → Option Nat
  | counting => none
  | counted count => some count

/-- What is known about nodes, by their numbers. -/
abbrev Memo := Std.HashMap Nat Mark

/-- The count of node `i`, if it is known. -/
def Memo.count? (memo : Memo) (i : Nat) : Option Nat :=
  memo[i]?.bind Mark.count?

/-- A node that is being counted: its packs from the one to be added next on, and the sum over those
before. -/
structure Frame where
  node : Nat
  packs : List Pack
  total : Nat := 0

/-- The state of a count: the nodes that are being counted, innermost first, and what is known. -/
structure Tally where
  stack : List Frame
  memo : Memo

/-- The list from its first active pack on. -/
def unsuppressed (packs : List Pack) : List Pack :=
  packs.dropWhile Pack.suppressed

/-- The product of the counts of the parts of a pack. -/
def Pack.contribution (memo : Memo) (p : Pack) : Nat :=
  match p.left with
  | some left => (memo.count? left).getD 0 * (memo.count? p.right).getD 0
  | none => (memo.count? p.right).getD 0

namespace Forest

/-- Begin to count node `i`. A leaf is counted right away. -/
def enter (f : Forest) (i : Nat) (t : Tally) : Tally :=
  if f.arity i = 0 then { t with memo := t.memo.insert i (.counted 1) }
  else ⟨{ node := i, packs := unsuppressed (f.packsOf i) } :: t.stack, t.memo.insert i .counting⟩

/-- One round. The error is a part that was met while it was being counted. -/
def round (f : Forest) : Tally → Except Nat Tally
  | ⟨[], memo⟩ => .ok ⟨[], memo⟩
  | ⟨⟨i, [], total⟩ :: rest, memo⟩ => .ok ⟨rest, memo.insert i (.counted total)⟩
  | ⟨⟨i, p :: later, total⟩ :: rest, memo⟩ =>
    match p.parts.find? fun j => (memo.count? j).isNone with
    | some j =>
      if memo.contains j then .error j
      else .ok (f.enter j ⟨⟨i, p :: later, total⟩ :: rest, memo⟩)
    | none => .ok ⟨⟨i, unsuppressed later, total + p.contribution memo⟩ :: rest, memo⟩

/-- What a round does to a stack that is not empty. -/
inductive Round (f : Forest) : Tally → Tally → Prop
  /-- The innermost node has its count. -/
  | pop (i total : Nat) (rest : List Frame) (memo : Memo) :
    Round f ⟨⟨i, [], total⟩ :: rest, memo⟩ ⟨rest, memo.insert i (.counted total)⟩
  /-- A part of the next pack is met for the first time. -/
  | enter {j : Nat} {p : Pack} {memo : Memo} (hj : j ∈ p.parts) (hnew : ¬ memo.contains j)
      (i total : Nat) (later : List Pack) (rest : List Frame) :
    Round f ⟨⟨i, p :: later, total⟩ :: rest, memo⟩
      (f.enter j ⟨⟨i, p :: later, total⟩ :: rest, memo⟩)
  /-- All parts of the next pack have counts. -/
  | add {p : Pack} {memo : Memo} (hparts : ∀ j ∈ p.parts, (memo.count? j).isSome)
      (i total : Nat) (later : List Pack) (rest : List Frame) :
    Round f ⟨⟨i, p :: later, total⟩ :: rest, memo⟩
      ⟨⟨i, unsuppressed later, total + p.contribution memo⟩ :: rest, memo⟩

theorem round_of_eq_ok {f : Forest} {t t' : Tally} (hstack : t.stack ≠ [])
    (h : f.round t = .ok t') : f.Round t t' := by
  obtain ⟨_ | ⟨⟨i, _ | ⟨p, later⟩, total⟩, rest⟩, memo⟩ := t
  · exact absurd rfl hstack
  · cases h
    exact .pop ..
  rw [round] at h
  split at h
  · next j hj =>
    split at h
    · cases h
    · next hnew =>
      cases h
      exact .enter (List.mem_of_find?_eq_some hj) hnew ..
  · next hnone =>
    cases h
    refine .add (fun j hj => ?_) ..
    simpa [Option.isSome_iff_ne_none] using List.find?_eq_none.mp hnone j hj

/-- A round fails at a part that has been met and has no count. -/
theorem exists_of_round_eq_error {f : Forest} {t : Tally} {j : Nat} (h : f.round t = .error j) :
    ∃ i p later total rest, t.stack = ⟨i, p :: later, total⟩ :: rest ∧ j ∈ p.parts ∧
      t.memo.contains j ∧ t.memo.count? j = none := by
  obtain ⟨_ | ⟨⟨i, _ | ⟨p, later⟩, total⟩, rest⟩, memo⟩ := t
  · cases h
  · cases h
  rw [round] at h
  split at h
  · next k hk =>
    split at h
    · next hmet =>
      cases h
      refine ⟨i, p, later, total, rest, rfl, List.mem_of_find?_eq_some hk, hmet, ?_⟩
      simpa using List.find?_some hk
    · cases h
  · cases h

/-! ## The rounds that are left -/

-- `potential` has to mean the same with and without an algebraic hierarchy in scope, so the sums in
-- this section take their zero from here.
local instance : Zero Nat := Zero.ofOfNat0

section Sums

-- The core library adds up lists and does not compare the sums.

variable {α : Type} {l : List α} {g h : α → Nat} {x : α} {d : Nat}

theorem sum_map_le (hle : ∀ x ∈ l, g x ≤ h x) : (l.map g).sum ≤ (l.map h).sum := by
  induction l with
  | nil => exact Nat.le_refl _
  | cons x l ih =>
    have hrest := ih fun y hy => hle y (List.mem_cons_of_mem _ hy)
    rw [List.map_cons, List.map_cons, List.sum_cons, List.sum_cons]
    exact Nat.add_le_add (hle x List.mem_cons_self) hrest

/-- What one member gains the sum gains. -/
theorem sum_map_add_le (hle : ∀ y ∈ l, g y ≤ h y) (hx : x ∈ l) (hd : g x + d ≤ h x) :
    (l.map g).sum + d ≤ (l.map h).sum := by
  obtain ⟨before, after, rfl⟩ := List.append_of_mem hx
  have hbefore := sum_map_le (l := before) fun y hy => hle y (by simp [hy])
  have hafter := sum_map_le (l := after) fun y hy => hle y (by simp [hy])
  simp only [List.map_append, List.map_cons, List.sum_append_nat, List.sum_cons]
  omega

end Sums

/-- The rounds that a part may still take: one to enter it, if it has no count yet. -/
def partPotential (memo : Memo) (j : Nat) : Nat :=
  if (memo.count? j).isSome then 0 else 1

/-- The rounds that a pack may still take: those for its parts, and one to add it. -/
def packPotential (memo : Memo) (p : Pack) : Nat :=
  1 + (p.parts.map (partPotential memo)).sum

/-- The rounds that a frame may still take, apart from those of the nodes entered from it. -/
def framePotential (memo : Memo) (frame : Frame) : Nat :=
  1 + (frame.packs.map (packPotential memo)).sum

/-- What entering a node pays for, if it has not been entered yet. -/
def nodePotential (f : Forest) (memo : Memo) (i : Nat) : Nat :=
  if memo.contains i then 0 else 2 + 3 * (f.packsOf i).length

/-- **A bound on the rounds** that a count may still take. -/
def potential (f : Forest) (t : Tally) : Nat :=
  ((List.range f.nodes.size).map (f.nodePotential t.memo)).sum +
    (t.stack.map (framePotential t.memo)).sum

/-- A memo that knows at least as much. -/
structure Extends (memo memo' : Memo) : Prop where
  contains : ∀ i, memo.contains i → memo'.contains i
  count? : ∀ i, (memo.count? i).isSome → (memo'.count? i).isSome

theorem count?_insert (memo : Memo) (i j : Nat) (m : Mark) :
    Memo.count? (memo.insert i m) j = if i = j then m.count? else memo.count? j := by
  by_cases hij : i = j
  · simp [Memo.count?, hij]
  · simp [Memo.count?, Std.HashMap.getElem?_insert, hij]

theorem contains_of_count? {memo : Memo} {i : Nat} (h : (memo.count? i).isSome) :
    memo.contains i := by
  rw [Std.HashMap.contains_eq_isSome_getElem?]
  rw [Memo.count?] at h
  cases hm : memo[i]? <;> simp_all

theorem extends_insert_counted (memo : Memo) (i n : Nat) :
    Extends memo (memo.insert i (.counted n)) where
  contains j hj := by simp [Std.HashMap.contains_insert, hj]
  count? j hj := by
    rw [count?_insert]
    split
    · rfl
    · exact hj

theorem extends_insert_counting {memo : Memo} {i : Nat} (hi : ¬ memo.contains i) :
    Extends memo (memo.insert i .counting) where
  contains j hj := by simp [Std.HashMap.contains_insert, hj]
  count? j hj := by
    rw [count?_insert, if_neg]
    · exact hj
    · rintro rfl
      exact hi (contains_of_count? hj)

namespace Extends

variable {memo memo' : Memo}

theorem partPotential_le (h : Extends memo memo') (j : Nat) :
    partPotential memo' j ≤ partPotential memo j := by
  unfold partPotential
  have hj := h.count? j
  split <;> simp_all

theorem packPotential_le (h : Extends memo memo') (p : Pack) :
    packPotential memo' p ≤ packPotential memo p :=
  Nat.add_le_add_left (sum_map_le fun j _ => h.partPotential_le j) 1

theorem framePotential_le (h : Extends memo memo') (frame : Frame) :
    framePotential memo' frame ≤ framePotential memo frame :=
  Nat.add_le_add_left (sum_map_le fun p _ => h.packPotential_le p) 1

theorem nodePotential_le (h : Extends memo memo') (f : Forest) (i : Nat) :
    f.nodePotential memo' i ≤ f.nodePotential memo i := by
  unfold nodePotential
  have hi := h.contains i
  split <;> simp_all

/-- What is known costs nothing. -/
theorem potential_le (h : Extends memo memo') (f : Forest) (stack : List Frame) :
    f.potential ⟨stack, memo'⟩ ≤ f.potential ⟨stack, memo⟩ :=
  Nat.add_le_add (sum_map_le fun i _ => h.nodePotential_le f i)
    (sum_map_le fun frame _ => h.framePotential_le frame)

end Extends

section Rounds

variable {f : Forest} {memo : Memo} {i j total : Nat} {p : Pack} {packs : List Pack}
  {rest : List Frame}

theorem framePotential_pos (memo : Memo) (frame : Frame) : 0 < framePotential memo frame :=
  Nat.lt_of_lt_of_le Nat.zero_lt_one (Nat.le_add_right ..)

theorem packPotential_le_three (memo : Memo) (p : Pack) : packPotential memo p ≤ 3 := by
  have hone : ∀ j, partPotential memo j ≤ 1 := fun j => by unfold partPotential; split <;> simp
  have hright := hone p.right
  rw [packPotential, Pack.parts]
  cases hleft : p.left with
  | none => simp; omega
  | some left =>
    have hleft := hone left
    simp
    omega

theorem sum_unsuppressed_le (g : Pack → Nat) (packs : List Pack) :
    ((unsuppressed packs).map g).sum ≤ (packs.map g).sum := by
  have happend : packs.takeWhile Pack.suppressed ++ unsuppressed packs = packs :=
    List.takeWhile_append_dropWhile
  rw [← congrArg (fun l => (l.map g).sum) happend, List.map_append, List.sum_append_nat]
  exact Nat.le_add_left ..

/-- A new frame costs at most three rounds for each pack. -/
theorem framePotential_unsuppressed_le (memo : Memo) (i total : Nat) (packs : List Pack) :
    framePotential memo ⟨i, unsuppressed packs, total⟩ ≤ 1 + 3 * packs.length := by
  refine Nat.add_le_add_left ?_ 1
  calc ((unsuppressed packs).map (packPotential memo)).sum
    _ ≤ (packs.map (packPotential memo)).sum := sum_unsuppressed_le ..
    _ ≤ (packs.map fun _ => 3).sum := sum_map_le fun p _ => packPotential_le_three memo p
    _ = 3 * packs.length := by rw [List.map_const', List.sum_replicate_nat, Nat.mul_comm]

/-- Numbers that name no node are leaves. -/
theorem lt_size_of_arity_ne_zero (h : f.arity i ≠ 0) : i < f.nodes.size := by
  by_cases hi : i < f.nodes.size
  · exact hi
  · simp [arity, node, hi, blankNode] at h

/-- A node with a count can be popped. -/
theorem potential_pop_lt (f : Forest) (frame : Frame) (rest : List Frame) (memo : Memo)
    (i n : Nat) :
    f.potential ⟨rest, memo.insert i (.counted n)⟩ < f.potential ⟨frame :: rest, memo⟩ := by
  have hle := (extends_insert_counted memo i n).potential_le f rest
  have hpos := framePotential_pos memo frame
  simp only [potential, List.map_cons, List.sum_cons] at hle ⊢
  omega

/-- A part that gets its count is not entered again. -/
theorem packPotential_insert_lt (hj : j ∈ p.parts) (hnew : ¬ memo.contains j) (n : Nat) :
    packPotential (memo.insert j (.counted n)) p < packPotential memo p := by
  have hext := extends_insert_counted memo j n
  have hpart : partPotential (memo.insert j (.counted n)) j + 1 ≤ partPotential memo j := by
    have hnone : ¬ (memo.count? j).isSome := fun h => hnew (contains_of_count? h)
    simp [partPotential, count?_insert, Mark.count?, hnone]
  have hsum := sum_map_add_le (fun j _ => hext.partPotential_le j) hj hpart
  unfold packPotential
  omega

/-- What the node set aside pays for its frame. -/
theorem sum_nodePotential_insert_le (harity : f.arity j ≠ 0) (hnew : ¬ memo.contains j) :
    ((List.range f.nodes.size).map (f.nodePotential (memo.insert j .counting))).sum +
        (2 + 3 * (f.packsOf j).length) ≤
      ((List.range f.nodes.size).map (f.nodePotential memo)).sum := by
  have hext := extends_insert_counting hnew
  refine sum_map_add_le (fun i _ => hext.nodePotential_le f i)
    (List.mem_range.mpr (lt_size_of_arity_ne_zero harity)) ?_
  simp [nodePotential, hnew]

/-- A part is entered at most once. -/
theorem potential_enter_lt (hj : j ∈ p.parts) (hnew : ¬ memo.contains j) :
    f.potential (f.enter j ⟨⟨i, p :: packs, total⟩ :: rest, memo⟩) <
      f.potential ⟨⟨i, p :: packs, total⟩ :: rest, memo⟩ := by
  unfold enter
  split
  · have hext := extends_insert_counted memo j 1
    have hpack := packPotential_insert_lt hj hnew 1
    have hpacks := sum_map_le (l := packs) fun q _ => hext.packPotential_le q
    have hrest := hext.potential_le f rest
    simp only [potential, framePotential, List.map_cons, List.sum_cons] at hrest ⊢
    omega
  · next harity =>
    have hext := extends_insert_counting hnew
    have hnodes := sum_nodePotential_insert_le harity hnew
    have hframe := framePotential_unsuppressed_le (memo.insert j .counting) j 0 (f.packsOf j)
    have hframes := sum_map_le (l := ⟨i, p :: packs, total⟩ :: rest)
      fun frame _ => hext.framePotential_le frame
    simp only [potential, List.map_cons, List.sum_cons] at hframes ⊢
    omega

/-- A pack is added once. -/
theorem potential_add_lt (f : Forest) (total' : Nat) :
    f.potential ⟨⟨i, unsuppressed packs, total'⟩ :: rest, memo⟩ <
      f.potential ⟨⟨i, p :: packs, total⟩ :: rest, memo⟩ := by
  have hpacks := sum_unsuppressed_le (packPotential memo) packs
  have hpos : 0 < packPotential memo p := Nat.lt_of_lt_of_le Nat.zero_lt_one (Nat.le_add_right ..)
  simp only [potential, framePotential, List.map_cons, List.sum_cons]
  omega

end Rounds

/-- **Every round uses up potential.** -/
theorem Round.potential_lt {f : Forest} {t t' : Tally} (h : f.Round t t') :
    f.potential t' < f.potential t := by
  cases h with
  | pop => exact f.potential_pop_lt ..
  | enter hj hnew => exact potential_enter_lt hj hnew
  | add => exact f.potential_add_lt ..

/-- Take rounds until the stack is empty or a part lies on a cycle. -/
def finish (f : Forest) (t : Tally) : Except Nat Memo :=
  if _ : t.stack = [] then .ok t.memo
  else
    match _ : f.round t with
    | .error j => .error j
    | .ok t' => f.finish t'
termination_by f.potential t
decreasing_by exact (round_of_eq_ok ‹_› ‹_›).potential_lt

section Finish

variable {f : Forest} {t t' : Tally} {j : Nat}

theorem finish_of_stack_eq_nil (h : t.stack = []) : f.finish t = .ok t.memo := by
  rw [finish, dif_pos h]

theorem finish_of_round_eq_ok (hstack : t.stack ≠ []) (h : f.round t = .ok t') :
    f.finish t = f.finish t' := by
  rw [finish, dif_neg hstack]
  split <;> simp_all

theorem finish_of_round_eq_error (hstack : t.stack ≠ []) (h : f.round t = .error j) :
    f.finish t = .error j := by
  rw [finish, dif_neg hstack]
  split <;> simp_all

end Finish

/-- Count the derivations of node `root`, with what is known to begin with. The error is a node that
was met while it was being counted. -/
def countFrom (f : Forest) (root : Nat) (memo : Memo) : Except Nat Nat :=
  (f.finish (f.enter root ⟨[], memo⟩)).map fun memo => (memo.count? root).getD 0

end Forest

/-- A forest with the memo of its counts, which is empty between them. -/
structure Counter where
  forest : Forest
  memo : Memo := {}

/-- What a count gives: its result, the counter afterwards and the events. -/
structure CountOutcome where
  result : Except CountError Nat
  counter : Counter
  log : List Event

namespace Counter

/-- A counter that knows nothing about the nodes of its forest. -/
@[inline] def cleared (c : Counter) : Counter :=
  { c with memo := {} }

/-- Refuse to count without a valid parse. -/
def refused (c : Counter) : CountOutcome :=
  ⟨.error .invalidParse, c, [⟨.warn, "attempting to count without a valid parse", []⟩]⟩

/-- Count the derivations below `root`. The memo is cleared before and after. -/
def countDerivations (c : Counter) (root : Nat) (validParse : Bool) : CountOutcome :=
  if validParse then
    let c := c.cleared
    match c.forest.countFrom root c.memo with
    | .error i => ⟨.error (.cyclicForest i), c.cleared, []⟩
    | .ok count =>
      ⟨.ok count, c.cleared, [⟨.trace, "counted derivations",
        [("count", Text.decimal count), ("root", toString root)]⟩]⟩
  else c.refused

/-- Count the derivations of the input, if it was accepted. -/
def count (c : Counter) : CountOutcome :=
  match c.forest.accepted with
  | some root => c.countDerivations root true
  | none => c.refused

end Counter

/-- Count the derivations of an input with a new counter. -/
def Forest.count (f : Forest) : CountOutcome :=
  Counter.count { forest := f }

end ParseTree
