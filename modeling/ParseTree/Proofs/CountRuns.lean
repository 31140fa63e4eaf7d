import Mathlib.Data.List.Chain
import ParseTree.Forest.Counting
import ParseTree.Proofs.DerivationTrees

/-!
# What counting gives

The nodes on the stack of a count are a path: the next pack of each frame has the node of the frame
above it as a part. So a part that is met again while it is being counted closes a cycle. What the
memo notes about other nodes is final. If a node has a count, then links from it come to an end and
the count is the number of its derivations, and so the total of a frame is right for the packs that
were added. `Tally.Sound` says all this of the state of a count. Every round keeps it, and so does a
whole run.

## Main results

* `Forest.halts_finish`: counting takes no more rounds than there is potential.
* `Tally.Sound.round`: a round keeps the state sound.
* `Tally.Sound.onCycle`: a round that is stuck is stuck on a cycle.
* `Forest.Halts.answers`: what a run gives is the number of derivations, or lies on a cycle.
-/

namespace ParseTree

open Forest

variable {f : Forest} {t t' : Tally} {i j root : Nat} {frame : Frame}

/-! ## Runs -/

namespace Forest

/-- The loop ends after `n` rounds, with a memo or at a part that lies on a cycle. -/
inductive Halts (f : Forest) : Tally → Nat → Except Nat Memo → Prop
  | done (memo : Memo) : Halts f ⟨[], memo⟩ 0 (.ok memo)
  | stuck {t : Tally} {j : Nat} (h : f.round t = .error j) : Halts f t 1 (.error j)
  | round {t t' : Tally} {n : Nat} {out : Except Nat Memo} (hstack : t.stack ≠ [])
    (h : f.round t = .ok t') (hrest : Halts f t' n out) : Halts f t (n + 1) out

/-- **Counting takes no more rounds than there is potential.** -/
theorem halts_finish (f : Forest) (t : Tally) : ∃ n ≤ f.potential t, f.Halts t n (f.finish t) := by
  induction t using finish.induct f with
  | case1 t hstack =>
    obtain ⟨stack, memo⟩ := t
    obtain rfl : stack = [] := hstack
    rw [finish_of_stack_eq_nil rfl]
    exact ⟨0, Nat.zero_le _, .done memo⟩
  | case2 t hstack j hround =>
    rw [finish_of_round_eq_error hstack hround]
    refine ⟨1, ?_, .stuck hround⟩
    obtain ⟨i, p, later, total, rest, heq, -⟩ := exists_of_round_eq_error hround
    have hpos := framePotential_pos t.memo ⟨i, p :: later, total⟩
    rw [potential, heq, List.map_cons, List.sum_cons]
    omega
  | case3 t hstack t' hround ih =>
    obtain ⟨n, hle, hhalts⟩ := ih
    have hlt := (round_of_eq_ok hstack hround).potential_lt
    rw [finish_of_round_eq_ok hstack hround]
    exact ⟨n + 1, by omega, .round hstack hround hhalts⟩

end Forest

/-! ## Frames -/

namespace Frame

/-- Node `j` is a part of the next pack. -/
def Awaits (frame : Frame) (j : Nat) : Prop :=
  ∃ p ∈ frame.packs.head?, j ∈ p.parts

/-- The packs of an inner node are those that were added, which have the total as their number of
derivations, and those that come next. -/
structure Sound (f : Forest) (frame : Frame) : Prop where
  arity_ne_zero : f.arity frame.node ≠ 0
  next_active : ∀ p ∈ frame.packs.head?, p.suppressed = false
  split : ∃ added, f.activePacks frame.node = added ++ frame.packs.filter (!·.suppressed) ∧
    (∀ p ∈ added, ∀ j ∈ p.parts, f.Ends j) ∧ frame.total = (added.map f.packCard).sum

theorem Sound.leads (h : frame.Sound f) (hj : frame.Awaits j) : f.Leads frame.node j := by
  obtain ⟨p, hp, hjp⟩ := hj
  obtain ⟨added, hpacks, -⟩ := h.split
  refine ⟨h.arity_ne_zero, p, ?_, hjp⟩
  rw [hpacks, List.mem_append, List.mem_filter]
  exact .inr ⟨List.mem_of_mem_head? hp, by simp [h.next_active p hp]⟩

theorem filter_unsuppressed (packs : List Pack) :
    (unsuppressed packs).filter (!·.suppressed) = packs.filter (!·.suppressed) := by
  induction packs with
  | nil => rfl
  | cons p packs ih =>
    cases hp : p.suppressed with
    | true => simpa [unsuppressed, hp] using ih
    | false => simp [unsuppressed, hp]

theorem suppressed_of_mem_head? {packs : List Pack} :
    ∀ p ∈ (unsuppressed packs).head?, p.suppressed = false := by
  intro p hp
  have hnot := List.head?_dropWhile_not Pack.suppressed packs
  rw [← unsuppressed, Option.mem_def.mp hp] at hnot
  exact hnot

/-- Nothing has been added in a new frame. -/
theorem sound_enter (h : f.arity i ≠ 0) :
    Sound f { node := i, packs := unsuppressed (f.packsOf i) } where
  arity_ne_zero := h
  next_active := suppressed_of_mem_head?
  split := ⟨[], by simp [filter_unsuppressed, activePacks], by simp, rfl⟩

/-- The next pack is added. -/
theorem Sound.add {p : Pack} {later : List Pack} {total : Nat}
    (h : Sound f ⟨i, p :: later, total⟩) (hends : ∀ j ∈ p.parts, f.Ends j) :
    Sound f ⟨i, unsuppressed later, total + f.packCard p⟩ where
  arity_ne_zero := h.arity_ne_zero
  next_active := suppressed_of_mem_head?
  split := by
    obtain ⟨added, hpacks, hadded, htotal⟩ := h.split
    have hp : p.suppressed = false := h.next_active p rfl
    refine ⟨added ++ [p], ?_, ?_, ?_⟩
    · simp [hpacks, hp, filter_unsuppressed]
    · simpa [or_imp, forall_and] using ⟨hadded, hends⟩
    · simpa using htotal

/-- The total of a frame without further packs is the count of its node. -/
theorem Sound.card {total : Nat} (h : Sound f ⟨i, [], total⟩) :
    f.Ends i ∧ Nat.card (f.Derivation i) = total := by
  obtain ⟨added, hpacks, hadded, htotal⟩ := h.split
  rw [List.filter_nil, List.append_nil] at hpacks
  have hends : f.Ends i := .of_parts (hpacks ▸ hadded)
  refine ⟨hends, ?_⟩
  rw [card_derivation_inner h.arity_ne_zero hends, hpacks]
  exact htotal.symm

end Frame

/-! ## States -/

namespace Tally

/-- **The invariant of a count.** -/
structure Sound (f : Forest) (t : Tally) : Prop where
  frames : ∀ frame ∈ t.stack, frame.Sound f
  /-- The stack is a path, downwards from its end. -/
  path : t.stack.IsChain fun upper lower => lower.Awaits upper.node
  /-- A node without a count is met only while it is being counted. -/
  counting : ∀ j, t.memo.contains j → t.memo.count? j = none → ∃ frame ∈ t.stack, frame.node = j
  counted : ∀ j n, t.memo.count? j = some n → f.Ends j ∧ Nat.card (f.Derivation j) = n

/-- The count is that of `root`, which is the first node on the stack. -/
structure From (root : Nat) (t : Tally) : Prop where
  met : t.memo.contains root
  first : ∀ i ∈ (t.stack.map Frame.node).getLast?, i = root

theorem sound_empty (f : Forest) : Sound f ⟨[], {}⟩ where
  frames := by simp
  path := .nil
  counting := by simp
  counted := by simp [Memo.count?]

/-- The count of a part is noted. -/
theorem Sound.note {memo : Memo} {stack rest : List Frame} {n : Nat} (h : Sound f ⟨stack, memo⟩)
    (hrest : rest <:+ stack) (hnode : ∀ frame ∈ stack, frame ∈ rest ∨ frame.node = i)
    (hends : f.Ends i) (hcard : Nat.card (f.Derivation i) = n) :
    Sound f ⟨rest, memo.insert i (.counted n)⟩ where
  frames frame hframe := h.frames frame (hrest.subset hframe)
  path := h.path.suffix hrest
  counting j hj hcount := by
    rw [count?_insert] at hcount
    split at hcount
    · cases hcount
    · next hij =>
      rw [Std.HashMap.contains_insert] at hj
      obtain ⟨frame, hframe, rfl⟩ := h.counting j (by simpa [hij] using hj) hcount
      exact ⟨frame, (hnode frame hframe).resolve_right (Ne.symm hij), rfl⟩
  counted j n' hcount := by
    rw [count?_insert] at hcount
    split at hcount
    · next hij =>
      cases hcount
      exact hij ▸ ⟨hends, hcard⟩
    · exact h.counted j n' hcount

/-- A node is entered that the innermost frame awaits. -/
theorem Sound.enter (h : t.Sound f) (hj : ∀ top ∈ t.stack.head?, top.Awaits j) :
    (f.enter j t).Sound f := by
  obtain ⟨stack, memo⟩ := t
  unfold Forest.enter
  split
  · next harity =>
    exact h.note List.suffix_rfl (fun _ => .inl) (.of_arity_eq_zero harity)
      (card_derivation_leaf harity)
  · next harity =>
    refine ⟨?_, List.isChain_cons.mpr ⟨hj, h.path⟩, fun k hk hcount => ?_, fun k n hcount => ?_⟩
    · simpa using ⟨Frame.sound_enter harity, h.frames⟩
    · by_cases hjk : j = k
      · exact ⟨_, List.mem_cons_self, hjk⟩
      · rw [count?_insert, if_neg hjk] at hcount
        rw [Std.HashMap.contains_insert] at hk
        obtain ⟨frame, hframe, hnode⟩ := h.counting k (by simpa [hjk] using hk) hcount
        exact ⟨frame, List.mem_cons_of_mem _ hframe, hnode⟩
    · rw [count?_insert] at hcount
      split at hcount
      · cases hcount
      · exact h.counted k n hcount

/-- What is added for a pack whose parts have counts. -/
theorem Sound.contribution_eq {p : Pack} (h : t.Sound f)
    (hparts : ∀ j ∈ p.parts, (t.memo.count? j).isSome) :
    p.contribution t.memo = f.packCard p := by
  have hcount : ∀ j ∈ p.parts, (t.memo.count? j).getD 0 = Nat.card (f.Derivation j) := by
    intro j hj
    obtain ⟨n, hn⟩ := Option.isSome_iff_exists.mp (hparts j hj)
    rw [hn, (h.counted j n hn).2, Option.getD_some]
  rw [packCard, ← List.map_congr_left hcount, Pack.contribution, Pack.parts]
  cases p.left <;> simp

/-- **A round keeps the state sound.** -/
theorem Sound.round (h : t.Sound f) (hround : f.Round t t') : t'.Sound f := by
  cases hround with
  | pop i total rest memo =>
    obtain ⟨hends, hcard⟩ := (h.frames _ List.mem_cons_self).card
    refine h.note (List.suffix_cons ..) (fun frame hframe => ?_) hends hcard
    rcases List.mem_cons.mp hframe with rfl | hframe
    · exact .inr rfl
    · exact .inl hframe
  | enter hj hnew i total later rest =>
    refine h.enter fun top htop => ?_
    obtain rfl := Option.some.inj htop
    exact ⟨_, rfl, hj⟩
  | add hparts i total later rest =>
    rw [h.contribution_eq hparts]
    have hframe := (h.frames _ List.mem_cons_self).add fun j hj => by
      obtain ⟨n, hn⟩ := Option.isSome_iff_exists.mp (hparts j hj)
      exact (h.counted j n hn).1
    refine ⟨?_, ?_, fun j hj hcount => ?_, h.counted⟩
    · simpa using ⟨hframe, fun frame hmem => h.frames frame (List.mem_cons_of_mem _ hmem)⟩
    · exact List.isChain_cons.mpr (List.isChain_cons.mp h.path)
    · obtain ⟨frame, hmem, hnode⟩ := h.counting j hj hcount
      rcases List.mem_cons.mp hmem with rfl | hmem
      · exact ⟨_, List.mem_cons_self, hnode⟩
      · exact ⟨frame, List.mem_cons_of_mem _ hmem, hnode⟩

/-- All nodes on the stack lead to the innermost one. -/
theorem reaches_of_isChain {top : Frame} {rest : List Frame}
    (hframes : ∀ frame ∈ top :: rest, frame.Sound f)
    (hpath : (top :: rest).IsChain fun upper lower => lower.Awaits upper.node)
    (hframe : frame ∈ top :: rest) : f.Reaches frame.node top.node := by
  induction rest generalizing top with
  | nil =>
    obtain rfl := List.mem_singleton.mp hframe
    exact .refl
  | cons next rest ih =>
    rcases List.mem_cons.mp hframe with rfl | hframe
    · exact .refl
    · obtain ⟨hnext, hrest⟩ := List.isChain_cons_cons.mp hpath
      have hleads := (hframes next (by simp)).leads hnext
      exact (ih (fun frame hmem => hframes frame (List.mem_cons_of_mem _ hmem)) hrest hframe).tail
        hleads

theorem From.enter (h : t.From root) (hstack : t.stack ≠ []) : (f.enter j t).From root := by
  obtain ⟨stack, memo⟩ := t
  obtain ⟨hmet, hfirst⟩ := h
  have hmet (m : Mark) : (memo.insert j m).contains root := by
    simpa [Std.HashMap.contains_insert] using .inr hmet
  unfold Forest.enter
  split
  · exact ⟨hmet _, hfirst⟩
  · refine ⟨hmet _, ?_⟩
    rw [List.map_cons, List.getLast?_cons_of_ne_nil (by simpa using hstack)]
    exact hfirst

theorem From.round (h : t.From root) (hround : f.Round t t') : t'.From root := by
  cases hround with
  | pop i total rest memo =>
    refine ⟨by simp [Std.HashMap.contains_insert, h.met], fun k hk => h.first k ?_⟩
    have hne : rest.map Frame.node ≠ [] := by
      rintro hnil
      simp [hnil] at hk
    rwa [List.map_cons, List.getLast?_cons_of_ne_nil hne]
  | enter => exact h.enter (List.cons_ne_nil _ _)
  | add => exact ⟨h.met, h.first⟩

/-- **A part that is met again lies on a cycle.** -/
theorem Sound.onCycle (h : t.Sound f) (hroot : t.From root) (herror : f.round t = .error j) :
    f.Reaches root j ∧ f.OnCycle j := by
  obtain ⟨i, p, later, total, rest, hstack, hj, hmet, hcount⟩ := exists_of_round_eq_error herror
  obtain ⟨frame, hframe, rfl⟩ := h.counting j hmet hcount
  obtain ⟨hframes, hpath, -, -⟩ := h
  have hfirst := hroot.first
  rw [hstack] at hframe hframes hpath hfirst
  have hleads : f.Leads i frame.node := (hframes _ List.mem_cons_self).leads ⟨p, rfl, hj⟩
  have hreaches {k : Nat} (hk : k ∈ (⟨i, p :: later, total⟩ :: rest).map Frame.node) :
      f.Reaches k i := by
    obtain ⟨frame, hmem, rfl⟩ := List.mem_map.mp hk
    exact reaches_of_isChain hframes hpath hmem
  obtain ⟨first, hlast⟩ : ∃ k, k ∈ ((⟨i, p :: later, total⟩ :: rest).map Frame.node).getLast? :=
    ⟨_, List.getLast?_eq_some_getLast (List.cons_ne_nil _ _)⟩
  refine ⟨?_, .tail' (hreaches (List.mem_map_of_mem hframe)) hleads⟩
  rw [← hfirst first hlast]
  exact (hreaches (List.mem_of_getLast? hlast)).tail hleads

end Tally

namespace Forest

/-- What a count of `root` may come to. -/
def Answers (f : Forest) (root : Nat) : Except Nat Memo → Prop
  | .ok memo => f.Ends root ∧ memo.count? root = some (Nat.card (f.Derivation root))
  | .error j => f.Reaches root j ∧ f.OnCycle j

/-- **What a run gives.** -/
theorem Halts.answers {n : Nat} {out : Except Nat Memo} (hhalts : f.Halts t n out)
    (h : t.Sound f) (hroot : t.From root) : f.Answers root out := by
  induction hhalts with
  | done memo =>
    cases hcount : memo.count? root with
    | none =>
      obtain ⟨frame, hframe, -⟩ := h.counting root hroot.met hcount
      cases hframe
    | some n =>
      obtain ⟨hends, rfl⟩ := h.counted root n hcount
      exact ⟨hends, hcount⟩
  | stuck herror => exact h.onCycle hroot herror
  | round hstack hround _ ih =>
    have hround := round_of_eq_ok hstack hround
    exact ih (h.round hround) (hroot.round hround)

/-- The state in which a count of `root` begins. -/
def start (f : Forest) (root : Nat) : Tally :=
  f.enter root ⟨[], {}⟩

theorem from_start (f : Forest) (root : Nat) : (f.start root).From root := by
  unfold start enter
  split
  · exact ⟨by simp, by simp⟩
  · exact ⟨by simp, by simp [eq_comm]⟩

theorem sound_start (f : Forest) (root : Nat) : (f.start root).Sound f :=
  (Tally.sound_empty f).enter (by simp)

/-- At most two rounds for each node and three for each pack on its list. -/
theorem potential_start_le (f : Forest) (root : Nat) : f.potential (f.start root) ≤
    ((List.range f.nodes.size).map fun i => 2 + 3 * (f.packsOf i).length).sum := by
  have hnode : f.nodePotential {} = fun i => 2 + 3 * (f.packsOf i).length := by
    funext i
    simp [nodePotential]
  rw [← hnode, start, enter]
  split
  · exact (extends_insert_counted {} root 1).potential_le f []
  · next harity =>
    have hnodes := sum_nodePotential_insert_le harity (show ¬ ({} : Memo).contains root by simp)
    have hframe := framePotential_unsuppressed_le (Std.HashMap.insert {} root .counting) root 0
      (f.packsOf root)
    simp only [potential, List.map_cons, List.map_nil, List.sum_cons, List.sum_nil]
    omega

theorem answers_start (f : Forest) (root : Nat) : f.Answers root (f.finish (f.start root)) := by
  obtain ⟨n, -, hhalts⟩ := f.halts_finish (f.start root)
  exact hhalts.answers (f.sound_start root) (f.from_start root)

end Forest

end ParseTree
