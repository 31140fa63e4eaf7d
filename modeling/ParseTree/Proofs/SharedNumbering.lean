import Mathlib.Algebra.BigOperators.Group.Finset.Basic
import ParseTree.Proofs.Identities
import ParseTree.Proofs.Misuse
import ParseTree.Session

/-!
# One numbering for several arenas

The desks of a session draw identities from one counter. A command works at one desk. There it
numbers its new nodes in order from the counter on, and at the other desks nothing happens. So a
node that is there after a step was there before, or it is one of those that were just numbered,
and these have numbers that no node had.

From that one distinction follows that every number below the counter stays the identity of exactly
one node, at one of the desks, and that the counter stays the number of all nodes. A call that
fails is no exception, since a number is only given to a node that is kept.

## Main results

* `Session.step_perform`: what a command does to a session.
* `Session.Numbered.step`: a step keeps the numbering.
* `Session.identities_of_performAll`: the identities in every run.
-/

namespace ParseTree

namespace Session

open Arena

variable {s s' : Session} {t u : Nat} {i j : NodeId} {c : Command}

/-! ## Desks -/

/-- The node at slot `i` of desk number `t`. -/
def node (s : Session) (t : Nat) (i : NodeId) : Node :=
  (s.desk t).arena.node i

/-- The number of slots of desk number `t`. -/
def slots (s : Session) (t : Nat) : Nat :=
  (s.desk t).arena.size

/-- The number of nodes at all desks. -/
def total (s : Session) : Nat :=
  ∑ t ∈ Finset.range s.desks.size, s.slots t

theorem slots_of_size_le (h : s.desks.size ≤ t) : s.slots t = 0 := by
  simp [slots, desk, Array.getD_eq_getD_getElem?, Array.getElem?_eq_none h, size]

theorem perform_of_size_le (h : s.desks.size ≤ t) (c : Command) : s.perform t c = s := by
  rw [perform, putBack, if_neg (Nat.not_lt.mpr h)]

/-- A command is carried out at its desk. -/
theorem desk_perform_self (h : t < s.desks.size) (c : Command) :
    (s.perform t c).desk t = { s.desk t with arena := (c.run (s.desk t).arena).arena } := by
  simp [perform, putBack, desk, h]

/-- Other desks see no more of a command than what it makes of the counter. -/
theorem desk_perform_of_ne (h : u ≠ t) (c : Command) :
    (s.perform t c).desk u =
      { s.desk u with arena :=
        { (s.desk u).arena with nextIdentity := (s.perform t c).nextIdentity } } := by
  by_cases ht : t < s.desks.size
  · simp [perform, putBack, desk, ht, Array.getD_eq_getD_getElem?,
      Array.getElem?_setIfInBounds_ne (Ne.symm h)]
  · rw [perform_of_size_le (Nat.not_lt.mp ht)]
    rfl

/-! ## Steps -/

/-- **What a command at desk number `t` does.** It numbers the new nodes of that desk in order and
leaves those that were there what they come from. Other desks keep their nodes. -/
structure Step (t : Nat) (s s' : Session) : Prop where
  size_eq : s'.desks.size = s.desks.size
  numbered : (s.desk t).arena.Numbered (s'.desk t).arena
  kept : Keeps Node.origin Set.univ (s.desk t).arena (s'.desk t).arena
  slots_eq : ∀ u, u ≠ t → s'.slots u = s.slots u
  node_eq : ∀ u, u ≠ t → ∀ i, s'.node u i = s.node u i

theorem step_perform (s : Session) (t : Nat) (c : Command) : Step t s (s.perform t c) := by
  have hslots (u : Nat) (hu : u ≠ t) : (s.perform t c).slots u = s.slots u := by
    rw [slots, desk_perform_of_ne hu]
    rfl
  have hnode (u : Nat) (hu : u ≠ t) (i : NodeId) : (s.perform t c).node u i = s.node u i := by
    rw [node, desk_perform_of_ne hu]
    rfl
  by_cases ht : t < s.desks.size
  · refine ⟨?_, ?_, ?_, hslots, hnode⟩
    · simp [perform, putBack, ht]
    · rw [desk_perform_self ht]
      exact c.numbered_run _
    · rw [desk_perform_self ht]
      exact c.keeps_origin_run _
  · rw [perform_of_size_le (Nat.not_lt.mp ht)] at hslots hnode ⊢
    exact ⟨rfl, .refl _, .refl .., hslots, hnode⟩

namespace Step

/-- **A step loses no slot**, and the nodes that were there keep identity and tear store. -/
theorem origin_eq (h : Step t s s') (hi : i < s.slots u) :
    i < s'.slots u ∧ (s'.node u i).origin = (s.node u i).origin := by
  by_cases hu : u = t
  · subst hu
    exact ⟨Nat.lt_of_lt_of_le hi h.kept.size_le, h.kept.eq i trivial hi⟩
  · rw [h.slots_eq u hu, h.node_eq u hu]
    exact ⟨hi, rfl⟩

theorem identity_eq (h : Step t s s') (hi : i < s.slots u) :
    (s'.node u i).identity = (s.node u i).identity :=
  congrArg Prod.fst (h.origin_eq hi).2

/-- The counter goes up by the number of new nodes. -/
theorem next_eq (h : Step t s s') :
    s'.nextIdentity + s.slots t = s.nextIdentity + s'.slots t :=
  h.numbered.next_eq

/-- **The nodes after a step**: they were there before, or their numbers are new. -/
theorem old_or_new (h : Step t s s') (hi : i < s'.slots u) :
    i < s.slots u ∨
      u = t ∧ s.slots t ≤ i ∧ (s'.node u i).identity + s.slots t = s.nextIdentity + i := by
  rcases Nat.lt_or_ge i (s.slots u) with hold | hnew
  · exact .inl hold
  · by_cases hu : u = t
    · subst hu
      exact .inr ⟨rfl, hnew, h.numbered.identity_eq i hnew hi⟩
    · rw [h.slots_eq u hu] at hi
      exact absurd hi (Nat.not_lt.mpr hnew)

/-- The new nodes are those of one desk. -/
theorem total_eq (h : Step t s s') : s'.total + s.slots t = s.total + s'.slots t := by
  rw [total, total, h.size_eq]
  by_cases ht : t < s.desks.size
  · have hmem := Finset.mem_range.mpr ht
    have hrest : ∑ u ∈ (Finset.range s.desks.size).erase t, s'.slots u =
        ∑ u ∈ (Finset.range s.desks.size).erase t, s.slots u :=
      Finset.sum_congr rfl fun u hu => h.slots_eq u (Finset.ne_of_mem_erase hu)
    rw [← Finset.add_sum_erase _ _ hmem, ← Finset.add_sum_erase _ s.slots hmem, hrest]
    omega
  · have hle := Nat.not_lt.mp ht
    rw [slots_of_size_le hle, slots_of_size_le (h.size_eq.symm ▸ hle)]
    refine congrArg (· + 0) (Finset.sum_congr rfl fun u hu => h.slots_eq u ?_)
    exact fun hut => ht (hut ▸ Finset.mem_range.mp hu)

end Step

/-! ## The numbering -/

/-- **The nodes of all desks are numbered from 0 on**: every number below the counter is the
identity of a node, and of one only, and at each desk later nodes have greater numbers. -/
structure Numbered (s : Session) : Prop where
  next_eq : s.nextIdentity = s.total
  given : ∀ k, (∃ t i, i < s.slots t ∧ (s.node t i).identity = k) ↔ k < s.nextIdentity
  unique : ∀ t u i j, i < s.slots t → j < s.slots u →
    (s.node t i).identity = (s.node u j).identity → t = u ∧ i = j
  ordered : ∀ t i j, i < j → j < s.slots t → (s.node t i).identity < (s.node t j).identity

theorem Numbered.identity_lt (h : s.Numbered) (hi : i < s.slots t) :
    (s.node t i).identity < s.nextIdentity :=
  (h.given _).mp ⟨t, i, hi, rfl⟩

theorem slots_start (n t : Nat) : (start n).slots t = 0 := by
  by_cases ht : t < n <;>
    simp [start, slots, desk, size, Array.getD_eq_getD_getElem?, ht]

theorem numbered_start (n : Nat) : (start n).Numbered where
  next_eq := (Finset.sum_eq_zero fun t _ => slots_start n t).symm
  given k := by
    have hnext : (start n).nextIdentity = 0 := rfl
    simp [hnext, slots_start]
  unique t u i j hi := by simp [slots_start] at hi
  ordered t i j _ hj := by simp [slots_start] at hj

/-- **A step keeps the numbering.** -/
theorem Numbered.step (hs : s.Numbered) (h : Step t s s') : s'.Numbered where
  next_eq := by
    have hnext := h.next_eq
    have htotal := h.total_eq
    have hs := hs.next_eq
    omega
  given k := by
    have hnext := h.next_eq
    constructor
    · rintro ⟨u, i, hi, rfl⟩
      rcases h.old_or_new hi with hold | ⟨rfl, hnew, hid⟩
      · have hlt := hs.identity_lt hold
        have hle : s.slots t ≤ s'.slots t := h.kept.size_le
        rw [h.identity_eq hold]
        omega
      · omega
    · intro hk
      rcases Nat.lt_or_ge k s.nextIdentity with hold | hnew
      · obtain ⟨u, i, hi, hid⟩ := (hs.given k).mpr hold
        exact ⟨u, i, (h.origin_eq hi).1, (h.identity_eq hi).trans hid⟩
      · -- the slot that the number belongs to is as far behind the old slots as it is behind
        -- the old counter
        have hi : s.slots t + (k - s.nextIdentity) < s'.slots t := by omega
        have hid := h.numbered.identity_eq _ (Nat.le_add_right (s.slots t) _) hi
        refine ⟨t, _, hi, ?_⟩
        have hid : (s'.node t (s.slots t + (k - s.nextIdentity))).identity + s.slots t =
            s.nextIdentity + (s.slots t + (k - s.nextIdentity)) := hid
        omega
  unique v u i j hi hj heq := by
    rcases h.old_or_new hi with hi' | ⟨rfl, hi', hid⟩ <;>
      rcases h.old_or_new hj with hj' | ⟨rfl, hj', hjd⟩
    · rw [h.identity_eq hi', h.identity_eq hj'] at heq
      exact hs.unique v u i j hi' hj' heq
    · have hlt := hs.identity_lt hi'
      rw [h.identity_eq hi'] at heq
      omega
    · have hlt := hs.identity_lt hj'
      rw [h.identity_eq hj'] at heq
      omega
    · exact ⟨rfl, by omega⟩
  ordered u i j hij hj := by
    rcases h.old_or_new hj with hj' | ⟨rfl, hj', hjd⟩
    · have hi' := Nat.lt_trans hij hj'
      rw [h.identity_eq hi', h.identity_eq hj']
      exact hs.ordered u i j hij hj'
    · rcases h.old_or_new (Nat.lt_trans hij hj) with hi' | ⟨-, hi', hid⟩
      · have hlt := hs.identity_lt hi'
        rw [h.identity_eq hi']
        omega
      · omega

/-! ## Runs -/

theorem Numbered.performAll (h : s.Numbered) (cs : List (Nat × Command)) :
    (s.performAll cs).Numbered := by
  induction cs generalizing s with
  | nil => exact h
  | cons c cs ih => exact ih (h.step (step_perform s c.1 c.2))

/-- **A run loses no slot**, and nodes keep identity and tear store. -/
theorem origin_performAll (hi : i < s.slots t) (cs : List (Nat × Command)) :
    i < (s.performAll cs).slots t ∧
      ((s.performAll cs).node t i).origin = (s.node t i).origin := by
  induction cs generalizing s with
  | nil => exact ⟨hi, rfl⟩
  | cons c cs ih =>
    obtain ⟨hlt, horigin⟩ := (step_perform s c.1 c.2).origin_eq hi
    obtain ⟨hlt, hrest⟩ := ih hlt
    exact ⟨hlt, hrest.trans horigin⟩

/-- A command that fails leaves all desks and the counter alone, unless it applies a sequence of
actions. -/
theorem desk_perform_of_error (hc : ∀ actions i input, c ≠ .apply (.sequence actions) i input)
    {e : EditError} (he : (c.run (s.desk t).arena).result = .error e) :
    (s.perform t c).nextIdentity = s.nextIdentity ∧ ∀ u, (s.perform t c).desk u = s.desk u := by
  have harena := Command.arena_of_error_of_ne_sequence hc he
  have hnext : (s.perform t c).nextIdentity = s.nextIdentity := by
    rw [perform, harena, putBack]
    split <;> rfl
  refine ⟨hnext, fun u => ?_⟩
  by_cases hu : u = t
  · subst hu
    rcases Nat.lt_or_ge u s.desks.size with hlt | hge
    · rw [desk_perform_self hlt, harena]
    · rw [perform_of_size_le hge]
  · rw [desk_perform_of_ne hu, hnext]
    rfl

/-- **The identities in every run** of commands at any number of desks, those that fail included.
No two nodes have the same identity, whichever desks they are at. At each desk a later node has a
greater one. The identities that were given are the numbers below the number of all nodes, and so
the counter has not skipped any. Whatever is done next, a node keeps its slot, its identity and its
tear store; and a command that fails changes neither the counter nor a desk, unless it applies a
sequence of actions, of which those that came first are kept with the nodes that they made. -/
theorem identities_of_performAll (n : Nat) (cs : List (Nat × Command)) :
    let s := (start n).performAll cs
    (∀ t u i j, i < s.slots t → j < s.slots u →
      (s.node t i).identity = (s.node u j).identity → t = u ∧ i = j) ∧
    (∀ t i j, i < j → j < s.slots t → (s.node t i).identity < (s.node t j).identity) ∧
    (∀ k, (∃ t i, i < s.slots t ∧ (s.node t i).identity = k) ↔ k < s.total) ∧
    s.nextIdentity = s.total ∧
    (∀ ds t i, i < s.slots t → i < (s.performAll ds).slots t ∧
      ((s.performAll ds).node t i).identity = (s.node t i).identity ∧
      ((s.performAll ds).node t i).store = (s.node t i).store) ∧
    ∀ t c e, (∀ actions i input, c ≠ .apply (.sequence actions) i input) →
      (c.run (s.desk t).arena).result = .error e →
        (s.perform t c).nextIdentity = s.nextIdentity ∧
          ∀ u, (s.perform t c).desk u = s.desk u := by
  have hs := (numbered_start n).performAll cs
  refine ⟨hs.unique, hs.ordered, hs.next_eq ▸ hs.given, hs.next_eq, fun ds t i hi => ?_,
    fun t c e hc he => desk_perform_of_error hc he⟩
  obtain ⟨hlt, horigin⟩ := origin_performAll hi ds
  exact ⟨hlt, congrArg Prod.fst horigin, congrArg Prod.snd horigin⟩

/-- Commands at two desks in turn. One of them fails, and a sequence fails after it has gathered. -/
def takingTurns : List (Nat × Command) :=
  [(0, .make "p" .nonTerminal 0 2), (1, .make "q" .nonTerminal 0 1),
    (0, .push 0 "c" .terminal 0 1), (1, .foldOver 0),
    (1, .apply (.sequence [.edit (.gather "g"), .edit .foldUnder, .edit .tear]) 0 ""),
    (0, .gather 1 "h"), (1, .clone 0)]

/-- The gathered node is kept, and the next node, at the other desk, has the next number. Folding a
root is refused and changes nothing. -/
theorem identities_of_takingTurns :
    let s := (start 2).performAll takingTurns
    2 < s.slots 0 ∧ 1 < s.slots 1 ∧ (s.node 1 1).identity = 3 ∧ (s.node 0 2).identity = 4 ∧
      (s.node 0 2).identity ≠ (s.node 1 1).identity ∧ s.nextIdentity = s.total ∧
      ((Command.foldOver 0).run (s.desk 1).arena).result = .error (.rootNode .foldOver 1) ∧
      (s.perform 1 (.foldOver 0)).nextIdentity = s.nextIdentity := by
  intro s
  have h0 : 2 < s.slots 0 := by decide
  have h1 : 1 < s.slots 1 := by decide
  have hno : ((Command.foldOver 0).run (s.desk 1).arena).result =
      .error (.rootNode .foldOver 1) := by decide
  obtain ⟨hunique, -, -, hnext, -, hrefused⟩ := identities_of_performAll 2 takingTurns
  refine ⟨h0, h1, by decide, by decide, fun heq => ?_, hnext, hno,
    (hrefused 1 (.foldOver 0) _ nofun hno).1⟩
  exact absurd (hunique 0 1 2 1 h0 h1 heq).1 (by decide)

end Session

end ParseTree
