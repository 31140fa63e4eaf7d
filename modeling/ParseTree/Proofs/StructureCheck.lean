import Mathlib.Data.List.Count
import ParseTree.Arena.Structure
import ParseTree.Proofs.Ancestry

/-!
# The structure check on any arena

Links may be set one by one, and then a list can run into itself or into another list, and a node
can be listed below itself. The check is meant for such arenas, and two things have to be said about
it there: that it comes to an end, and what an error tells.

The check as a program has bounds, on the nodes that it takes off the stack and on the length of a
list. `Scans` and `Checks` are the same two loops without bounds, as evaluation relations, so that a
derivation is a run that ends. A node that was met stays met, and only slots are met, since a node
that is accepted names its parent. Hence the bounds are never what ends the check, and nothing that
follows mentions them.

An error blames the list in which something is met again. That is the wrong list if another one had
the node first, and it is no list at all if the node at which the check starts is listed further
down. `Violation` says for each error what has been found.

## Main results

* `checks_checkStructure`: the check is the unbounded loop, which therefore ends.
* `Checks.unique`: the loop can end in one way only.
* `Checks.violation`: what an error tells.
* `Consistent.checkStructure_eq_ok`, `Linked.checkStructure_eq_ok`: where there is no violation.
-/

namespace ParseTree

namespace Arena

/-! ## Listed nodes -/

/-- Node `d` comes after `c` along next-sibling links. -/
def Precedes (a : Arena) : NodeId → NodeId → Prop :=
  Relation.TransGen fun c d => (a.node c).nextSibling = some d

/-- Node `p` lists the nodes that next-sibling links reach from its first child. Nothing is said
about the parents that these nodes name, or about the last child. -/
inductive Lists (a : Arena) (p : NodeId) : NodeId → Prop
  | first {c : NodeId} : (a.node p).firstChild = some c → Lists a p c
  | next {c d : NodeId} : Lists a p c → (a.node c).nextSibling = some d → Lists a p d

/-- Node `i` is reached from `r` along first-child and next-sibling links below `r`. -/
def Reached (a : Arena) (r : NodeId) : NodeId → Prop :=
  Relation.ReflTransGen a.Lists r

variable {a : Arena} {i p r c d n x : NodeId} {cursor stop : Option NodeId}
  {l met stack : List NodeId} {out fault : Option StructureError} {e : StructureError}

/-- A chain that begins with listed nodes has listed nodes only, and so has what follows it. -/
theorem Strung.lists (h : a.Strung stop l) (hhead : ∀ x ∈ l.head?.or stop, a.Lists p x) :
    (∀ x ∈ l, a.Lists p x) ∧ ∀ x ∈ stop, a.Lists p x := by
  induction l with
  | nil => exact ⟨by simp, by simpa using hhead⟩
  | cons i l ih =>
    have hi : a.Lists p i := hhead i (by simp)
    have hnext : ∀ x ∈ l.head?.or stop, a.Lists p x := fun x hx => .next hi (h.1.trans hx)
    obtain ⟨hl, hstop⟩ := ih h.2 hnext
    exact ⟨List.forall_mem_cons.mpr ⟨hi, hl⟩, hstop⟩

/-- From the head of a chain one comes to what follows it. -/
theorem Strung.precedes (h : a.Strung (some d) (c :: l)) : a.Precedes c d := by
  induction l generalizing c with
  | nil => exact .single (by simpa using h.1)
  | cons j l ih => exact .head (by simpa using h.1) (ih h.2)

/-- A chain that runs into one of its members leads from there back to it. -/
theorem Strung.precedes_self (h : a.Strung (some c) l) (hc : c ∈ l) : a.Precedes c c := by
  obtain ⟨s, t, rfl⟩ := List.append_of_mem hc
  exact Strung.precedes (strung_append.mp h).2

namespace IsChildList

theorem lists_iff (h : a.IsChildList p l) : a.Lists p c ↔ c ∈ l := by
  refine ⟨fun hc => ?_, (h.strung.lists fun x hx => ?_).1 c⟩
  · induction hc with
    | first hfirst => exact List.mem_of_mem_head? (h.firstChild.symm.trans hfirst)
    | next _ hnext ih => exact h.strung.mem_of_nextSibling ih hnext
  · exact .first (h.firstChild.trans (by simpa using hx))

/-- No member comes after itself, since all that comes after it stands behind it. -/
theorem not_precedes_self (h : a.IsChildList p l) (hc : c ∈ l) : ¬ a.Precedes c c := by
  obtain ⟨s, t, rfl⟩ := List.append_of_mem hc
  have hbehind : ∀ d, a.Precedes c d → d ∈ t := by
    intro d hd
    have hstrung : a.Strung none (c :: t) := (strung_append.mp h.strung).2
    induction hd with
    | single hnext =>
      rw [hstrung.1, Option.or_none] at hnext
      exact List.mem_of_mem_head? hnext
    | tail _ hnext ih => exact hstrung.2.mem_of_nextSibling ih hnext
  intro hself
  exact (List.nodup_cons.mp (List.nodup_append.mp h.nodup).2.1).1 (hbehind c hself)

end IsChildList

/-! ## The check without bounds -/

/-- Going through the child list of `i` from `cursor` on, with `met` as the nodes met so far: the
nodes `l` are accepted, and then the list ends or there is a fault. -/
inductive Scans (a : Arena) (i : NodeId) :
    Option NodeId → List NodeId → List NodeId → Option StructureError → Prop
  | finish (met : List NodeId) : Scans a i none met [] none
  | again {c : NodeId} {met : List NodeId} : c ∈ met →
      Scans a i (some c) met [] (some (.siblingCycle (a.node i).identity))
  | mismatch {c : NodeId} {met : List NodeId} : c ∉ met → (a.node c).parent ≠ some i →
      Scans a i (some c) met []
        (some (.parentMismatch (a.node i).identity (a.node c).identity))
  | accept {c : NodeId} {met l : List NodeId} {fault : Option StructureError} : c ∉ met →
      (a.node c).parent = some i → Scans a i (a.node c).nextSibling (c :: met) l fault →
      Scans a i (some c) met (c :: l) fault

/-- Taking nodes off `stack` and going through the child list of each, with `met` as the nodes met
so far, until the stack is empty or there is a fault. -/
inductive Checks (a : Arena) : List NodeId → List NodeId → Except StructureError Unit → Prop
  | done (met : List NodeId) : Checks a [] met (.ok ())
  | childless {i : NodeId} {stack met : List NodeId} : (a.node i).firstChild = none →
      (a.node i).lastChild ≠ none →
      Checks a (i :: stack) met (.error (.lastChildWithoutChild (a.node i).identity))
  | fault {i : NodeId} {stack met l : List NodeId} {e : StructureError} :
      Scans a i (a.node i).firstChild met l (some e) → Checks a (i :: stack) met (.error e)
  | stale {i : NodeId} {stack met l : List NodeId} : (a.node i).firstChild ≠ none →
      Scans a i (a.node i).firstChild met l none → (a.node i).lastChild ≠ l.getLast? →
      Checks a (i :: stack) met (.error (.staleLastChild (a.node i).identity))
  | accept {i : NodeId} {stack met l : List NodeId} {result : Except StructureError Unit} :
      Scans a i (a.node i).firstChild met l none → (a.node i).lastChild = l.getLast? →
      Checks a (l.reverse ++ stack) (l.reverse ++ met) result → Checks a (i :: stack) met result

namespace Scans

/-- What is accepted is new and names `i` as its parent. -/
theorem accepted (h : a.Scans i cursor met l out) :
    l.Nodup ∧ ∀ x ∈ l, x ∉ met ∧ (a.node x).parent = some i := by
  induction h with
  | finish | again | mismatch => simp
  | @accept c met l out hc hparent _ ih =>
    obtain ⟨hnd, hl⟩ := ih
    have hout : ∀ x ∈ l, x ≠ c ∧ x ∉ met := fun x hx => by simpa using (hl x hx).1
    refine ⟨List.nodup_cons.mpr ⟨fun hcl => (hout c hcl).1 rfl, hnd⟩, ?_⟩
    exact List.forall_mem_cons.mpr ⟨⟨hc, hparent⟩, fun x hx => ⟨(hout x hx).2, (hl x hx).2⟩⟩

theorem nodup_met (h : a.Scans i cursor met l out) (hmet : met.Nodup) :
    (l.reverse ++ met).Nodup := by
  obtain ⟨hnd, hl⟩ := h.accepted
  refine List.nodup_append.mpr ⟨List.nodup_reverse.mpr hnd, hmet, ?_⟩
  rintro x hx y hy rfl
  exact (hl x (List.mem_reverse.mp hx)).1 hy

/-- A list that ends is the chain from `cursor` on. -/
theorem strung (h : a.Scans i cursor met l none) : cursor = l.head? ∧ a.Strung none l := by
  generalize hout : none = out at h
  induction h with
  | finish => exact ⟨rfl, trivial⟩
  | again | mismatch => simp at hout
  | accept _ _ _ ih =>
    obtain ⟨hhead, hstrung⟩ := ih hout
    exact ⟨rfl, by simpa using hhead, hstrung⟩

/-- A fault is found at the node that follows what is accepted. -/
theorem exists_fault (h : a.Scans i cursor met l (some e)) :
    ∃ c, cursor = l.head?.or (some c) ∧ a.Strung (some c) l ∧
      ((c ∈ l ∨ c ∈ met) ∧ e = .siblingCycle (a.node i).identity ∨
        (a.node c).parent ≠ some i ∧
          e = .parentMismatch (a.node i).identity (a.node c).identity) := by
  generalize hout : some e = out at h
  induction h with
  | finish => simp at hout
  | @again c _ hc => exact ⟨c, rfl, trivial, .inl ⟨.inr hc, Option.some.inj hout⟩⟩
  | @mismatch c _ _ hparent => exact ⟨c, rfl, trivial, .inr ⟨hparent, Option.some.inj hout⟩⟩
  | accept _ _ _ ih =>
    obtain ⟨c, hhead, hstrung, hc⟩ := ih hout
    refine ⟨c, rfl, ⟨hhead, hstrung⟩, hc.imp_left ?_⟩
    rintro ⟨hc, he⟩
    exact ⟨by simpa [or_assoc, or_left_comm] using hc, he⟩

theorem unique {l' : List NodeId} {out' : Option StructureError}
    (h : a.Scans i cursor met l out) (h' : a.Scans i cursor met l' out') : l = l' ∧ out = out' := by
  induction h generalizing l' with
  | finish => cases h'; exact ⟨rfl, rfl⟩
  | again hc =>
    cases h' with
    | again => exact ⟨rfl, rfl⟩
    | mismatch hc' | accept hc' => exact absurd hc hc'
  | mismatch hc hparent =>
    cases h' with
    | again hc' => exact absurd hc' hc
    | mismatch => exact ⟨rfl, rfl⟩
    | accept _ hparent' => exact absurd hparent' hparent
  | accept hc hparent _ ih =>
    cases h' with
    | again hc' => exact absurd hc' hc
    | mismatch _ hparent' => exact absurd hparent hparent'
    | accept _ _ hrest =>
      obtain ⟨rfl, rfl⟩ := ih hrest
      exact ⟨rfl, rfl⟩

end Scans

/-- The loop can end in one way only. -/
theorem Checks.unique {result result' : Except StructureError Unit}
    (h : a.Checks stack met result) (h' : a.Checks stack met result') : result = result' := by
  induction h with
  | done => cases h'; rfl
  | childless hfirst hlast =>
    cases h' with
    | childless => rfl
    | fault hscan => rw [hfirst] at hscan; cases hscan
    | stale hfirst' => exact absurd hfirst hfirst'
    | accept hscan hlast' =>
      rw [hfirst] at hscan
      cases hscan
      exact absurd hlast' hlast
  | fault hscan =>
    cases h' with
    | childless hfirst => rw [hfirst] at hscan; cases hscan
    | fault hscan' => rw [Option.some.inj (hscan.unique hscan').2]
    | stale _ hscan' | accept hscan' => cases (hscan.unique hscan').2
  | stale hfirst hscan hlast =>
    cases h' with
    | childless hfirst' => exact absurd hfirst' hfirst
    | fault hscan' => cases (hscan.unique hscan').2
    | stale => rfl
    | accept hscan' hlast' =>
      obtain ⟨rfl, -⟩ := hscan.unique hscan'
      exact absurd hlast' hlast
  | accept hscan hlast _ ih =>
    cases h' with
    | childless hfirst hlast' =>
      rw [hfirst] at hscan
      cases hscan
      exact absurd hlast hlast'
    | fault hscan' => cases (hscan.unique hscan').2
    | stale _ hscan' hlast' =>
      obtain ⟨rfl, -⟩ := hscan.unique hscan'
      exact absurd hlast hlast'
    | accept hscan' _ hrest =>
      obtain ⟨rfl, -⟩ := hscan.unique hscan'
      exact ih hrest

/-! ## The bounds are never what ends the check -/

/-- The nodes marked in `seen` are those of `met`, which therefore are slots. -/
structure Marks (a : Arena) (seen : Array Bool) (met : List NodeId) : Prop where
  size : seen.size = a.size
  mem : ∀ x, seen.getD x false = true ↔ x ∈ met

namespace Marks

variable {seen : Array Bool}

theorem lt_size (h : a.Marks seen met) (hx : x ∈ met) : x < a.size := by
  by_contra hlt
  have hseen := (h.mem x).mpr hx
  rw [Array.getD_eq_getD_getElem?, Array.getElem?_eq_none (h.size ▸ Nat.not_lt.mp hlt)] at hseen
  simp at hseen

theorem length_le (h : a.Marks seen met) (hmet : met.Nodup) : met.length ≤ a.size :=
  length_le_size hmet fun _ => h.lt_size

theorem insert (h : a.Marks seen met) (hc : c < a.size) :
    a.Marks (seen.setIfInBounds c true) (c :: met) where
  size := by simp [h.size]
  mem x := by
    rw [List.mem_cons, ← h.mem, Array.getD_eq_getD_getElem?, Array.getD_eq_getD_getElem?,
      Array.getElem?_setIfInBounds]
    by_cases hxc : c = x
    · subst hxc
      simp [h.size, hc]
    · simp [hxc, Ne.symm hxc]

end Marks

variable {seen : Array Bool}

/-- A list that is given more room than there are slots that were not met is gone through to its end
or to a fault. -/
theorem scans_checkList (hm : a.Marks seen met) (hmet : met.Nodup) {n : Nat}
    (hn : a.size < n + met.length) (cursor : Option NodeId) (stack : List NodeId) :
    (∃ l e, a.Scans i cursor met l (some e) ∧
      a.checkList i (a.chain n cursor) seen stack = .error e) ∨
    ∃ marked, a.Scans i cursor met (a.chain n cursor) none ∧
      a.checkList i (a.chain n cursor) seen stack =
        .ok (marked, (a.chain n cursor).reverse ++ stack) ∧
      a.Marks marked ((a.chain n cursor).reverse ++ met) := by
  induction n generalizing cursor met seen stack with
  | zero =>
    have hle := hm.length_le hmet
    omega
  | succ n ih =>
    cases cursor with
    | none => exact .inr ⟨seen, .finish met, rfl, hm⟩
    | some c =>
      rw [chain_some, checkList]
      by_cases hc : c ∈ met
      · refine .inl ⟨[], _, .again hc, ?_⟩
        rw [if_pos ((hm.mem c).mpr hc)]
      rw [if_neg (mt (hm.mem c).mp hc)]
      by_cases hparent : (a.node c).parent = some i
      · rw [if_neg (not_not_intro hparent)]
        have hn' : a.size < n + (c :: met).length := by
          rw [List.length_cons]
          omega
        rcases ih (hm.insert (lt_size_of_parent hparent)) (List.nodup_cons.mpr ⟨hc, hmet⟩) hn'
            (a.node c).nextSibling (c :: stack) with
          ⟨l, e, hscan, hcheck⟩ | ⟨marked, hscan, hcheck, hmarked⟩
        · exact .inl ⟨c :: l, e, .accept hc hparent hscan, hcheck⟩
        · refine .inr ⟨marked, .accept hc hparent hscan, ?_, ?_⟩
          · simpa using hcheck
          · simpa using hmarked
      · refine .inl ⟨[], _, .mismatch hc hparent, ?_⟩
        rw [if_pos hparent]

/-- Each node that is taken off the stack was put there when it was met, so that no more nodes are
taken off than are on the stack or have not been met. -/
theorem checks_checkPending (hm : a.Marks seen met) (hmet : met.Nodup) {n : Nat}
    (hn : stack.length + (a.size - met.length) ≤ n) :
    a.Checks stack met (a.checkPending n stack seen) := by
  induction n generalizing stack met seen with
  | zero =>
    obtain rfl : stack = [] := List.length_eq_zero_iff.mp (by omega)
    exact .done met
  | succ n ih =>
    cases stack with
    | nil => exact .done met
    | cons i stack =>
      rw [List.length_cons] at hn
      rw [checkPending]
      split
      · next hfirst =>
        split
        · next last hlast => exact .childless hfirst (by simp [hlast])
        · next hlast =>
          have hrest : a.Checks stack met (a.checkPending n stack seen) := ih hm hmet (by omega)
          have hscan : a.Scans i (a.node i).firstChild met [] none := hfirst ▸ .finish met
          exact .accept hscan hlast hrest
      · next first hfirst =>
        have hroom : a.size < a.size + 1 + met.length := by omega
        dsimp only
        rcases scans_checkList (i := i) hm hmet hroom (some first) stack with
          ⟨l, e, hscan, hcheck⟩ | ⟨marked, hscan, hcheck, hmarked⟩
        · rw [hcheck]
          exact .fault (hfirst ▸ hscan)
        rw [hcheck]
        rw [← hfirst] at hscan hmarked ⊢
        generalize a.chain (a.size + 1) (a.node i).firstChild = l at hscan hmarked ⊢
        dsimp only
        split
        · next hlast =>
          refine .accept hscan hlast (ih hmarked (hscan.nodup_met hmet) ?_)
          have hle := hmarked.length_le (hscan.nodup_met hmet)
          simp only [List.length_append, List.length_reverse] at hle ⊢
          omega
        · next hlast => exact .stale (by simp [hfirst]) hscan hlast

/-- **The structure check** is the loop without bounds, on any arena. -/
theorem checks_checkStructure (a : Arena) (r : NodeId) :
    a.Checks [r] [] (a.checkStructure r) := by
  have hm : a.Marks (Array.replicate a.size false) [] := by
    refine ⟨Array.size_replicate, fun x => ?_⟩
    rw [Array.getD_eq_getD_getElem?, Array.getElem?_replicate]
    split <;> simp
  exact checks_checkPending hm List.nodup_nil (by simp [Nat.add_comm])

/-! ## What an error tells -/

/-- **What is wrong** with the links below `r`, for each error. -/
inductive Violation (a : Arena) (r : NodeId) : StructureError → Prop
  | lastChildWithoutChild {n : NodeId} : a.Reached r n → (a.node n).firstChild = none →
      (a.node n).lastChild ≠ none → Violation a r (.lastChildWithoutChild (a.node n).identity)
  | staleLastChild {n : NodeId} {l : List NodeId} : a.Reached r n →
      (a.node n).firstChild = l.head? → l ≠ [] → a.Strung none l →
      (a.node n).lastChild ≠ l.getLast? → Violation a r (.staleLastChild (a.node n).identity)
  | parentMismatch {n c : NodeId} : a.Reached r n → a.Lists n c → (a.node c).parent ≠ some n →
      Violation a r (.parentMismatch (a.node n).identity (a.node c).identity)
  /-- The list of `n` comes back to one of its members. -/
  | cycle {n c : NodeId} : a.Reached r n → a.Lists n c → a.Precedes c c →
      Violation a r (.siblingCycle (a.node n).identity)
  /-- The list of `n` has a member that another node lists too. -/
  | shared {n p c : NodeId} : a.Reached r n → a.Lists n c → a.Reached r p → a.Lists p c → p ≠ n →
      Violation a r (.siblingCycle (a.node n).identity)
  /-- The node at which the check starts is listed, and would be gone through once more. -/
  | listedRoot {p : NodeId} : a.Reached r p → a.Lists p r →
      Violation a r (.siblingCycle (a.node r).identity)

/-- How the nodes met and those on the stack have come about, with `done` as the nodes taken off the
stack so far. Only `r` can be on the stack without having been met. -/
structure Traced (a : Arena) (r : NodeId) (done stack met : List NodeId) : Prop where
  perm : (done ++ stack).Perm (r :: met)
  nodup : met.Nodup
  reached : ∀ x ∈ done ++ stack, a.Reached r x
  listed : ∀ x ∈ met, ∃ p ∈ done, a.Lists p x

variable {done : List NodeId}

theorem traced_start (a : Arena) (r : NodeId) : a.Traced r [] [r] [] :=
  ⟨.refl _, List.nodup_nil, by simpa using .refl, by simp⟩

/-- The members of an accepted list are met and put onto the stack. -/
theorem Traced.accept (h : a.Traced r done (i :: stack) met)
    (hscan : a.Scans i (a.node i).firstChild met l none) :
    a.Traced r (i :: done) (l.reverse ++ stack) (l.reverse ++ met) := by
  obtain ⟨hhead, hstrung⟩ := hscan.strung
  have hlists : ∀ x ∈ l, a.Lists i x :=
    (hstrung.lists fun x hx => .first (hhead.trans (by simpa using hx))).1
  refine ⟨?_, hscan.nodup_met h.nodup, fun x hx => ?_, fun x hx => ?_⟩
  · have hpush : (i :: done ++ (l.reverse ++ stack)).Perm (l.reverse ++ (done ++ i :: stack)) :=
      (List.perm_append_comm_assoc ..).trans (List.perm_middle.symm.append_left _)
    exact (hpush.trans (h.perm.append_left _)).trans List.perm_middle
  · have hi : a.Reached r i := h.reached i (by simp)
    by_cases hxl : x ∈ l
    · exact hi.tail (hlists x hxl)
    · exact h.reached x (by simpa [hxl, or_left_comm] using hx)
  · rcases List.mem_append.mp hx with hx | hx
    · exact ⟨i, by simp, hlists x (List.mem_reverse.mp hx)⟩
    · obtain ⟨p, hp, hpx⟩ := h.listed x hx
      exact ⟨p, by simp [hp], hpx⟩

/-- A node that is on the stack and was taken off before is `r`, which has been met in between. -/
theorem Traced.eq_of_mem_done (h : a.Traced r done (i :: stack) met) (hi : i ∈ done) :
    i = r ∧ r ∈ met := by
  have htwice : 2 ≤ List.count i (r :: met) := by
    have hone : 0 < List.count i done := List.count_pos_iff.mpr hi
    rw [← h.perm.count_eq, List.count_append, List.count_cons_self]
    omega
  have honce : List.count i met ≤ 1 := List.nodup_iff_count_le_one.mp h.nodup i
  rw [List.count_cons] at htwice
  have hir : r = i := by
    by_contra hne
    simp only [beq_iff_eq, hne, if_false] at htwice
    omega
  subst hir
  rw [if_pos (beq_self_eq_true r)] at htwice
  exact ⟨rfl, List.count_pos_iff.mp (by omega)⟩

/-- A node is met again. -/
theorem Traced.again (h : a.Traced r done (i :: stack) met) (hlists : a.Lists i c) (hc : c ∈ met) :
    a.Violation r (.siblingCycle (a.node i).identity) := by
  obtain ⟨p, hp, hpc⟩ := h.listed c hc
  by_cases hpi : p = i
  · subst hpi
    obtain ⟨rfl, hr⟩ := h.eq_of_mem_done hp
    obtain ⟨q, hq, hqr⟩ := h.listed p hr
    exact .listedRoot (h.reached q (by simp [hq])) hqr
  · exact .shared (h.reached i (by simp)) hlists (h.reached p (by simp [hp])) hpc hpi

/-- **What an error tells.** The nodes met, and where they were met, are all that the induction has
to carry along. -/
theorem Checks.violation (h : a.Checks stack met (.error e)) (ht : a.Traced r done stack met) :
    a.Violation r e := by
  generalize hresult : Except.error e = result at h
  induction h generalizing done with
  | done => simp at hresult
  | @childless i _ _ hfirst hlast =>
    obtain rfl := Except.error.inj hresult
    exact .lastChildWithoutChild (ht.reached i (by simp)) hfirst hlast
  | @fault i _ _ _ _ hscan =>
    obtain rfl := Except.error.inj hresult
    obtain ⟨c, hhead, hstrung, hfault⟩ := hscan.exists_fault
    have hi : a.Reached r i := ht.reached i (by simp)
    have hc : a.Lists i c := (hstrung.lists fun x hx => .first (hhead.trans hx)).2 c rfl
    rcases hfault with ⟨hc' | hc', rfl⟩ | ⟨hparent, rfl⟩
    · exact .cycle hi hc (hstrung.precedes_self hc')
    · exact ht.again hc hc'
    · exact .parentMismatch hi hc hparent
  | @stale i _ _ l hfirst hscan hlast =>
    obtain rfl := Except.error.inj hresult
    obtain ⟨hhead, hstrung⟩ := hscan.strung
    have hl : l ≠ [] := by
      rintro rfl
      exact hfirst hhead
    exact .staleLastChild (ht.reached i (by simp)) hhead hl hstrung hlast
  | accept hscan _ _ ih => exact ih (ht.accept hscan) hresult

/-! ## Where there is no violation -/

/-- Every node reached from `r` has a child list, and `r` is in none of these lists. -/
structure Consistent (a : Arena) (r : NodeId) : Prop where
  childList : ∀ p, a.Reached r p → a.IsChildList p (a.children p)
  not_listed : ∀ p, a.Reached r p → ¬ a.Lists p r

theorem Consistent.not_violation (h : a.Consistent r) : ¬ a.Violation r e := by
  intro hv
  cases hv with
  | @lastChildWithoutChild n hn hfirst hlast =>
    refine hlast ?_
    rw [(h.childList n hn).lastChild, (h.childList n hn).nil_of_firstChild hfirst]
    rfl
  | @staleLastChild n l hn hfirst _ hstrung hlast =>
    have hlist := h.childList n hn
    rw [hstrung.unique hlist.strung (hfirst.symm.trans hlist.firstChild)] at hlast
    exact hlast hlist.lastChild
  | @parentMismatch n c hn hc hparent =>
    have hlist := h.childList n hn
    exact hparent (hlist.parent c (hlist.lists_iff.mp hc))
  | @cycle n c hn hc hself =>
    have hlist := h.childList n hn
    exact hlist.not_precedes_self (hlist.lists_iff.mp hc) hself
  | @shared n p c hn hnc hp hpc hne =>
    have hparent {q : NodeId} (hq : a.Reached r q) (hqc : a.Lists q c) :
        (a.node c).parent = some q :=
      (h.childList q hq).parent c ((h.childList q hq).lists_iff.mp hqc)
    exact hne (Option.some.inj ((hparent hp hpc).symm.trans (hparent hn hnc)))
  | @listedRoot p hp hpr => exact h.not_listed p hp hpr

theorem Consistent.checkStructure_eq_ok (h : a.Consistent r) : a.checkStructure r = .ok () := by
  have hcheck := a.checks_checkStructure r
  cases hresult : a.checkStructure r with
  | ok => rfl
  | error e =>
    rw [hresult] at hcheck
    exact absurd (hcheck.violation (traced_start a r)) h.not_violation

theorem Linked.consistent (h : a.Linked) (r : NodeId) : a.Consistent r := by
  have hparent {p c : NodeId} (hc : a.Lists p c) : (a.node c).parent = some p :=
    h.mem_children.mp ((h.childList p).lists_iff.mp hc)
  refine ⟨fun p _ => h.childList p, fun p hp hpr => h.acyclic r ?_⟩
  have hpr' : a.Within p r := by
    clear hpr
    induction hp with
    | refl => exact .refl a r
    | tail _ hc ih => exact (Within.of_parent (hparent hc)).trans ih
  exact Relation.TransGen.head' (hparent hpr) hpr'

/-- **The structure check** finds nothing to complain about in a linked arena. -/
theorem Linked.checkStructure_eq_ok (h : a.Linked) (r : NodeId) : a.checkStructure r = .ok () :=
  (h.consistent r).checkStructure_eq_ok

end Arena

end ParseTree
