import Mathlib.Algebra.Order.BigOperators.Group.List
import ParseTree.Proofs.Counting

/-!
# Suppressed packs might as well not be there

Suppressed packs stay on the lists of their nodes, where a count has to step over them: at the
beginning of a list when the node is entered, and behind every pack that it adds. `Forest.Pruned`
compares a forest with one that has lost some of them. The two counts run in step: after as many
rounds they have the same memo, and the same nodes on the stack with the same totals and the same
next packs. So they end alike, with the same number or at the same node, which is more than the
number of derivations could tell, since a forest with a cycle has none.

To suppress packs that were active takes derivations away. There is no need to run anything for
that: links can only be lost, and so they still come to an end, and a node has the derivations of
fewer packs, each of which has no more than before.

## Main results

* `Tally.Pruned.round`, `Tally.Pruned.finish_eq`: the counts run in step, and end alike.
* `Forest.Suppressed.card_le`: suppressing packs takes derivations away.
* `Counter.countDerivations_of_pruned`: both, as results of counts.
-/

namespace ParseTree

open Forest

/-! ## Lists without suppressed packs -/

/-- The second list is the first one without some packs, all of which are suppressed. -/
inductive PrunedPacks : List Pack → List Pack → Prop
  | nil : PrunedPacks [] []
  | keep (p : Pack) {l l' : List Pack} (h : PrunedPacks l l') : PrunedPacks (p :: l) (p :: l')
  | drop {p : Pack} (hp : p.suppressed) {l l' : List Pack} (h : PrunedPacks l l') :
    PrunedPacks (p :: l) l'

namespace PrunedPacks

variable {p : Pack} {l l' : List Pack}

theorem eq_nil (h : PrunedPacks [] l) : l = [] := by
  cases h
  rfl

/-- A pack that is active has been kept. -/
theorem exists_cons (h : PrunedPacks (p :: l) l') (hp : p.suppressed = false) :
    ∃ l₀, l' = p :: l₀ ∧ PrunedPacks l l₀ := by
  cases h with
  | keep _ h => exact ⟨_, rfl, h⟩
  | drop hp' => simp [hp] at hp'

/-- What is stepped over in one list has been dropped or is stepped over in the other. -/
theorem unsuppressed (h : PrunedPacks l l') :
    PrunedPacks (ParseTree.unsuppressed l) (ParseTree.unsuppressed l') := by
  induction h with
  | nil => exact .nil
  | keep p h ih =>
    cases hp : p.suppressed with
    | true => simpa [ParseTree.unsuppressed, hp] using ih
    | false => simpa [ParseTree.unsuppressed, hp] using keep p h
  | drop hp h ih => simpa [ParseTree.unsuppressed, hp] using ih

/-- To leave out some suppressed packs of a list. -/
theorem filter {keeps : Nat → Bool} {pack : Nat → Pack}
    (h : ∀ p, keeps p = false → (pack p).suppressed) (numbers : List Nat) :
    PrunedPacks (numbers.map pack) ((numbers.filter keeps).map pack) := by
  induction numbers with
  | nil => exact .nil
  | cons p numbers ih =>
    cases hp : keeps p with
    | true => simpa [hp] using keep (pack p) ih
    | false => simpa [hp] using drop (h p hp) ih

end PrunedPacks

/-! ## Counts that run in step -/

/-- **Forest `g` is `f` without some suppressed packs** on the lists of its nodes. Its leaves are
those of `f`. -/
structure Forest.Pruned (f g : Forest) : Prop where
  arity_eq_zero : ∀ i, g.arity i = 0 ↔ f.arity i = 0
  packs : ∀ i, PrunedPacks (f.packsOf i) (g.packsOf i)

/-- The same node with the same total, and the same pack next. -/
structure Frame.Pruned (x y : Frame) : Prop where
  node : y.node = x.node
  packs : PrunedPacks x.packs y.packs
  total : y.total = x.total
  next_active : ∀ p ∈ x.packs.head?, p.suppressed = false

/-- The same is known, and the stacks are the same but for suppressed packs further down the lists.
-/
structure Tally.Pruned (t u : Tally) : Prop where
  stack : t.stack.Forall₂ Frame.Pruned u.stack
  memo : u.memo = t.memo

namespace Tally.Pruned

variable {f g : Forest} {t u : Tally}

theorem enter (hfg : f.Pruned g) (h : t.Pruned u) (j : Nat) :
    (f.enter j t).Pruned (g.enter j u) := by
  obtain ⟨hstack, hmemo⟩ := h
  unfold Forest.enter
  by_cases hleaf : f.arity j = 0
  · rw [if_pos hleaf, if_pos ((hfg.arity_eq_zero j).mpr hleaf)]
    exact ⟨hstack, by rw [hmemo]⟩
  · rw [if_neg hleaf, if_neg ((hfg.arity_eq_zero j).not.mpr hleaf)]
    have hframe : Frame.Pruned { node := j, packs := unsuppressed (f.packsOf j) }
        { node := j, packs := unsuppressed (g.packsOf j) } :=
      ⟨rfl, (hfg.packs j).unsuppressed, rfl, Frame.suppressed_of_mem_head?⟩
    exact ⟨.cons hframe hstack, by rw [hmemo]⟩

/-- **One round.** Both counts fail at the same part, or both go on and are in step again. -/
theorem round (hfg : f.Pruned g) (h : t.Pruned u) :
    (∃ j, f.round t = .error j ∧ g.round u = .error j) ∨
      ∃ t' u', f.round t = .ok t' ∧ g.round u = .ok u' ∧ t'.Pruned u' := by
  obtain ⟨stack, memo⟩ := t
  obtain ⟨stack', memo'⟩ := u
  obtain ⟨hstack, rfl⟩ : stack.Forall₂ Frame.Pruned stack' ∧ memo' = memo := ⟨h.stack, h.memo⟩
  cases hstack with
  | nil => exact .inr ⟨_, _, rfl, rfl, .nil, rfl⟩
  | @cons x y rest rest' hframe hrest =>
    obtain ⟨i, packs, total⟩ := x
    obtain ⟨i', packs', total'⟩ := y
    obtain ⟨rfl, hpacks, rfl, hactive⟩ := hframe
    cases packs with
    | nil =>
      obtain rfl := hpacks.eq_nil
      exact .inr ⟨_, _, rfl, rfl, hrest, rfl⟩
    | cons p later =>
      obtain ⟨later', rfl, hlater⟩ := hpacks.exists_cons (hactive p rfl)
      rw [Forest.round, Forest.round]
      split
      · next j _ =>
        split
        · exact .inl ⟨j, rfl, rfl⟩
        · exact .inr ⟨_, _, rfl, rfl, enter hfg h j⟩
      · have hframe := hlater.unsuppressed
        exact .inr ⟨_, _, rfl, rfl,
          .cons ⟨rfl, hframe, rfl, Frame.suppressed_of_mem_head?⟩ hrest, rfl⟩

/-- **The counts end alike.** -/
theorem finish_eq (hfg : f.Pruned g) (h : t.Pruned u) : g.finish u = f.finish t := by
  induction t using finish.induct f generalizing u with
  | case1 t hstack =>
    have hstack' : u.stack = [] := List.forall₂_nil_left_iff.mp (hstack ▸ h.stack)
    rw [finish_of_stack_eq_nil hstack, finish_of_stack_eq_nil hstack', h.memo]
  | case2 t hstack j hround =>
    have hstack' : u.stack ≠ [] := fun hnil =>
      hstack (List.forall₂_nil_right_iff.mp (hnil ▸ h.stack))
    obtain ⟨j', hf, hg⟩ | ⟨t', -, hf, -⟩ := h.round hfg
    · obtain rfl : j = j' := Except.error.inj (hround.symm.trans hf)
      rw [finish_of_round_eq_error hstack hf, finish_of_round_eq_error hstack' hg]
    · rw [hround] at hf
      cases hf
  | case3 t hstack t' hround ih =>
    have hstack' : u.stack ≠ [] := fun hnil =>
      hstack (List.forall₂_nil_right_iff.mp (hnil ▸ h.stack))
    obtain ⟨j, hf, -⟩ | ⟨t₁, u', hf, hg, hnext⟩ := h.round hfg
    · rw [hround] at hf
      cases hf
    · obtain rfl : t' = t₁ := Except.ok.inj (hround.symm.trans hf)
      rw [finish_of_round_eq_ok hstack hf, finish_of_round_eq_ok hstack' hg, ih hnext]

end Tally.Pruned

namespace Forest

variable {f g h : Forest} {i p : Nat}

/-- Leave out packs on the lists of nodes, those numbers that `gone` has for the node. -/
def leaveOut (f : Forest) (gone : Nat → Nat → Bool) : Forest :=
  { f with
    nodes := f.nodes.mapIdx fun i n => { n with packs := n.packs.filter fun p => !gone i p } }

theorem node_leaveOut (f : Forest) (gone : Nat → Nat → Bool) (i : Nat) :
    (f.leaveOut gone).node i =
      { f.node i with packs := (f.node i).packs.filter fun p => !gone i p } := by
  by_cases hi : i < f.nodes.size
  · simp [leaveOut, node, hi]
  · simp [leaveOut, node, hi, blankNode]

/-- Leaving out suppressed packs prunes a forest. -/
theorem pruned_leaveOut {gone : Nat → Nat → Bool}
    (hgone : ∀ i p, gone i p → (f.pack p).suppressed) : f.Pruned (f.leaveOut gone) where
  arity_eq_zero i := by
    simp only [arity, node_leaveOut]
    split <;> simp
  packs i := by
    have hkept : ∀ p, (!gone i p) = false → (f.pack p).suppressed := fun p hp =>
      hgone i p (by simpa using hp)
    rw [packsOf, packsOf, node_leaveOut, Array.toList_filter]
    exact PrunedPacks.filter hkept (f.node i).packs.toList

/-! ## More packs are suppressed -/

/-- **Forest `g` is `f` with more packs suppressed**: of the active packs of a node, some are left.
-/
structure Suppressed (f g : Forest) : Prop where
  arity_eq : ∀ i, g.arity i = f.arity i
  activePacks : ∀ i, (g.activePacks i).Sublist (f.activePacks i)

theorem Suppressed.refl (f : Forest) : f.Suppressed f :=
  ⟨fun _ => rfl, fun _ => .refl _⟩

theorem Suppressed.trans (hfg : f.Suppressed g) (hgh : g.Suppressed h) : f.Suppressed h where
  arity_eq i := (hgh.arity_eq i).trans (hfg.arity_eq i)
  activePacks i := (hgh.activePacks i).trans (hfg.activePacks i)

/-- A pack that is active now was active before, and is the same. -/
theorem pack_suppress (hq : ((f.suppress p).pack i).suppressed = false) :
    (f.suppress p).pack i = f.pack i := by
  simp only [suppress, pack, Array.getD_eq_getD_getElem?, Array.getElem?_modify] at hq ⊢
  grind

/-- Packs of which some are suppressed, and the others are the same as before. -/
theorem sublist_active {pack pack' : Nat → Pack}
    (h : ∀ q, (pack' q).suppressed = false → pack' q = pack q) (numbers : List Nat) :
    ((numbers.map pack').filter (!·.suppressed)).Sublist
      ((numbers.map pack).filter (!·.suppressed)) := by
  induction numbers with
  | nil => exact .refl _
  | cons q numbers ih =>
    rw [List.map_cons, List.map_cons]
    cases hq : (pack' q).suppressed with
    | true =>
      rw [List.filter_cons_of_neg (by simp [hq])]
      exact ih.trans ((List.sublist_cons_self ..).filter _)
    | false =>
      have hsame : pack' q = pack q := h q hq
      rw [hsame] at hq ⊢
      rw [List.filter_cons_of_pos (by simp [hq]), List.filter_cons_of_pos (by simp [hq])]
      exact ih.cons_cons _

theorem suppressed_suppress (f : Forest) (p : Nat) : f.Suppressed (f.suppress p) where
  arity_eq _ := rfl
  activePacks i := sublist_active (fun _ => pack_suppress) (f.node i).packs.toList

/-- Suppress the packs with the given numbers. -/
def suppressAll (f : Forest) (numbers : List Nat) : Forest :=
  numbers.foldl suppress f

theorem suppressed_suppressAll (f : Forest) (numbers : List Nat) :
    f.Suppressed (f.suppressAll numbers) := by
  induction numbers generalizing f with
  | nil => exact .refl f
  | cons p numbers ih => exact (suppressed_suppress f p).trans (ih (f.suppress p))

/-- A pack has no more derivations than before if its parts do not. -/
theorem packCard_le {q : Pack}
    (hparts : ∀ j ∈ q.parts, Nat.card (g.Derivation j) ≤ Nat.card (f.Derivation j)) :
    g.packCard q ≤ f.packCard q := by
  unfold packCard
  generalize q.parts = parts at hparts ⊢
  induction parts with
  | nil => exact Nat.le_refl _
  | cons j parts ih =>
    rw [List.map_cons, List.map_cons, List.prod_cons, List.prod_cons]
    exact Nat.mul_le_mul (hparts j List.mem_cons_self)
      (ih fun k hk => hparts k (List.mem_cons_of_mem _ hk))

/-- **Suppressing packs takes derivations away**, and links still come to an end. -/
theorem Suppressed.card_le (hfg : f.Suppressed g) (hi : f.Ends i) :
    g.Ends i ∧ Nat.card (g.Derivation i) ≤ Nat.card (f.Derivation i) := by
  induction hi with
  | intro i hacc ih =>
    have hends : f.Ends i := Acc.intro i hacc
    by_cases hleaf : f.arity i = 0
    · have hleaf' : g.arity i = 0 := (hfg.arity_eq i).trans hleaf
      rw [card_derivation_leaf hleaf, card_derivation_leaf hleaf']
      exact ⟨.of_arity_eq_zero hleaf', Nat.le_refl _⟩
    have hinner : g.arity i ≠ 0 := fun h => hleaf ((hfg.arity_eq i).symm.trans h)
    have hpart : ∀ q ∈ g.activePacks i, ∀ j ∈ q.parts,
        g.Ends j ∧ Nat.card (g.Derivation j) ≤ Nat.card (f.Derivation j) := fun q hq j hj =>
      ih j ⟨hleaf, q, (hfg.activePacks i).subset hq, hj⟩
    have hends' : g.Ends i := .of_parts fun q hq j hj => (hpart q hq j hj).1
    refine ⟨hends', ?_⟩
    rw [card_derivation_inner hinner hends', card_derivation_inner hleaf hends]
    calc ((g.activePacks i).map g.packCard).sum
      _ ≤ ((g.activePacks i).map f.packCard).sum :=
        List.sum_le_sum fun q hq => packCard_le fun j hj => (hpart q hq j hj).2
      _ ≤ ((f.activePacks i).map f.packCard).sum :=
        ((hfg.activePacks i).map f.packCard).sum_le_sum fun _ _ => Nat.zero_le _

end Forest

namespace Counter

variable {f g : Forest} {root : Nat}

/-- Where links end, a count gives the number of derivations. -/
theorem result_of_ends (h : f.Ends root) (memo : Memo) :
    (countDerivations ⟨f, memo⟩ root true).result = .ok (Nat.card (f.Derivation root)) := by
  rw [result_countDerivations]
  obtain ⟨-, hresult⟩ | ⟨i, -, hi, hcycle⟩ := ends_or_exists_cycle f root
  · exact hresult
  · exact absurd hcycle (h.not_onCycle hi)

/-- **Suppression equals absence, and takes derivations away.** A forest that has lost some of its
suppressed packs is counted as before, with the same number or with the same error, which names the
same node. If a count gives a number, then the count with any more packs suppressed gives a number
that is no greater. What the counters know to begin with does not matter. -/
theorem countDerivations_of_pruned (hfg : f.Pruned g) (root : Nat) (validParse : Bool)
    (memo memo' : Memo) :
    (countDerivations ⟨g, memo'⟩ root validParse).result =
      (countDerivations ⟨f, memo⟩ root validParse).result ∧
    ∀ numbers n, (countDerivations ⟨f, memo⟩ root validParse).result = .ok n →
      ∃ m ≤ n, (countDerivations ⟨f.suppressAll numbers, memo'⟩ root validParse).result =
        .ok m := by
  cases validParse with
  | false => exact ⟨rfl, fun _ _ => nofun⟩
  | true =>
    refine ⟨?_, fun numbers n hn => ?_⟩
    · have hstart : (f.start root).Pruned (g.start root) :=
        Tally.Pruned.enter hfg ⟨.nil, rfl⟩ root
      rw [result_countDerivations, result_countDerivations, hstart.finish_eq hfg]
    · rw [result_countDerivations] at hn
      obtain ⟨hends, hresult⟩ | ⟨j, hresult, -⟩ := ends_or_exists_cycle f root
      · obtain rfl := Except.ok.inj (hresult.symm.trans hn)
        obtain ⟨hends', hle⟩ := (f.suppressed_suppressAll numbers).card_le hends
        exact ⟨_, hle, result_of_ends hends' memo'⟩
      · rw [hresult] at hn
        cases hn

/-- A forest with suppressed packs at both ends of a list and in between, and with a node that has
no others. But for its being suppressed, that pack would close a cycle through the root. -/
def withSuppressed : Forest where
  nodes := #[⟨1, 0, 1, true, #[]⟩, ⟨2, 0, 1, false, #[0, 1, 2, 3, 4]⟩, ⟨3, 0, 1, false, #[5]⟩,
    ⟨0, 0, 1, false, #[6, 7]⟩]
  packs := #[⟨none, 0, true⟩, ⟨none, 0, false⟩, ⟨none, 0, true⟩, ⟨none, 0, false⟩,
    ⟨none, 0, true⟩, ⟨none, 3, true⟩, ⟨some 1, 1, false⟩, ⟨none, 2, false⟩]
  accepted := some 3

theorem ends_withSuppressed : ∀ i < 4, withSuppressed.Ends i :=
  ends_of_parts_lt (by decide)

theorem card_derivation_withSuppressed : Nat.card (withSuppressed.Derivation 3) = 4 := by
  have hleaf : Nat.card (withSuppressed.Derivation 0) = 1 := card_derivation_leaf rfl
  have hpart : Nat.card (withSuppressed.Derivation 1) = 2 := by
    rw [card_derivation_inner (by decide) (ends_withSuppressed 1 (by decide)),
      show withSuppressed.activePacks 1 = [⟨none, 0, false⟩, ⟨none, 0, false⟩] by rfl]
    simp [packCard, Pack.parts, hleaf]
  have hnone : Nat.card (withSuppressed.Derivation 2) = 0 := by
    rw [card_derivation_inner (by decide) (ends_withSuppressed 2 (by decide)),
      show withSuppressed.activePacks 2 = [] by rfl]
    rfl
  rw [card_derivation_inner (by decide) (ends_withSuppressed 3 (by decide)),
    show withSuppressed.activePacks 3 = [⟨some 1, 1, false⟩, ⟨none, 2, false⟩] by rfl]
  simp [packCard, Pack.parts, hpart, hnone]

/-- The suppressed packs are taken off the lists, and then another one is suppressed instead. -/
theorem countDerivations_withSuppressed :
    withSuppressed.Pruned
        (withSuppressed.leaveOut fun _ p => (withSuppressed.pack p).suppressed) ∧
      (countDerivations
        ⟨withSuppressed.leaveOut fun _ p => (withSuppressed.pack p).suppressed, {}⟩ 3 true).result =
          .ok 4 ∧
      ∃ m ≤ 4, (countDerivations ⟨withSuppressed.suppressAll [1], {}⟩ 3 true).result = .ok m := by
  have hpruned : withSuppressed.Pruned
      (withSuppressed.leaveOut fun _ p => (withSuppressed.pack p).suppressed) :=
    pruned_leaveOut fun _ _ => id
  have hcount := result_of_ends (ends_withSuppressed 3 (by decide)) {}
  rw [card_derivation_withSuppressed] at hcount
  obtain ⟨hsame, hfewer⟩ := countDerivations_of_pruned hpruned 3 true {} {}
  exact ⟨hpruned, hsame.trans hcount, hfewer [1] 4 hcount⟩

end Counter

end ParseTree
