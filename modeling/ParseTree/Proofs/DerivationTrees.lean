import Mathlib.Algebra.BigOperators.Fin
import Mathlib.Data.Finite.Prod
import Mathlib.Data.Finite.Sigma
import Mathlib.Logic.Relation
import Mathlib.SetTheory.Cardinal.Finite
import ParseTree.Forest.Basic

/-!
# The derivations that a forest embeds

`Forest.Derivation i` is the type of the derivation trees of node `i`. Nothing is shared in such a
tree: if a node is met in several places, each of them has a derivation of its own.

A forest may embed infinitely many derivations, or trees that never end, but only where links lead
around a cycle. `Ends i` says that links from `i` on come to an end. Then the derivations of `i` are
finitely many, and their number obeys a recurrence: it is one for a leaf, and for an inner node the
sum over its active packs of the products over their parts.

## Main results

* `Ends.finite`: there are finitely many derivations where links end.
* `card_derivation_leaf`, `card_derivation_inner`: the recurrence for their number.
* `Ends.not_onCycle`: where links end, they lead to no cycle.
-/

namespace ParseTree

namespace Forest

variable {f : Forest} {i j r : Nat}

/-! ## Links to parts -/

/-- Node `i` is an inner node, and `j` is a part of one of its active packs. -/
def Leads (f : Forest) (i j : Nat) : Prop :=
  f.arity i ≠ 0 ∧ ∃ p ∈ f.activePacks i, j ∈ p.parts

instance : DecidableRel f.Leads := fun _ _ =>
  inferInstanceAs (Decidable (_ ∧ _))

/-- Node `j` is `i` or is met below it. -/
def Reaches (f : Forest) : Nat → Nat → Prop :=
  Relation.ReflTransGen f.Leads

/-- Node `i` is met below itself. -/
def OnCycle (f : Forest) (i : Nat) : Prop :=
  Relation.TransGen f.Leads i i

/-- Links from `i` on come to an end. -/
def Ends (f : Forest) (i : Nat) : Prop :=
  Acc (fun j i => f.Leads i j) i

theorem Ends.of_arity_eq_zero (h : f.arity i = 0) : f.Ends i :=
  Acc.intro i fun _ hj => absurd h hj.1

theorem Ends.of_parts (h : ∀ p ∈ f.activePacks i, ∀ j ∈ p.parts, f.Ends j) : f.Ends i :=
  Acc.intro i fun j hj => by
    obtain ⟨-, p, hp, hjp⟩ := hj
    exact h p hp j hjp

theorem Ends.part (h : f.Ends i) (hi : f.arity i ≠ 0) {p : Pack} (hp : p ∈ f.activePacks i)
    (hj : j ∈ p.parts) : f.Ends j :=
  h.inv ⟨hi, p, hp, hj⟩

theorem Ends.of_reaches (h : f.Ends r) (hi : f.Reaches r i) : f.Ends i := by
  induction hi with
  | refl => exact h
  | tail _ hij ih => exact ih.inv hij

/-- **Where links end, they lead to no cycle.** -/
theorem Ends.not_onCycle (h : f.Ends r) (hi : f.Reaches r i) : ¬ f.OnCycle i := by
  have hends := h.of_reaches hi
  clear h hi
  induction hends with
  | intro i _ ih =>
    intro hcycle
    obtain ⟨j, hij, hji⟩ := Relation.TransGen.head'_iff.mp hcycle
    exact ih j hij (Relation.TransGen.tail' hji hij)

/-- Links end below node `n` if there all parts come before the node. -/
theorem ends_of_parts_lt {n : Nat} (h : ∀ i < n, ∀ p ∈ f.activePacks i, ∀ j ∈ p.parts, j < i) :
    ∀ i < n, f.Ends i := by
  intro i
  induction i using Nat.strongRecOn with
  | ind i ih =>
    intro hi
    refine .of_parts fun p hp j hj => ?_
    have hlt : j < i := h i hi p hp j hj
    exact ih j hlt (hlt.trans hi)

/-! ## Derivation trees -/

/-- **The derivation trees of a node.** A leaf has one. A derivation of an inner node is the choice
of an active pack with a derivation of each of its parts, which are the left one, if there is one,
and the right one. -/
inductive Derivation (f : Forest) : Nat → Type
  | leaf {i : Nat} (h : f.arity i = 0) : Derivation f i
  | inner {i : Nat} (h : f.arity i ≠ 0) (k : Fin (f.activePacks i).length)
      (parts : ∀ j : Fin (f.activePacks i)[k].parts.length,
        Derivation f (f.activePacks i)[k].parts[j]) : Derivation f i

namespace Derivation

/-- A leaf has nothing but its leaf. -/
def equivUnit (h : f.arity i = 0) : f.Derivation i ≃ Unit where
  toFun _ := ()
  invFun _ := .leaf h
  left_inv
    | .leaf _ => rfl
    | .inner h' .. => absurd h h'
  right_inv _ := rfl

/-- What a derivation of an inner node consists of. -/
def equivSigma (h : f.arity i ≠ 0) : f.Derivation i ≃
    Σ k : Fin (f.activePacks i).length, ∀ j : Fin (f.activePacks i)[k].parts.length,
      f.Derivation (f.activePacks i)[k].parts[j] where
  toFun
    | .leaf h' => absurd h' h
    | .inner _ k parts => ⟨k, parts⟩
  invFun d := .inner h d.1 d.2
  left_inv
    | .leaf h' => absurd h' h
    | .inner .. => rfl
  right_inv _ := rfl

end Derivation

/-- The number of ways to derive the parts of a pack. -/
noncomputable def packCard (f : Forest) (p : Pack) : Nat :=
  (p.parts.map fun j => Nat.card (f.Derivation j)).prod

theorem card_pi_parts (f : Forest) (p : Pack) :
    Nat.card (∀ j : Fin p.parts.length, f.Derivation p.parts[j]) = f.packCard p := by
  rw [Nat.card_pi, packCard]
  exact Fin.prod_univ_fun_getElem p.parts fun j => Nat.card (f.Derivation j)

/-- **There are finitely many derivations where links end.** -/
theorem Ends.finite (h : f.Ends i) : Finite (f.Derivation i) := by
  induction h with
  | intro i _ ih =>
    by_cases hi : f.arity i = 0
    · exact .of_equiv _ (Derivation.equivUnit hi).symm
    · have hpart (k : Fin (f.activePacks i).length)
          (j : Fin (f.activePacks i)[k].parts.length) :
          Finite (f.Derivation (f.activePacks i)[k].parts[j]) :=
        ih _ ⟨hi, _, List.getElem_mem k.isLt, List.getElem_mem j.isLt⟩
      exact .of_equiv _ (Derivation.equivSigma hi).symm

/-- A leaf has one derivation. -/
theorem card_derivation_leaf (h : f.arity i = 0) : Nat.card (f.Derivation i) = 1 := by
  rw [Nat.card_congr (Derivation.equivUnit h), Nat.card_unique]

/-- **An inner node has the derivations of its active packs.** -/
theorem card_derivation_inner (hi : f.arity i ≠ 0) (h : f.Ends i) :
    Nat.card (f.Derivation i) = ((f.activePacks i).map f.packCard).sum := by
  have hpart (k : Fin (f.activePacks i).length) (j : Fin (f.activePacks i)[k].parts.length) :
      Finite (f.Derivation (f.activePacks i)[k].parts[j]) :=
    (h.part hi (List.getElem_mem k.isLt) (List.getElem_mem j.isLt)).finite
  calc Nat.card (f.Derivation i)
    _ = ∑ k : Fin (f.activePacks i).length, Nat.card
          (∀ j : Fin (f.activePacks i)[k].parts.length,
            f.Derivation (f.activePacks i)[k].parts[j]) := by
      rw [Nat.card_congr (Derivation.equivSigma hi), Nat.card_sigma]
    _ = ∑ k : Fin (f.activePacks i).length, f.packCard (f.activePacks i)[k] :=
      Finset.sum_congr rfl fun k _ => f.card_pi_parts _
    _ = ((f.activePacks i).map f.packCard).sum := Fin.sum_univ_fun_getElem _ f.packCard

end Forest

end ParseTree
