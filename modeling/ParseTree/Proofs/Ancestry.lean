import Mathlib.Data.Finset.Card
import Mathlib.Data.Finset.Range
import Mathlib.Logic.Relation
import ParseTree.Proofs.ChildLists

/-!
# Well-formed arenas and the order of ancestors

`Linked` is the link invariant of a whole arena: every node has a child list, every node is in the
list of the parent that it names, roots have no siblings, and no node lies below itself. It says
nothing about labels, extents or tear stores.

Parent links order the nodes. `Below` is that order and `Within` is its reflexive form, so that
`Within i r` reads as "`i` is in the subtree at `r`". In a linked arena the order is well-founded in
both directions, since the arena is finite: `Linked.induction_up` proves a statement of a node from
the nodes above it, and `Linked.induction_down` from its children.

## Main results

* `Linked.of_childLists`: child lists, converse links and `Rooted` make an arena linked.
* `Within.total`: two nodes with a common node in their subtrees are related.
* `Linked.eq_of_within`: a node lies below one child of a node at most.
* `weight_lt_of_parent`, `weight_lt_size`: the number of nodes below a node bounds what is found
  below it.
-/

namespace ParseTree

namespace Arena

variable {a b : Arena} {i j p q r : NodeId}

/-! ## The order of ancestors -/

/-- Node `i` lies below `p`: parent links lead from `i` up to `p`. -/
def Below (a : Arena) : NodeId → NodeId → Prop :=
  Relation.TransGen fun i p => (a.node i).parent = some p

/-- Node `i` lies in the subtree at `r`, where `r` itself lies too. -/
def Within (a : Arena) : NodeId → NodeId → Prop :=
  Relation.ReflTransGen fun i p => (a.node i).parent = some p

@[refl] theorem Within.refl (a : Arena) (i : NodeId) : a.Within i i :=
  Relation.ReflTransGen.refl

theorem Within.trans (h : a.Within i j) (h' : a.Within j r) : a.Within i r :=
  Relation.ReflTransGen.trans h h'

theorem Within.of_parent (h : (a.node i).parent = some p) : a.Within i p :=
  Relation.ReflTransGen.single h

theorem Below.of_parent (h : (a.node i).parent = some p) : a.Below i p :=
  Relation.TransGen.single h

theorem Below.within (h : a.Below i p) : a.Within i p :=
  Relation.TransGen.to_reflTransGen h

theorem Below.trans (h : a.Below i p) (h' : a.Below p r) : a.Below i r :=
  Relation.TransGen.trans h h'

theorem Within.trans_below (h : a.Within i p) (h' : a.Below p r) : a.Below i r :=
  Relation.TransGen.trans_right h h'

/-- A node in a subtree is its root or lies below it. -/
theorem within_iff : a.Within i r ↔ i = r ∨ a.Below i r := by
  rw [Within, Relation.reflTransGen_iff_eq_or_transGen, eq_comm, Below]

/-- Going up begins with the parent. -/
theorem below_iff : a.Below i r ↔ ∃ p, (a.node i).parent = some p ∧ a.Within p r :=
  Relation.TransGen.head'_iff

theorem Below.within_parent (h : a.Below i r) (hp : (a.node i).parent = some p) :
    a.Within p r := by
  obtain ⟨q, hq, hqr⟩ := below_iff.mp h
  obtain rfl : p = q := Option.some.inj (hp.symm.trans hq)
  exact hqr

theorem Within.below (h : a.Within i r) (hne : i ≠ r) : a.Below i r :=
  (within_iff.mp h).resolve_left hne

/-- Nothing lies above a root. -/
theorem Within.eq_of_root (h : a.Within i r) (hi : (a.node i).parent = none) : i = r := by
  refine (within_iff.mp h).resolve_right fun hb => ?_
  obtain ⟨p, hp, -⟩ := below_iff.mp hb
  simp [hi] at hp

/-- The way up is one: of two nodes above `i`, one is above the other. -/
theorem Within.total (hi : a.Within i p) (hj : a.Within i q) : a.Within p q ∨ a.Within q p :=
  Relation.ReflTransGen.total_of_right_unique
    (fun _ _ _ h h' => Option.some.inj (h.symm.trans h')) hi hj

theorem Below.lt_size (h : a.Below i p) : i < a.size := by
  obtain ⟨q, hq, -⟩ := below_iff.mp h
  exact lt_size_of_parent hq

/-- Going up from `i` comes to an end. -/
def Rooted (a : Arena) (i : NodeId) : Prop :=
  Acc (fun p c => (a.node c).parent = some p) i

theorem Rooted.of_parent (h : (a.node i).parent = some p) (hp : a.Rooted p) : a.Rooted i :=
  Acc.intro i fun q hq => by
    obtain rfl : p = q := Option.some.inj (h.symm.trans hq)
    exact hp

theorem Rooted.of_root (h : (a.node i).parent = none) : a.Rooted i :=
  Acc.intro i fun q hq => by simp [h] at hq

theorem Rooted.not_below (h : a.Rooted i) : ¬ a.Below i i := by
  induction h with
  | intro i _ ih =>
    intro hi
    obtain ⟨p, hp, hpi⟩ := below_iff.mp hi
    exact ih p hp (hpi.trans_below (.of_parent hp))

/-! ## Linked arenas -/

/-- **The link invariant of an arena.** -/
structure Linked (a : Arena) : Prop where
  /-- The links of every node make up its child list. -/
  childList : ∀ i, a.IsChildList i (a.children i)
  /-- Every node is in the list of the parent that it names. -/
  mem_children_of_parent : ∀ {i p}, (a.node i).parent = some p → i ∈ a.children p
  /-- A root is in no list, and nothing follows it. -/
  nextSibling_of_root : ∀ {i}, (a.node i).parent = none → (a.node i).nextSibling = none
  /-- No node lies below itself. -/
  acyclic : ∀ i, ¬ a.Below i i

/-- An arena is linked if it has child lists, whichever way they were found. -/
theorem Linked.of_childLists {kids : NodeId → List NodeId} (hkids : ∀ i, a.IsChildList i (kids i))
    (hmem : ∀ {i p}, (a.node i).parent = some p → i ∈ kids p)
    (hroot : ∀ {i}, (a.node i).parent = none → (a.node i).nextSibling = none)
    (hrooted : ∀ i, a.Rooted i) : a.Linked ∧ a.children = kids := by
  obtain ⟨hlists, heq⟩ := HasChildLists.of_isChildList hkids
  refine ⟨⟨hlists, fun {i p} h => ?_, hroot, fun i => (hrooted i).not_below⟩, heq⟩
  rw [heq]
  exact hmem h

namespace Linked

theorem hasChildLists (h : a.Linked) : a.HasChildLists :=
  h.childList

theorem mem_children (h : a.Linked) : i ∈ a.children p ↔ (a.node i).parent = some p :=
  ⟨(h.childList p).parent i, h.mem_children_of_parent⟩

theorem nodup_children (h : a.Linked) (i : NodeId) : (a.children i).Nodup :=
  (h.childList i).nodup

theorem lt_size_of_mem (h : a.Linked) (hi : i ∈ a.children p) : i < a.size :=
  (h.childList p).lt_size hi

theorem parent_lt_size (h : a.Linked) (hi : (a.node i).parent = some p) : p < a.size :=
  (h.childList p).owner_lt_size (h.mem_children_of_parent hi)

theorem within_lt_size (h : a.Linked) (hi : a.Within i r) (hlt : i < a.size) : r < a.size := by
  induction hi with
  | refl => exact hlt
  | tail _ hr _ => exact h.parent_lt_size hr

theorem children_eq_nil (h : a.Linked) (hi : a.size ≤ i) : a.children i = [] := by
  refine (h.childList i).nil_of_firstChild ?_
  rw [node_of_size_le hi]
  rfl

/-- A node in a child list, with the nodes before it and after it. -/
theorem exists_children_eq (h : a.Linked) (hi : (a.node i).parent = some p) :
    ∃ before after, a.children p = before ++ i :: after :=
  List.append_of_mem (h.mem_children_of_parent hi)

theorem nextSibling_eq (h : a.Linked) {before after : List NodeId}
    (hp : a.children p = before ++ i :: after) : (a.node i).nextSibling = after.head? := by
  have hs := (h.childList p).strung
  rw [hp] at hs
  simpa using hs.nextSibling

theorem parent_eq (h : a.Linked) {before after : List NodeId}
    (hp : a.children p = before ++ i :: after) : (a.node i).parent = some p :=
  h.mem_children.mp (by rw [hp]; simp)

/-- Parent and child are different nodes. -/
theorem ne_of_parent (h : a.Linked) (hi : (a.node i).parent = some p) : i ≠ p := by
  rintro rfl
  exact h.acyclic i (.of_parent hi)

theorem below_iff_within_ne (h : a.Linked) : a.Below i r ↔ a.Within i r ∧ i ≠ r := by
  refine ⟨fun hir => ⟨hir.within, ?_⟩, fun ⟨hir, hne⟩ => hir.below hne⟩
  rintro rfl
  exact h.acyclic i hir

/-- A node lies in the subtree of one child at most. -/
theorem eq_of_within (h : a.Linked) (hi : (a.node i).parent = some p)
    (hj : (a.node j).parent = some p) (hri : a.Within r i) (hrj : a.Within r j) : i = j := by
  by_contra hne
  rcases hri.total hrj with hij | hji
  · exact h.acyclic p (((hij.below hne).within_parent hi).trans_below (.of_parent hj))
  · exact h.acyclic p (((hji.below (Ne.symm hne)).within_parent hj).trans_below (.of_parent hi))

/-! ## Induction along parent links -/

open Classical in
theorem rooted (h : a.Linked) (i : NodeId) : a.Rooted i := by
  -- the number of nodes above a node falls on the way up
  let above : NodeId → Nat := fun i => ((Finset.range a.size).filter (a.Below i)).card
  have hlt : ∀ {i p}, (a.node i).parent = some p → above p < above i := by
    intro i p hp
    refine Finset.card_lt_card (Finset.ssubset_iff_subset_ne.mpr ⟨fun q hq => ?_, fun heq => ?_⟩)
    · obtain ⟨hq, hpq⟩ := Finset.mem_filter.mp hq
      exact Finset.mem_filter.mpr ⟨hq, Below.trans (.of_parent hp) hpq⟩
    · have hmem : p ∈ (Finset.range a.size).filter (a.Below i) :=
        Finset.mem_filter.mpr ⟨Finset.mem_range.mpr (h.parent_lt_size hp), .of_parent hp⟩
      rw [← heq] at hmem
      exact h.acyclic p (Finset.mem_filter.mp hmem).2
  exact Subrelation.accessible (fun hp => hlt hp) ((measure above).wf.apply i)

/-- What holds of a node if it holds of all nodes above it, holds of every node. -/
theorem induction_up (h : a.Linked) {motive : NodeId → Prop}
    (step : ∀ i, (∀ p, a.Below i p → motive p) → motive i) (i : NodeId) : motive i := by
  have key : ∀ i, a.Rooted i → ∀ q, a.Within i q → motive q := by
    intro i hi
    induction hi with
    | intro i _ ih =>
      have habove : ∀ p, a.Below i p → motive p := by
        intro p hp
        obtain ⟨q, hq, hqp⟩ := below_iff.mp hp
        exact ih q hq p hqp
      intro q hq
      rcases within_iff.mp hq with rfl | hq
      · exact step i habove
      · exact habove q hq
  exact key i (h.rooted i) i (.refl a i)

/-- Other parent links come to an end as well if every parent is rooted as soon as the nodes that
were above are. -/
theorem rooted_of_above (h : a.Linked)
    (hb : ∀ {i p}, (b.node i).parent = some p → (∀ q, a.Below i q → b.Rooted q) → b.Rooted p)
    (i : NodeId) : b.Rooted i := by
  refine h.induction_up (fun i ih => ?_) i
  cases hi : (b.node i).parent with
  | none => exact .of_root hi
  | some p => exact .of_parent hi (hb hi ih)

end Linked

open Classical in
/-- The number of nodes below `i`. -/
noncomputable def weight (a : Arena) (i : NodeId) : Nat :=
  ((Finset.range a.size).filter fun j => a.Below j i).card

open Classical in
theorem Linked.weight_lt_of_parent (h : a.Linked) (hi : (a.node i).parent = some p) :
    a.weight i < a.weight p := by
  refine Finset.card_lt_card (Finset.ssubset_iff_subset_ne.mpr ⟨fun j hj => ?_, fun heq => ?_⟩)
  · obtain ⟨hj, hji⟩ := Finset.mem_filter.mp hj
    exact Finset.mem_filter.mpr ⟨hj, hji.trans (.of_parent hi)⟩
  · have hmem : i ∈ (Finset.range a.size).filter fun j => a.Below j p :=
      Finset.mem_filter.mpr ⟨Finset.mem_range.mpr (lt_size_of_parent hi), .of_parent hi⟩
    rw [← heq] at hmem
    exact h.acyclic i (Finset.mem_filter.mp hmem).2

open Classical in
theorem Linked.weight_lt_size (h : a.Linked) (hi : i < a.size) : a.weight i < a.size := by
  have hsub : ((Finset.range a.size).filter fun j => a.Below j i) ⊆
      (Finset.range a.size).erase i := by
    intro j hj
    obtain ⟨hj, hji⟩ := Finset.mem_filter.mp hj
    refine Finset.mem_erase.mpr ⟨?_, hj⟩
    rintro rfl
    exact h.acyclic j hji
  have hcard := Finset.card_le_card hsub
  rw [Finset.card_erase_of_mem (Finset.mem_range.mpr hi), Finset.card_range] at hcard
  exact Nat.lt_of_le_of_lt hcard (Nat.sub_lt (Nat.zero_lt_of_lt hi) Nat.one_pos)

/-- What holds of a node if it holds of its children, holds of every node. -/
theorem Linked.induction_down (h : a.Linked) {motive : NodeId → Prop}
    (step : ∀ i, (∀ c ∈ a.children i, motive c) → motive i) (i : NodeId) : motive i := by
  generalize hn : a.weight i = n
  induction n using Nat.strong_induction_on generalizing i with
  | _ n ih =>
    refine step i fun c hc => ih _ ?_ c rfl
    rw [← hn]
    exact h.weight_lt_of_parent (h.mem_children.mp hc)

end Arena

end ParseTree
