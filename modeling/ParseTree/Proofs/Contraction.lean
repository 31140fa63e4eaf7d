import Mathlib.Data.List.Find
import ParseTree.Proofs.Contents
import ParseTree.Proofs.Preorder
import ParseTree.Proofs.WalkOrder

/-!
# Folding contracts a tree

A table whose rules all fold under takes nodes out of a tree, each of them replaced by its children.
The conditions of its rules are evaluated in the middle of the run, on a tree that has lost nodes
already. What they look at has not changed by then: a walk goes from the leaves upwards, so that the
nodes above the one that is shown are all still there. (A condition on siblings would be another
matter.) So the nodes that go can be told from the tree as it was before the run.

`Contracted` describes a tree that has lost some nodes by the pre-order lists of its subtrees. They
are the former ones without the nodes that are gone, and this determines all parents: that of a node
is the nearest node above it that is not gone.

## Main results

* `Linked.subtree_promote`: promoting the children of a node takes it out of the pre-order lists.
* `Contracted.parent_eq_some_iff`: parents in a contracted tree.
* `RuleTable.contracted_transform`, `RuleTable.contracted_transformAll`: one node is shown, and any
  number of them.
* `RuleTable.walk_contracts`: a walk contracts a tree.
-/

namespace ParseTree

namespace Arena

variable {a b d : Arena} {gone before after : List NodeId} {i p q r x y : NodeId}
  {o prev : Option NodeId} {replacement : Option (NodeId × NodeId)}

/-! ## Promotion -/

/-- The pre-order list of `x`. In the place of node `i`, it is that of the trees at `kids`. -/
def subtreeOrKids (a : Arena) (i : NodeId) (kids : List NodeId) (x : NodeId) : List NodeId :=
  if x = i then kids.flatMap a.subtree else a.subtree x

theorem flatMap_subtreeOrKids {l kids : List NodeId} (hl : i ∉ l) :
    l.flatMap (a.subtreeOrKids i kids) = l.flatMap a.subtree := by
  refine List.flatMap_congr fun c hc => if_neg ?_
  rintro rfl
  exact hl hc

/-- Where children are promoted, their lists stand in the place of the list of their parent. -/
theorem Linked.flatMap_promoted (h : b.Linked) (hp : b.children p = before ++ i :: after)
    (hkids : d.children =
      Function.update (Function.update b.children p (before ++ b.children i ++ after)) i [])
    (hx : x ≠ i) :
    (d.children x).flatMap d.subtree =
      (b.children x).flatMap (d.subtreeOrKids i (b.children i)) := by
  rw [hkids, Function.update_of_ne hx]
  by_cases hxp : x = p
  · obtain ⟨-, hi, hne⟩ := List.nodup_append.mp (hp ▸ h.nodup_children p)
    have hbefore : i ∉ before := fun hmem => hne i hmem i List.mem_cons_self rfl
    have hafter : i ∉ after := (List.nodup_cons.mp hi).1
    rw [hxp, Function.update_self, hp]
    simp only [List.flatMap_append, List.flatMap_cons, flatMap_subtreeOrKids hbefore,
      flatMap_subtreeOrKids hafter, subtreeOrKids, if_true, List.append_assoc]
  · have hi : i ∉ b.children x := fun hmem =>
      hxp (Option.some.inj ((h.mem_children.mp hmem).symm.trans (h.parent_eq hp)))
    rw [Function.update_of_ne hxp, flatMap_subtreeOrKids hi]

/-- **Promotion takes a node out of the pre-order lists.** -/
theorem Linked.subtreeOrKids_promote (h : b.Linked) (hp : b.children p = before ++ i :: after)
    (x : NodeId) :
    (b.promote p before.getLast? i).subtreeOrKids i (b.children i) x =
      (b.subtree x).filter (· ≠ i) := by
  obtain ⟨hlinked, hkids⟩ := h.promote hp
  generalize b.promote p before.getLast? i = d at hlinked hkids ⊢
  induction x using h.induction_down with
  | _ x ih =>
    have hfilter : (b.children x).flatMap (d.subtreeOrKids i (b.children i)) =
        ((b.children x).flatMap b.subtree).filter (· ≠ i) := by
      rw [List.filter_flatMap]
      exact List.flatMap_congr ih
    by_cases hxi : x = i
    · subst hxi
      have hmem : x ∉ b.children x := fun hmem => h.ne_of_parent (h.mem_children.mp hmem) rfl
      rw [subtreeOrKids, if_pos rfl, h.subtree_eq, List.filter_cons_of_neg (by simp), ← hfilter,
        flatMap_subtreeOrKids hmem]
    · rw [subtreeOrKids, if_neg hxi, hlinked.subtree_eq, h.subtree_eq,
        h.flatMap_promoted hp hkids hxi, hfilter, List.filter_cons_of_pos (by simpa using hxi)]

theorem Linked.subtree_promote (h : b.Linked) (hp : b.children p = before ++ i :: after)
    (hx : x ≠ i) :
    (b.promote p before.getLast? i).subtree x = (b.subtree x).filter (· ≠ i) := by
  rw [← h.subtreeOrKids_promote hp x, subtreeOrKids, if_neg hx]

/-! ## Contracted trees -/

/-- **Arena `b` is `a` without the nodes that are gone.** These are left alone, and every pre-order
list of another node is the former one without them. -/
structure Contracted (a b : Arena) (gone : List NodeId) : Prop where
  linked : b.Linked
  size_eq : b.size = a.size
  content_eq : ∀ x, (b.node x).content = (a.node x).content
  subtree_eq : ∀ x ∉ gone, b.subtree x = (a.subtree x).filter (· ∉ gone)
  isolated : ∀ x ∈ gone, (b.node x).parent = none ∧ b.children x = []

namespace Contracted

theorem refl (ha : a.Linked) : a.Contracted a [] where
  linked := ha
  size_eq := rfl
  content_eq _ := rfl
  subtree_eq x _ := by simp
  isolated := by simp

/-- What a node stands for is not touched. -/
theorem field_eq {α : Type*} (h : a.Contracted b gone) (f : Node → α)
    (hf : ∀ n, f n.content = f n) (x : NodeId) : f (b.node x) = f (a.node x) := by
  rw [← hf, h.content_eq, hf]

theorem label_eq (h : a.Contracted b gone) (x : NodeId) :
    (b.node x).label = (a.node x).label :=
  h.field_eq Node.label (fun _ => rfl) x

theorem not_mem_of_parent (h : a.Contracted b gone) (hx : (b.node x).parent = some p) :
    x ∉ gone ∧ p ∉ gone := by
  refine ⟨fun hgone => ?_, fun hgone => ?_⟩
  · simp [(h.isolated x hgone).1] at hx
  · have hmem := h.linked.mem_children_of_parent hx
    simp [(h.isolated p hgone).2] at hmem

/-- What is not gone is below the nodes that it was below. -/
theorem within_iff (ha : a.Linked) (h : a.Contracted b gone) (hx : x ∉ gone) (hy : y ∉ gone) :
    b.Within x y ↔ a.Within x y := by
  rw [← h.linked.mem_subtree, h.subtree_eq y hy, List.mem_filter, ha.mem_subtree]
  simp [hx]

theorem below_iff (ha : a.Linked) (h : a.Contracted b gone) (hx : x ∉ gone) (hy : y ∉ gone) :
    b.Below x y ↔ a.Below x y := by
  rw [h.linked.below_iff_within_ne, ha.below_iff_within_ne, h.within_iff ha hx hy]

/-- **The parent of a node** is the nearest node above it that is not gone. -/
theorem parent_eq_some_iff (ha : a.Linked) (h : a.Contracted b gone) (hx : x ∉ gone) :
    (b.node x).parent = some p ↔
      a.Below x p ∧ p ∉ gone ∧ ∀ q, a.Below x q → q ∉ gone → a.Within p q := by
  have hnearest {q : NodeId} (hq : (b.node x).parent = some q) :
      a.Below x q ∧ q ∉ gone ∧ ∀ s, a.Below x s → s ∉ gone → a.Within q s := by
    have hqg := (h.not_mem_of_parent hq).2
    refine ⟨(h.below_iff ha hx hqg).mp (.of_parent hq), hqg, fun s hs hsg => ?_⟩
    exact (h.within_iff ha hqg hsg).mp (((h.below_iff ha hx hsg).mpr hs).within_parent hq)
  refine ⟨hnearest, fun ⟨hxp, hpg, hleast⟩ => ?_⟩
  obtain ⟨q, hq, -⟩ := Arena.below_iff.mp ((h.below_iff ha hx hpg).mpr hxp)
  obtain ⟨hxq, hqg, hleast'⟩ := hnearest hq
  have hpq : a.Within p q := hleast q hxq hqg
  have hqp : a.Within q p := hleast' p hxp hpg
  rcases Arena.within_iff.mp hpq with rfl | hpq
  · exact hq
  · exact absurd (hqp.trans_below hpq) (ha.acyclic q)

/-- A node whose parent is not gone keeps it, and a root stays a root. -/
theorem parent_eq (ha : a.Linked) (h : a.Contracted b gone) (hx : x ∉ gone)
    (hp : ∀ p ∈ (a.node x).parent, p ∉ gone) : (b.node x).parent = (a.node x).parent := by
  cases hxp : (a.node x).parent with
  | none =>
    refine Option.eq_none_iff_forall_ne_some.mpr fun q hq => ?_
    obtain ⟨hxq, -⟩ := (h.parent_eq_some_iff ha hx).mp hq
    obtain ⟨p, hp, -⟩ := Arena.below_iff.mp hxq
    simp [hxp] at hp
  | some p =>
    exact (h.parent_eq_some_iff ha hx).mpr
      ⟨.of_parent hxp, hp p hxp, fun q hq _ => hq.within_parent hxp⟩

/-- What is gone has no links. -/
theorem links_eq_none (h : a.Contracted b gone) (hx : x ∈ gone) :
    (b.node x).parent = none ∧ (b.node x).firstChild = none ∧ (b.node x).nextSibling = none ∧
      (b.node x).lastChild = none := by
  obtain ⟨hparent, hkids⟩ := h.isolated x hx
  have hlist := h.linked.childList x
  rw [hkids] at hlist
  exact ⟨hparent, hlist.firstChild, h.linked.nextSibling_of_root hparent, hlist.lastChild⟩

/-- **One more node is gone** when its children are promoted. -/
theorem promote (h : a.Contracted b gone) (hp : b.children p = before ++ i :: after) :
    a.Contracted (b.promote p before.getLast? i) (gone ++ [i]) := by
  have hip : (b.node i).parent = some p := h.linked.parent_eq hp
  obtain ⟨hi, hpg⟩ := h.not_mem_of_parent hip
  obtain ⟨hlinked, hkids⟩ := h.linked.promote hp
  have hparent (x : NodeId) : ((b.promote p before.getLast? i).node x).parent =
      if x = i then none else if x ∈ b.children i then some p else (b.node x).parent :=
    parent_promote (lt_size_of_parent hip) fun k hk => h.linked.lt_size_of_mem hk
  refine ⟨hlinked, by rw [size_promote, h.size_eq], fun x => by rw [content_promote, h.content_eq],
    fun x hx => ?_, fun x hx => ?_⟩
  · obtain ⟨hxg, hxi⟩ : x ∉ gone ∧ x ≠ i := by simpa using hx
    rw [h.linked.subtree_promote hp hxi, h.subtree_eq x hxg, List.filter_filter]
    simp [and_comm]
  · rw [hparent, hkids]
    by_cases hxi : x = i
    · rw [if_pos hxi, hxi, Function.update_self]
      exact ⟨rfl, rfl⟩
    · have hxg : x ∈ gone := by simpa [hxi] using hx
      obtain ⟨hroot, hnil⟩ := h.isolated x hxg
      have hxp : x ≠ p := fun hxp => hpg (hxp ▸ hxg)
      have hmem : x ∉ b.children i := fun hmem => by
        simp [h.linked.mem_children.mp hmem] at hroot
      rw [if_neg hxi, if_neg hmem, Function.update_of_ne hxi, Function.update_of_ne hxp]
      exact ⟨hroot, hnil⟩

end Contracted

/-- **The tree at `r` has been contracted.** Of the nodes below `r`, those that satisfy `goes` were
taken out; nothing else was done. -/
structure ContractedBelow (a b : Arena) (r : NodeId) (goes : NodeId → Bool) : Prop where
  linked : b.Linked
  root : (b.node r).parent = (a.node r).parent
  /-- The other nodes are left, in the order that they had. -/
  descendants_eq : b.descendants r b.size =
    (a.descendants r a.size).filter fun x => x = r ∨ goes x = false
  /-- The parent of a node that is left is the nearest node that was above it and is left. -/
  parent : ∀ x, a.Below x r → goes x = false → ∃ p, (b.node x).parent = some p ∧
    a.Below x p ∧ ¬ (a.Below p r ∧ goes p) ∧
      ∀ q, a.Below x q → ¬ (a.Below q r ∧ goes q) → a.Within p q
  /-- No node has another label, kind or extent. -/
  fields : ∀ x, (b.node x).label = (a.node x).label ∧ (b.node x).kind = (a.node x).kind ∧
    (b.node x).left = (a.node x).left ∧ (b.node x).right = (a.node x).right
  /-- The nodes that were taken out have no links. -/
  isolated : ∀ x, a.Below x r → goes x → (b.node x).parent = none ∧
    (b.node x).firstChild = none ∧ (b.node x).nextSibling = none ∧ (b.node x).lastChild = none

theorem Contracted.contractedBelow (ha : a.Linked) (hr : r < a.size) {goes : NodeId → Bool}
    (h : a.Contracted b ((a.postorderBelow r).filter goes)) : a.ContractedBelow b r goes := by
  have hgone (x : NodeId) :
      x ∈ (a.postorderBelow r).filter goes ↔ a.Below x r ∧ goes x := by
    rw [List.mem_filter, ha.mem_postorderBelow]
  have hroot : r ∉ (a.postorderBelow r).filter goes := fun hmem =>
    ha.acyclic r ((hgone r).mp hmem).1
  refine ⟨h.linked, h.parent_eq ha hroot fun p hp hmem => ?_, ?_, fun x hx hxg => ?_, fun x => ?_,
    fun x hx hxg => ?_⟩
  · exact ha.acyclic r (.trans (.of_parent hp) ((hgone p).mp hmem).1)
  · rw [h.linked.descendants_eq_subtree (h.size_eq ▸ hr) (Nat.le_refl _),
      ha.descendants_eq_subtree hr (Nat.le_refl _), h.subtree_eq r hroot]
    refine List.filter_congr fun x hx => decide_eq_decide.mpr ?_
    rw [hgone]
    rcases Arena.within_iff.mp (ha.mem_subtree.mp hx) with rfl | hxr
    · simp [ha.acyclic]
    · simp [hxr, (ha.below_iff_within_ne.mp hxr).2]
  · have hxn : x ∉ (a.postorderBelow r).filter goes := by simp [hgone, hxg]
    have hxr : b.Below x r := (h.below_iff ha hxn hroot).mpr hx
    obtain ⟨p, hp, -⟩ := Arena.below_iff.mp hxr
    obtain ⟨hxp, hpg, hleast⟩ := (h.parent_eq_some_iff ha hxn).mp hp
    exact ⟨p, hp, hxp, mt (hgone p).mpr hpg, fun q hq hqg => hleast q hq (mt (hgone q).mp hqg)⟩
  · exact ⟨h.label_eq x, h.field_eq Node.kind (fun _ => rfl) x,
      h.field_eq Node.left (fun _ => rfl) x, h.field_eq Node.right (fun _ => rfl) x⟩
  · exact h.links_eq_none ((hgone x).mpr ⟨hx, hxg⟩)

end Arena

/-! ## Rule tables that fold under -/

namespace Condition

variable {a b : Arena} {i : NodeId} {c : Condition}

/-- A condition that does not look at siblings depends on labels, and on the two nodes above. -/
theorem holds_congr (hlabel : ∀ x, (b.node x).label = (a.node x).label)
    (hparent : (b.node i).parent = (a.node i).parent)
    (hgrand : ∀ p ∈ (a.node i).parent, (b.node p).parent = (a.node p).parent)
    (hc : c ≠ .notOnlyChild) : c.holds b i = c.holds a i := by
  have hin : ∀ o labels, labelIn b o labels = labelIn a o labels := by
    rintro (_ | x) labels
    · rfl
    · rw [labelIn, labelIn, hlabel]
  cases c with
  | always => rfl
  | parentIs labels => rw [holds, holds, hparent, hin]
  | parentIsNot labels => rw [holds, holds, hparent, hin]
  | grandparentIsNot labels =>
    rw [holds, holds, hparent, hin]
    cases hp : (a.node i).parent with
    | none => rfl
    | some p => rw [Option.bind_some, Option.bind_some, hgrand p hp]
  | notOnlyChild => exact absurd rfl hc

end Condition

namespace RuleTable

open Arena

variable {t : RuleTable} {a b : Arena} {i r : NodeId} {gone : List NodeId}

/-- All rules of the table fold under, and none of them looks at siblings. -/
def OnlyFoldsUnder (t : RuleTable) : Prop :=
  ∀ e ∈ t.entries, ∀ rule ∈ e.2, rule.action = .edit .foldUnder ∧ rule.when ≠ .notOnlyChild

instance (t : RuleTable) : Decidable t.OnlyFoldsUnder :=
  inferInstanceAs (Decidable (∀ e ∈ t.entries, ∀ rule ∈ e.2, _ ∧ _))

/-- Some rule for the label of node `i` holds at `i`. -/
def applies (t : RuleTable) (a : Arena) (i : NodeId) : Bool :=
  (t.rulesFor (a.node i).label).any fun rule => rule.when.holds a i

theorem exists_mem_entries {label : String} {rule : Rule} (h : rule ∈ t.rulesFor label) :
    ∃ e ∈ t.entries, rule ∈ e.2 := by
  rw [rulesFor, find?] at h
  cases hl : t.entries.lookup label with
  | none => simp [hl] at h
  | some rules =>
    obtain ⟨l, m, hentries, -⟩ := List.lookup_eq_some_iff.mp hl
    exact ⟨(label, rules), by simp [hentries], by simpa [hl] using h⟩

theorem OnlyFoldsUnder.gathersSiblings_eq (ht : t.OnlyFoldsUnder) : t.gathersSiblings = false := by
  simp only [gathersSiblings, List.any_eq_false, Bool.not_eq_true]
  intro e he rule hrule
  rw [(ht e he rule hrule).1]
  rfl

/-- Whether some rule applies to a node does not depend on nodes that are gone, as long as the
parent and the grandparent are there. -/
theorem match?_congr (ht : t.OnlyFoldsUnder) (hlabel : ∀ x, (b.node x).label = (a.node x).label)
    (hparent : (b.node i).parent = (a.node i).parent)
    (hgrand : ∀ p ∈ (a.node i).parent, (b.node p).parent = (a.node p).parent) :
    t.match? b i = t.match? a i := by
  rw [match?, match?, hlabel]
  refine List.find?_congr fun rule hrule => ?_
  obtain ⟨e, he, hmem⟩ := exists_mem_entries hrule
  exact Condition.holds_congr hlabel hparent hgrand (ht e he rule hmem).2

theorem isSome_match? (t : RuleTable) (a : Arena) (i : NodeId) :
    (t.match? a i).isSome = t.applies a i :=
  List.isSome_find?

/-- The nodes of a list, one after the other, as the table transforms them. -/
def transformAll (t : RuleTable) (input : String) (l : List NodeId) (a : Arena) : Arena :=
  l.foldl (fun a i => (t.transform input a i).1) a

/-- **One node is shown.** The nodes above it are all there, and so it goes if and only if a rule
applied to it in the beginning. -/
theorem contracted_transform (ht : t.OnlyFoldsUnder) (input : String) (ha : a.Linked)
    (h : a.Contracted b gone) (hp : ∃ p, (a.node i).parent = some p) (hi : i ∉ gone)
    (habove : ∀ q, a.Below i q → q ∉ gone) :
    a.Contracted (t.transform input b i).1 (gone ++ [i].filter (t.applies a)) := by
  obtain ⟨p, hp⟩ := hp
  have hparent : (b.node i).parent = (a.node i).parent :=
    h.parent_eq ha hi fun q hq => habove q (.of_parent hq)
  have hgrand : ∀ q ∈ (a.node i).parent, (b.node q).parent = (a.node q).parent := fun q hq =>
    h.parent_eq ha (habove q (.of_parent hq)) fun s hs =>
      habove s (.trans (.of_parent hq) (.of_parent hs))
  have hmatch : t.match? b i = t.match? a i :=
    match?_congr ht h.label_eq hparent hgrand
  rw [transform_fst, hmatch]
  cases hrule : t.match? a i with
  | none =>
    have hno : t.applies a i = false := by rw [← isSome_match?, hrule]; rfl
    simpa [hno] using h
  | some rule =>
    have hyes : t.applies a i = true := by rw [← isSome_match?, hrule]; rfl
    obtain ⟨e, he, hmem⟩ := exists_mem_entries (List.mem_of_find?_eq_some hrule)
    have hip : (b.node i).parent = some p := hparent.trans hp
    obtain ⟨before, after, hsplit⟩ := h.linked.exists_children_eq hip
    have hfold : b.foldUnder i = .ok (b.promote p before.getLast? i) () :=
      h.linked.foldUnder_eq hsplit
    have hpromoted := h.promote hsplit
    simpa [(ht e he rule hmem).1, Action.apply, Edit.apply, hfold, Outcome.map, Outcome.ok, hyes]
      using hpromoted

/-- **Any number of nodes is shown**, from the front of the post-order list. -/
theorem contracted_transformAll (ht : t.OnlyFoldsUnder) (input : String) (ha : a.Linked)
    {shown ahead : List NodeId} (hl : a.postorderBelow r = shown ++ ahead)
    (h : a.Contracted b (shown.filter (t.applies a))) :
    a.Contracted (t.transformAll input ahead b) ((a.postorderBelow r).filter (t.applies a)) := by
  induction ahead generalizing shown b with
  | nil =>
    rw [hl, List.append_nil]
    exact h
  | cons i ahead ih =>
    have hpair := ha.pairwise_postorderBelow r
    rw [hl] at hpair
    obtain ⟨-, -, hbefore⟩ := List.pairwise_append.mp hpair
    have hbelow : a.Below i r := ha.mem_postorderBelow.mp (by simp [hl])
    obtain ⟨p, hp, -⟩ := below_iff.mp hbelow
    have hshown {x : NodeId} (hx : x ∈ shown.filter (t.applies a)) : x ≠ i ∧ ¬ a.Below i x :=
      hbefore x (List.mem_filter.mp hx).1 i List.mem_cons_self
    have hstep := contracted_transform ht input ha h ⟨p, hp⟩ (fun hi => (hshown hi).1 rfl)
      fun q hq hqg => (hshown hqg).2 hq
    rw [← List.filter_append] at hstep
    exact ih (by rw [hl, List.append_cons]) hstep

/-- The nodes that a walk with such a table shows. -/
theorem visited_eq_postorderBelow (hno : t.gathersSiblings = false) (input : String)
    (ha : a.Linked) (r : NodeId) : t.visited input a r = a.postorderBelow r := by
  obtain ⟨hsub, hperm, hlost⟩ := t.showings_spec input ha r
  rw [hlost hno, List.append_nil] at hperm
  exact hsub.eq_of_length hperm.length_eq.symm

/-- A run with a table transforms what it shows. -/
theorem run_arena_eq (t : RuleTable) (input : String) (n : Nat) (w : Walk Unit) :
    (Walk.run (.ofTable t) input n w).arena =
      t.transformAll input ((Walk.showings (.ofTable t) input n w).map Walk.Showing.node)
        w.arena := by
  have hrun := congrArg Prod.snd (Walk.run_eq_foldl (.ofTable t) input n w)
  generalize (Walk.showings (.ofTable t) input n w).map Walk.Showing.node = l at hrun ⊢
  refine hrun.trans ?_
  clear hrun
  generalize w.state = state, w.arena = b
  induction l generalizing state b with
  | nil => rfl
  | cons i l ih => exact ih ..

/-- A walk with a table transforms what it shows. -/
theorem walk_arena_eq (t : RuleTable) (input : String) (a : Arena) (r : NodeId) :
    (walk (Scheme.ofTable t) input a r ()).arena =
      t.transformAll input (t.visited input a r) a := by
  have hwalk : walk (Scheme.ofTable t) input a r () =
      Walk.run (Scheme.ofTable t) input (Walk.bound a) (Walk.start a r ()) := rfl
  rw [hwalk, run_arena_eq, visited_eq, showings]
  rfl

/-- **A walk contracts a tree** to the nodes that no rule applied to in the beginning. -/
theorem contracted_walk (ht : t.OnlyFoldsUnder) (input : String) (ha : a.Linked) (r : NodeId) :
    a.Contracted (walk (Scheme.ofTable t) input a r ()).arena
      ((a.postorderBelow r).filter (t.applies a)) := by
  rw [walk_arena_eq, visited_eq_postorderBelow ht.gathersSiblings_eq input ha r]
  exact contracted_transformAll ht input ha (List.nil_append _).symm (.refl ha)

/-- **Folding contracts a tree**: a walk ends, and by then it has taken out the nodes below `r` to
which some rule applied in the tree as it was in the beginning. -/
theorem walk_contracts (ht : t.OnlyFoldsUnder) (input : String) (ha : a.Linked) (hr : r < a.size) :
    (walk (Scheme.ofTable t) input a r ()).stack = [] ∧
      a.ContractedBelow (walk (Scheme.ofTable t) input a r ()).arena r (t.applies a) :=
  ⟨(t.walk_ends input ha r).1, (contracted_walk ht input ha r).contractedBelow ha hr⟩

/-- A list inside a list is folded, and so are parentheses, but for those around a whole line. -/
def flattenTable : RuleTable :=
  .ofEntries [("list", [⟨.parentIs ["list"], .edit .foldUnder⟩]),
    ("paren", [⟨.grandparentIsNot ["file"], .edit .foldUnder⟩,
      ⟨.parentIsNot ["line"], .edit .foldUnder⟩])]

/-- The line `x,(y,z)`, whose tail is a list in parentheses in a list. -/
def nestedLists : Arena :=
  Command.runAll [.make "file" .nonTerminal 0 7, .push 0 "line" .nonTerminal 0 7,
    .push 1 "list" .nonTerminal 0 7, .push 2 "x" .terminal 0 1, .push 2 "list" .nonTerminal 2 7,
    .push 4 "paren" .nonTerminal 2 7, .push 5 "list" .nonTerminal 3 6, .push 6 "y" .terminal 3 4,
    .push 6 "z" .terminal 5 6] {}

theorem linked_nestedLists : nestedLists.Linked :=
  (Command.runAll_wellFormed wellFormed_empty (by decide)).linked

/-- The innermost list has the parentheses above it when it is shown, and so it stays, although it
is a list in a list by the end. -/
theorem flattenTable_contracts_nestedLists :
    flattenTable.OnlyFoldsUnder ∧ nestedLists.Linked ∧
      let b := (walk (Scheme.ofTable flattenTable) "x,(y,z)" nestedLists 0 ()).arena
      b.descendants 0 b.size = [0, 1, 2, 3, 6, 7, 8] ∧ (b.node 4).parent = none ∧
        (b.node 5).parent = none := by
  have ht : flattenTable.OnlyFoldsUnder := by decide
  have hbelow (x : NodeId) (hx : x ∈ nestedLists.postorderBelow 0) : nestedLists.Below x 0 :=
    linked_nestedLists.mem_postorderBelow.mp hx
  obtain ⟨-, hb⟩ := walk_contracts ht "x,(y,z)" linked_nestedLists (r := 0) (by decide)
  refine ⟨ht, linked_nestedLists, hb.descendants_eq.trans (by decide), ?_, ?_⟩
  · exact (hb.isolated 4 (hbelow 4 (by decide)) (by decide)).1
  · exact (hb.isolated 5 (hbelow 5 (by decide)) (by decide)).1

end RuleTable

end ParseTree
