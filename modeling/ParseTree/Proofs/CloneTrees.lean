import Mathlib.Data.Set.Function
import ParseTree.Proofs.Identities

/-!
# The clone of a subtree

A clone has one node for each node of the subtree, in the same shape. `Corresponds` says this of two
trees by a function from one to the other. It is enough to know how the function goes with children:
where every list of children is mapped to the list of the children of the image, no two nodes can
have the same image, since going up from the one and from the other leads to the two roots at the
same time.

All new slots of a clone are in its tree. So there are as many of them as there are nodes in the
subtree, and when the last of them was added the stack is empty.

## Main results

* `Linked.corresponds`: a function that goes with children is a correspondence.
* `Linked.within_cloneSubtree`, `Linked.size_cloneSubtree`: the new slots are the nodes of a clone.
* `Linked.cloneSubtree_clones`: cloning comes to its end and leaves a clone.
-/

namespace ParseTree

namespace Arena

variable {a b d : Arena} {i c p x : NodeId} {f : NodeId → NodeId} {stack : List (NodeId × NodeId)}
  {n : Nat}

/-! ## Corresponding trees -/

/-- **The tree at `c` of `b` is the tree at `i` of `a`**, with `x` in the place of `f x`. -/
structure Corresponds (b : Arena) (c : NodeId) (a : Arena) (i : NodeId) (f : NodeId → NodeId) :
    Prop where
  root_eq : f c = i
  bijOn : Set.BijOn f {x | b.Within x c} {y | a.Within y i}
  children_eq : ∀ x, b.Within x c → (b.children x).map f = a.children (f x)
  /-- Labels, kinds, extents and tear stores are the same. -/
  mark_eq : ∀ x, b.Within x c → (b.node x).mark = (a.node (f x)).mark

section

variable (hb : b.Linked) (ha : a.Linked)
  (hkids : ∀ x, b.Within x c → (b.children x).map f = a.children (f x))
include hb ha hkids

theorem Linked.parent_map (hx : (b.node x).parent = some p) (hp : b.Within p c) :
    (a.node (f x)).parent = some (f p) := by
  refine ha.mem_children.mp ?_
  rw [← hkids p hp]
  exact List.mem_map_of_mem (hb.mem_children.mpr hx)

theorem Linked.within_map (hx : b.Within x c) : a.Within (f x) (f c) := by
  induction hx using Relation.ReflTransGen.head_induction_on with
  | refl => rfl
  | head hxp hp ih => exact (Within.of_parent (hb.parent_map ha hkids hxp hp)).trans ih

theorem Linked.exists_of_within_map {y : NodeId} (hy : a.Within y (f c)) :
    ∃ x, b.Within x c ∧ f x = y := by
  induction hy using Relation.ReflTransGen.head_induction_on with
  | refl => exact ⟨c, .refl b c, rfl⟩
  | head hyq _ ih =>
    obtain ⟨q, hq, rfl⟩ := ih
    have hmem := ha.mem_children.mpr hyq
    rw [← hkids q hq] at hmem
    obtain ⟨x, hx, rfl⟩ := List.mem_map.mp hmem
    exact ⟨x, (Within.of_parent (hb.mem_children.mp hx)).trans hq, rfl⟩

/-- Only the root has the image of the root. -/
theorem Linked.map_ne_of_parent (hx : (b.node x).parent = some p) (hp : b.Within p c) :
    f x ≠ f c := by
  intro heq
  have hup : a.Below (f c) (f p) := .of_parent (heq ▸ hb.parent_map ha hkids hx hp)
  exact ha.acyclic _ ((hb.within_map ha hkids hp).trans_below hup)

theorem Linked.injOn_map : Set.InjOn f {x | b.Within x c} := by
  intro x hx
  induction hx using Relation.ReflTransGen.head_induction_on with
  | refl =>
    intro y hy heq
    rcases Relation.ReflTransGen.cases_head hy with rfl | ⟨q, hyq, hq⟩
    · rfl
    · exact absurd heq.symm (hb.map_ne_of_parent ha hkids hyq hq)
  | @head x p hxp hp ih =>
    intro y hy heq
    rcases Relation.ReflTransGen.cases_head hy with rfl | ⟨q, hyq, hq⟩
    · exact absurd heq (hb.map_ne_of_parent ha hkids hxp hp)
    · have hpq : f p = f q := by
        have hxp' := hb.parent_map ha hkids hxp hp
        rw [heq, hb.parent_map ha hkids hyq hq] at hxp'
        exact (Option.some.inj hxp').symm
      obtain rfl : p = q := ih hq hpq
      -- siblings have different images, for the image of their list has no member twice
      have hnd : ((b.children p).map f).Nodup := hkids p hp ▸ ha.nodup_children (f p)
      exact List.inj_on_of_nodup_map hnd (hb.mem_children.mpr hxp) (hb.mem_children.mpr hyq) heq

/-- **A function that goes with children** and marks is a correspondence. -/
theorem Linked.corresponds (hroot : f c = i)
    (hmark : ∀ x, b.Within x c → (b.node x).mark = (a.node (f x)).mark) :
    b.Corresponds c a i f := by
  subst hroot
  exact ⟨rfl, ⟨fun _ hx => hb.within_map ha hkids hx, hb.injOn_map ha hkids,
    fun _ hy => hb.exists_of_within_map ha hkids hy⟩, hkids, hmark⟩

end

/-- A tree whose nodes have kept their children has the same nodes. -/
theorem Linked.within_iff_of_children_eq (hb : b.Linked) (hd : d.Linked)
    (hkids : ∀ x, b.Within x c → d.children x = b.children x) : d.Within x c ↔ b.Within x c := by
  have hmap : ∀ x, b.Within x c → (b.children x).map id = d.children (id x) := fun x hx => by
    rw [List.map_id, id, hkids x hx]
  refine ⟨fun hx => ?_, hb.within_map hd hmap⟩
  obtain ⟨y, hy, rfl⟩ := hb.exists_of_within_map hd hmap hx
  exact hy

/-- A tree whose nodes have kept their marks, too, corresponds to the same tree. -/
theorem Corresponds.of_children_eq (h : b.Corresponds c a i f) (ha : a.Linked) (hb : b.Linked)
    (hd : d.Linked) (hkids : ∀ x, b.Within x c → d.children x = b.children x)
    (hmark : ∀ x, b.Within x c → (d.node x).mark = (b.node x).mark) : d.Corresponds c a i f := by
  have hin {x : NodeId} : d.Within x c → b.Within x c :=
    (hb.within_iff_of_children_eq hd hkids).mp
  refine hd.corresponds ha (fun x hx => ?_) h.root_eq fun x hx => ?_
  · rw [hkids x (hin hx), h.children_eq x (hin hx)]
  · rw [hmark x (hin hx), h.mark_eq x (hin hx)]

/-! ## The slots of a clone -/

/-- **What every copy of a child keeps** is kept by the work on a clone. -/
theorem Extension.copyPending_induction (ha : a.Linked) {P : Arena → Prop}
    (hstep : ∀ b p i, a.Extension b → a.size ≤ p → p < b.size → P b →
      P ((b.copy i).2.addChild p b.size))
    (h : a.Extension b) (hP : P b) (hstack : a.CopiesToNew b stack) (n : Nat) :
    P (Arena.copyPending n stack b) := by
  have hlist {b : Arena} {stack : List (NodeId × NodeId)} {p : NodeId} (h : a.Extension b)
      (hP : P b) (hp : a.size ≤ p) (hpb : p < b.size) (l : List NodeId) :
      P (Arena.copyChildren p l stack b).2 := by
    induction l generalizing b stack with
    | nil => exact hP
    | cons i l ih =>
      rw [copyChildren_cons]
      exact ih (h.addChild_copy ha hp hpb i) (hstep b p i h hp hpb hP)
        (Nat.lt_of_lt_of_le hpb (by simp))
  induction n generalizing b stack with
  | zero => exact hP
  | succ n ih =>
    cases stack with
    | nil => exact hP
    | cons e stack =>
      obtain ⟨i, c⟩ := e
      obtain ⟨hp, hpb⟩ := hstack (i, c) List.mem_cons_self
      have hrest : a.CopiesToNew b stack := fun e he => hstack e (List.mem_cons_of_mem _ he)
      obtain ⟨hext, hnew⟩ := h.copyChildren ha hp hpb hrest (b.children i)
      exact ih hext (hlist h hP hp hpb _) hnew

/-- Every new node but the first is the child of a new node before it. -/
def GrowsDown (a b : Arena) : Prop :=
  ∀ x, a.size < x → x < b.size → ∃ p, a.size ≤ p ∧ p < x ∧ (b.node x).parent = some p

theorem GrowsDown.addChild_copy (hb : a.GrowsDown b) (h : a.Extension b) (hp : a.size ≤ p)
    (hpb : p < b.size) (i : NodeId) : a.GrowsDown ((b.copy i).2.addChild p b.size) := by
  obtain ⟨hcopy, -⟩ := h.linked.of_sameLinks (sameLinks_copy b i)
  obtain ⟨hroot, -⟩ := h.linked.fresh (sameLinks_copy b i) hpb
  have hsize : (b.copy i).2.size = b.size + 1 := size_copy b i
  have hps : p < (b.copy i).2.size := hsize ▸ Nat.lt_succ_of_lt hpb
  have hjoin := hcopy.joinLinks_addChild hps (hsize ▸ Nat.lt_succ_self b.size) hroot
  intro x hx hlt
  rw [size_addChild, hsize] at hlt
  rw [hjoin.parent]
  split
  · next hxb => exact ⟨p, hp, hxb ▸ hpb, rfl⟩
  · next hxb =>
    rw [node_copy, if_neg hxb]
    exact hb x hx (Nat.lt_of_le_of_ne (Nat.le_of_lt_succ hlt) hxb)

/-- A clone grows from its root. -/
theorem Linked.growsDown_cloneSubtree (h : a.Linked) (hi : i < a.size) :
    a.GrowsDown (a.cloneSubtree i).2 := by
  obtain ⟨hcopy, hnew, -, -⟩ := h.copies_root hi
  have hstart : a.GrowsDown (a.copy i).2 := by
    intro x hx hlt
    rw [size_copy] at hlt
    omega
  exact hcopy.copyPending_induction h (fun b p i hext hp hpb hb => hb.addChild_copy hext hp hpb i)
    hstart hnew _

/-- **The tree of the clone** has the new slots for its nodes. -/
theorem Linked.within_cloneSubtree (h : a.Linked) (hi : i < a.size) (x : NodeId) :
    (a.cloneSubtree i).2.Within x a.size ↔ a.size ≤ x ∧ x < (a.cloneSubtree i).2.size := by
  have hext := h.cloneSubtree i
  have hgrows := h.growsDown_cloneSubtree hi
  generalize (a.cloneSubtree i).2 = b at hext hgrows
  constructor
  · intro hx
    refine ⟨Nat.le_of_not_lt fun hlt => hext.not_within h hlt hx, ?_⟩
    rcases Arena.within_iff.mp hx with rfl | hx
    · exact hext.size_lt
    · exact hx.lt_size
  · rintro ⟨hx, hlt⟩
    induction x using Nat.strong_induction_on with
    | _ x ih =>
      rcases Nat.eq_or_lt_of_le hx with rfl | hx
      · rfl
      · obtain ⟨p, hp, hpx, hparent⟩ := hgrows x hx hlt
        exact (Within.of_parent hparent).trans (ih p hpx hp (Nat.lt_trans hpx hlt))

/-- **A clone has as many slots** as the subtree has nodes. -/
theorem Linked.size_cloneSubtree (h : a.Linked) (hi : i < a.size) :
    (a.cloneSubtree i).2.size = a.size + a.countNodes i := by
  have hext := h.cloneSubtree i
  have hin := h.within_cloneSubtree hi
  have hrose := h.rose_cloneSubtree hi
  generalize (a.cloneSubtree i).2 = b at hext hin hrose
  have hcount : b.countNodes a.size = a.countNodes i :=
    hext.linked.countNodes_eq_of_rose h hrose
  have hle := Nat.le_of_lt hext.size_lt
  have hperm : (b.postorder a.size).Perm (List.range' a.size (b.size - a.size)) := by
    refine (List.perm_ext_iff_of_nodup ?_ List.nodup_range').mpr fun x => ?_
    · exact (hext.linked.pairwise_postorder hext.size_lt).imp And.left
    · rw [hext.linked.mem_postorder hext.size_lt, hin, List.mem_range'_1, Nat.add_sub_cancel' hle]
  rw [← hcount, hext.linked.countNodes_eq_length hext.size_lt, hperm.length_eq,
    List.length_range', Nat.add_sub_cancel' hle]

/-! ## Clones -/

/-- **Arena `b` is `a` with a clone** of the subtree at `i`, whose root is the first new slot. -/
structure Cloned (a b : Arena) (i : NodeId) : Prop where
  /-- All links are in order, on the clone as elsewhere, those to last children among them. -/
  linked : b.Linked
  size_eq : b.size = a.size + a.countNodes i
  node_eq : ∀ x < a.size, b.node x = a.node x
  stores_eq : b.stores = a.stores
  parent_root : (b.node a.size).parent = none
  nextSibling_root : (b.node a.size).nextSibling = none
  within_iff : ∀ x, b.Within x a.size ↔ a.size ≤ x ∧ x < b.size
  exists_corresponds : ∃ f, b.Corresponds a.size a i f
  numbered : a.Numbered b
  identity_lt : ∀ x y, b.Within x a.size → y < a.size →
    (b.node y).identity < (b.node x).identity

/-- **The clone corresponds to the subtree.** -/
theorem Linked.exists_corresponds (h : a.Linked) (hi : i < a.size) :
    ∃ f, (a.cloneSubtree i).2.Corresponds a.size a i f := by
  obtain ⟨src, hdone, -⟩ := h.exists_copying hi
  have hin := h.within_cloneSubtree hi
  generalize (a.cloneSubtree i).2 = b at hdone hin
  refine ⟨src, hdone.extension.linked.corresponds h (fun x hx => ?_) hdone.src_root fun x hx => ?_⟩
  · obtain ⟨hle, hlt⟩ := (hin x).mp hx
    rw [← hdone.children_eq x hle hlt, List.append_nil]
  · obtain ⟨hle, hlt⟩ := (hin x).mp hx
    exact (hdone.mark x hle hlt).2

/-- **Cloning a subtree** comes to its end: after as many rounds as the subtree has nodes, and after
more of them, the stack is empty. It then gives the first new slot, and has made a clone there. -/
theorem Linked.cloneSubtree_clones (h : a.Linked) (hissued : a.Issued) (hi : i < a.size) :
    (∀ n, a.countNodes i ≤ n →
      copyRound^[n] ([(i, a.size)], (a.copy i).2) = ([], (a.cloneSubtree i).2)) ∧
    (a.cloneSubtree i).1 = a.size ∧ a.Cloned (a.cloneSubtree i).2 i := by
  have hext := h.cloneSubtree i
  have hin := h.within_cloneSubtree hi
  have hnumbered := a.numbered_cloneSubtree i
  refine ⟨fun n hn => h.iterate_copyRound hi hn, a.cloneSubtree_fst i, hext.linked,
    h.size_cloneSubtree hi, hext.node_eq, hext.stores, hext.root, ?_, hin, h.exists_corresponds hi,
    hnumbered, fun x y hx hy => ?_⟩
  · exact hext.linked.nextSibling_of_root hext.root
  · obtain ⟨hle, hlt⟩ := (hin x).mp hx
    exact hnumbered.identity_lt hissued hy hle hlt

/-- A node with two children is cloned, out of the middle of a tree. -/
theorem cloneSubtree_clones_bushy :
    RuleTable.bushy.Linked ∧ RuleTable.bushy.Issued ∧ 2 < RuleTable.bushy.size ∧
      copyRound^[3] ([(2, 6)], (RuleTable.bushy.copy 2).2) =
        ([], (RuleTable.bushy.cloneSubtree 2).2) ∧
      (RuleTable.bushy.cloneSubtree 2).2.size = 9 ∧
      RuleTable.bushy.Cloned (RuleTable.bushy.cloneSubtree 2).2 2 := by
  have hlinked := RuleTable.linked_bushy
  have hissued : RuleTable.bushy.Issued := Command.issued_runAll _
  have hlt : 2 < RuleTable.bushy.size := by decide
  obtain ⟨hrounds, -, hclone⟩ := hlinked.cloneSubtree_clones hissued hlt
  exact ⟨hlinked, hissued, hlt, hrounds 3 (by decide), hclone.size_eq, hclone⟩

end Arena

end ParseTree
