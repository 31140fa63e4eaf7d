import Mathlib.Logic.Function.Basic
import ParseTree.Edit.Operators
import ParseTree.Proofs.SameLinks

/-!
# Putting a root into a child list

A root may join the child list of a node that is not in its own tree. Two operations do this.
`addChild` puts the root at the end, and `linkAfter` behind a given member or in front. Both leave
the same links, `JoinLinks`, and what follows from them is proved once.

Without the side condition the parent links of the root and of its new parent would close into a
cycle, so the condition is as much a part of the statement as the new list is.

## Main results

* `Linked.join`: the list of the new parent gets a member, and no other list changes.
* `Linked.addChild`, `Linked.linkAfter`: the two operations.
* `Linked.root_eq_iff`: which node `root` finds.
-/

namespace ParseTree

namespace Arena

variable {a b : Arena} {i p c r x : NodeId} {before after : List NodeId}

/-! ## The root of a tree -/

/-- Going up far enough from `i` ends at a node without parent above `i`. -/
theorem Rooted.exists_root (h : a.Rooted i) : ∃ r, a.Within i r ∧ (a.node r).parent = none := by
  induction h with
  | intro i _ ih =>
    cases hi : (a.node i).parent with
    | none => exact ⟨i, .refl a i, hi⟩
    | some p =>
      obtain ⟨r, hpr, hr⟩ := ih p hi
      exact ⟨r, (Within.of_parent hi).trans hpr, hr⟩

/-- Climbing stops at the root, if the bound is no smaller than the number of nodes above. -/
theorem climb_eq_of_within (h : a.Linked) (hir : a.Within i r) (hr : (a.node r).parent = none)
    {n : Nat} (hn : a.size ≤ n + a.weight i) : a.climb n i = r := by
  induction n generalizing i with
  | zero =>
    -- with that many nodes below it, `i` can not be a slot
    have hi : a.size ≤ i := by
      by_contra hi
      have hlt : a.weight i < a.size := h.weight_lt_size (Nat.not_le.mp hi)
      omega
    refine hir.eq_of_root ?_
    rw [node_of_size_le hi]
    rfl
  | succ n ih =>
    rw [climb]
    cases hi : (a.node i).parent with
    | none => exact hir.eq_of_root hi
    | some p =>
      have hne : i ≠ r := by
        rintro rfl
        simp [hr] at hi
      have hlt : a.weight i < a.weight p := h.weight_lt_of_parent hi
      exact ih ((hir.below hne).within_parent hi) (by omega)

/-- The root of a tree is the node above `i` that has no parent. -/
theorem Linked.root_eq_iff (h : a.Linked) :
    a.root i = r ↔ a.Within i r ∧ (a.node r).parent = none := by
  have hfound : ∀ {s}, a.Within i s → (a.node s).parent = none → a.root i = s := fun his hs =>
    climb_eq_of_within h his hs (Nat.le_add_right _ _)
  refine ⟨?_, fun hr => hfound hr.1 hr.2⟩
  rintro rfl
  obtain ⟨s, his, hs⟩ := (h.rooted i).exists_root
  rw [hfound his hs]
  exact ⟨his, hs⟩

/-- No other node is in the subtree of a node without children. -/
theorem Linked.not_within_of_children_nil (h : a.Linked) (hr : a.children r = []) (hne : x ≠ r) :
    ¬ a.Within x r := by
  intro hx
  rcases Relation.ReflTransGen.cases_tail hx with heq | ⟨k, -, hk⟩
  · exact hne heq.symm
  · have hmem : k ∈ a.children r := h.mem_children_of_parent hk
    simp [hr] at hmem

/-- A slot that was free is a root in a tree of its own. -/
theorem Linked.fresh (h : a.Linked) (hab : a.SameLinks b) (hp : p < a.size) :
    (b.node a.size).parent = none ∧ ¬ b.Within p a.size := by
  obtain ⟨hlinked, hkids⟩ := h.of_sameLinks hab
  have hleaf : b.children a.size = [] := by
    rw [hkids, h.children_eq_nil (Nat.le_refl _)]
  refine ⟨?_, hlinked.not_within_of_children_nil hleaf (Nat.ne_of_lt hp)⟩
  rw [hab.parent, node_of_size_le (Nat.le_refl _)]
  rfl

/-! ## The links after a root has joined -/

/-- The links after the root `c` was put between `before` and `after` in the list of `p`. -/
structure JoinLinks (a b : Arena) (p c : NodeId) (before after : List NodeId) : Prop where
  parent : ∀ x, (b.node x).parent = if x = c then some p else (a.node x).parent
  firstChild : ∀ x, (b.node x).firstChild =
    if x = p then (before ++ c :: after).head? else (a.node x).firstChild
  nextSibling : ∀ x, (b.node x).nextSibling =
    if x = c then after.head? else if before.getLast? = some x then some c
    else (a.node x).nextSibling
  lastChild : ∀ x, (b.node x).lastChild =
    if x = p then (before ++ c :: after).getLast? else (a.node x).lastChild

namespace JoinLinks

/-- The list of `p` has got a member, and other lists are as they were. -/
theorem isChildList (hl : a.JoinLinks b p c before after) (h : a.HasChildLists)
    (hp : a.children p = before ++ after) (hc : (a.node c).parent = none) (j : NodeId) :
    b.IsChildList j (Function.update a.children p (before ++ c :: after) j) := by
  have hnone : ∀ {q x}, x ∈ a.children q → x ≠ c := by
    rintro q x hx rfl
    simp [h.parent_eq hx] at hc
  have hlast : ∀ x, before.getLast? = some x → x ∈ before := fun x => List.mem_of_getLast?
  by_cases hj : j = p
  · subst hj
    rw [Function.update_self]
    have hlist := h j
    rw [hp] at hlist
    obtain ⟨hsb, hsa⟩ := strung_append.mp hlist.strung
    have hnd := hlist.nodup
    have hcp : ∀ x ∈ before ++ after, x ≠ c := fun x hx => hnone (q := j) (by rwa [hp])
    refine ⟨by rw [hl.firstChild, if_pos rfl], strung_append.mpr ⟨?_, ?_, ?_⟩,
      by rw [hl.lastChild, if_pos rfl], fun x hx => ?_⟩
    · refine hsb.retarget (List.nodup_append.mp hnd).1 (fun x hx hne => ?_) fun x hx => ?_
      · rw [hl.nextSibling, if_neg (hcp x (by simp [hx])), if_neg hne]
      · rw [hl.nextSibling, if_neg (hcp x (by simp [hlast x hx])), if_pos hx]
        rfl
    · rw [hl.nextSibling, if_pos rfl, Option.or_none]
    · refine hsa.congr fun x hx => ?_
      rw [hl.nextSibling, if_neg (hcp x (by simp [hx])), if_neg]
      intro hx'
      exact (List.nodup_append.mp hnd).2.2 x (hlast x hx') x hx rfl
    · have hparent := hlist.parent x
      rw [hl.parent]
      grind
  · rw [Function.update_of_ne hj]
    have hout : ∀ x ∈ a.children j, x ∉ before := fun x hx hxb =>
      hj (h.eq_of_mem hx (by rw [hp]; simp [hxb]))
    refine (h j).congr ?_ ?_ (fun x hx => ?_) fun x hx => ?_
    · rw [hl.firstChild, if_neg hj]
    · rw [hl.lastChild, if_neg hj]
    · rw [hl.nextSibling, if_neg (hnone hx), if_neg fun hx' => hout x hx (hlast x hx')]
    · rw [hl.parent, if_neg (hnone hx)]

/-- Going up comes to an end, since `p` was not in the tree of `c`. -/
theorem rooted (hl : a.JoinLinks b p c before after) (h : a.Linked) (hpc : ¬ a.Within p c)
    (j : NodeId) : b.Rooted j := by
  -- first the nodes outside the tree of `c`, whose way up has not changed
  have hout : ∀ j, ¬ a.Within j c → b.Rooted j := by
    refine h.induction_up fun j ih hjc => ?_
    have hne : j ≠ c := by
      rintro rfl
      exact hjc (.refl a j)
    cases hj : (a.node j).parent with
    | none => exact .of_root (by rw [hl.parent, if_neg hne, hj])
    | some q =>
      refine .of_parent (by rw [hl.parent, if_neg hne, hj]) (ih q (.of_parent hj) fun hq => ?_)
      exact hjc ((Within.of_parent hj).trans hq)
  refine h.rooted_of_above (fun {j q} hj ih => ?_) j
  rw [hl.parent] at hj
  split at hj
  · obtain rfl : p = q := Option.some.inj hj
    exact hout p hpc
  · exact ih q (.of_parent hj)

end JoinLinks

/-- **A root that joins** the list of a node outside its tree makes one list longer. -/
theorem Linked.join (h : a.Linked) (hl : a.JoinLinks b p c before after)
    (hp : a.children p = before ++ after) (hc : (a.node c).parent = none) (hpc : ¬ a.Within p c) :
    b.Linked ∧ b.children = Function.update a.children p (before ++ c :: after) := by
  refine Linked.of_childLists (hl.isChildList h.hasChildLists hp hc) (fun {j q} hj => ?_)
    (fun {j} hj => ?_) (hl.rooted h hpc)
  · rw [hl.parent] at hj
    by_cases hjc : j = c
    · obtain rfl : p = q := by simpa [hjc] using hj
      simp [hjc]
    · rw [if_neg hjc] at hj
      have hmem := h.mem_children_of_parent hj
      by_cases hq : q = p
      · subst hq
        rw [hp] at hmem
        rw [Function.update_self]
        grind
      · rwa [Function.update_of_ne hq]
  · rw [hl.parent] at hj
    have hjc : j ≠ c := by
      rintro rfl
      simp at hj
    rw [if_neg hjc] at hj
    have hjb : before.getLast? ≠ some j := by
      intro hjb
      have hmem : j ∈ before := List.mem_of_getLast? hjb
      have hjp : (a.node j).parent = some p := h.mem_children.mp (by rw [hp]; simp [hmem])
      simp [hj] at hjp
    rw [hl.nextSibling, if_neg hjc, if_neg hjb, h.nextSibling_of_root hj]

/-! ## At the end of a list -/

@[simp] theorem size_addChild : (a.addChild p c).size = a.size := by
  unfold addChild
  split <;> simp [setChild]

@[simp] theorem stores_addChild : (a.addChild p c).stores = a.stores := by
  unfold addChild
  split <;> simp [setChild]

@[simp] theorem nextIdentity_addChild : (a.addChild p c).nextIdentity = a.nextIdentity := by
  unfold addChild
  split <;> simp [setChild]

/-- A node without next sibling is a chain of its own. -/
theorem chain_of_nextSibling_none (hc : c < a.size) (hnext : (a.node c).nextSibling = none) :
    a.chain a.size (some c) = [c] := by
  obtain ⟨n, hn⟩ : ∃ n, a.size = n + 1 := ⟨a.size - 1, by grind⟩
  rw [hn, chain_some, hnext, chain_none]

/-- The first child of all is also the last. -/
theorem joinLinks_setChild (hp : p < a.size) (hc : c < a.size)
    (hnext : (a.node c).nextSibling = none) : a.JoinLinks (a.setChild p (some c)) p c [] [] := by
  have hchain : a.chain a.size (some c) = [c] := chain_of_nextSibling_none hc hnext
  refine ⟨fun x => ?_, fun x => ?_, fun x => ?_, fun x => ?_⟩
  · simp only [setChild, node_update, node_adopt, hchain]
    grind
  · simp only [setChild, node_update, node_adopt, size_adopt]
    grind
  · simp only [setChild, node_update, node_adopt]
    grind
  · simp only [setChild, node_update, node_adopt, size_adopt, hchain]
    grind

theorem HasChildLists.joinLinks_addChild (h : a.HasChildLists) (hp : p < a.size)
    (hc : c < a.size) (hroot : (a.node c).parent = none)
    (hnext : (a.node c).nextSibling = none) :
    a.JoinLinks (a.addChild p c) p c (a.children p) [] := by
  have hlist := h p
  unfold addChild
  split
  · next hnone =>
    have hnil : a.children p = [] := by
      simpa [hlist.lastChild] using hnone
    rw [hnil]
    exact joinLinks_setChild hp hc hnext
  · next last hsome =>
    have hlast : (a.children p).getLast? = some last := hlist.lastChild.symm.trans hsome
    have hmem : last ∈ a.children p := List.mem_of_getLast? hlast
    have hllt : last < a.size := hlist.lt_size hmem
    have hlc : last ≠ c := by
      rintro rfl
      simp [h.parent_eq hmem] at hroot
    generalize hd : a.update last (fun n => { n with nextSibling := some c }) = d
    have hds : d.size = a.size := by simp [← hd]
    have hchain : d.chain d.size (some c) = [c] := by
      refine chain_of_nextSibling_none (hds ▸ hc) ?_
      rw [← hd, node_update_of_ne _ hlc, hnext]
    have hdn : ∀ x, d.node x =
        if last = x then { a.node x with nextSibling := some c } else a.node x := by
      intro x
      rw [← hd, node_update]
      simp [hllt]
    have hfirst : (a.node p).firstChild = (a.children p ++ [c]).head? := by
      rw [hlist.firstChild]
      cases hk : a.children p with
      | nil => exact absurd hk (List.ne_nil_of_mem hmem)
      | cons k l => rfl
    refine ⟨fun x => ?_, fun x => ?_, fun x => ?_, fun x => ?_⟩
    · simp only [node_update, node_adopt, hchain, hdn]
      grind
    · simp only [node_update, node_adopt, hdn]
      grind
    · simp only [node_update, node_adopt, hdn]
      grind
    · simp only [node_update, node_adopt, size_adopt, hds, hdn]
      grind

theorem Linked.joinLinks_addChild (h : a.Linked) (hp : p < a.size) (hc : c < a.size)
    (hroot : (a.node c).parent = none) :
    a.JoinLinks (a.addChild p c) p c (a.children p) [] :=
  h.hasChildLists.joinLinks_addChild hp hc hroot (h.nextSibling_of_root hroot)

/-- **Appending** a root to the children of a node outside its tree. -/
theorem Linked.addChild (h : a.Linked) (hp : p < a.size) (hc : c < a.size)
    (hroot : (a.node c).parent = none) (hpc : ¬ a.Within p c) :
    (a.addChild p c).Linked ∧
      (a.addChild p c).children = Function.update a.children p (a.children p ++ [c]) :=
  h.join (h.joinLinks_addChild hp hc hroot) (List.append_nil _).symm hroot hpc

/-! ## At any place in a list -/

@[simp] theorem size_linkAfter {prev : Option NodeId} : (a.linkAfter p prev c).size = a.size := by
  unfold linkAfter
  cases prev with
  | none => dsimp only; split <;> simp
  | some prev => dsimp only; split <;> simp

@[simp] theorem stores_linkAfter {prev : Option NodeId} :
    (a.linkAfter p prev c).stores = a.stores := by
  unfold linkAfter
  cases prev with
  | none => dsimp only; split <;> simp
  | some prev => dsimp only; split <;> simp

@[simp] theorem nextIdentity_linkAfter {prev : Option NodeId} :
    (a.linkAfter p prev c).nextIdentity = a.nextIdentity := by
  unfold linkAfter
  cases prev with
  | none => dsimp only; split <;> simp
  | some prev => dsimp only; split <;> simp

theorem HasChildLists.joinLinks_linkAfter (h : a.HasChildLists)
    (hp : a.children p = before ++ after) (hps : p < a.size) (hc : c < a.size)
    (hroot : (a.node c).parent = none) (hne : p ≠ c) :
    a.JoinLinks (a.linkAfter p before.getLast? c) p c before after := by
  have hlist := h p
  rw [hp] at hlist
  have hcp : c ∉ before ++ after := by
    intro hcp
    rw [hlist.parent c hcp] at hroot
    simp at hroot
  rcases List.eq_nil_or_concat' before with rfl | ⟨init, prev, rfl⟩
  · have hfirst : (a.node p).firstChild = after.head? := by simpa using hlist.firstChild
    have hlast : (a.node p).lastChild = after.getLast? := by simpa using hlist.lastChild
    cases after with
    | nil =>
      simp only [linkAfter, List.getLast?_nil, hfirst, List.head?_nil]
      refine ⟨fun x => ?_, fun x => ?_, fun x => ?_, fun x => ?_⟩ <;>
        simp only [node_update, size_update] <;> grind
    | cons s after =>
      rw [List.getLast?_cons] at hlast
      simp only [linkAfter, List.getLast?_nil, hfirst, List.head?_cons]
      refine ⟨fun x => ?_, fun x => ?_, fun x => ?_, fun x => ?_⟩ <;>
        simp only [node_update, size_update] <;> grind
  · have hstr := hlist.strung
    rw [List.append_assoc, List.cons_append, List.nil_append] at hstr
    have hnext : (a.node prev).nextSibling = after.head? := by simpa using hstr.nextSibling
    have hprev : prev < a.size := hlist.lt_size (by simp)
    have hfirst : (a.node p).firstChild = (init ++ [prev] ++ after).head? := hlist.firstChild
    have hlast : (a.node p).lastChild = (init ++ [prev] ++ after).getLast? := hlist.lastChild
    cases after with
    | nil =>
      simp only [linkAfter, List.getLast?_concat, hnext, List.head?_nil]
      refine ⟨fun x => ?_, fun x => ?_, fun x => ?_, fun x => ?_⟩ <;>
        simp only [node_update, size_update] <;> grind
    | cons s after =>
      rw [List.getLast?_append_of_ne_nil _ (by simp), List.getLast?_cons] at hlast
      simp only [linkAfter, List.getLast?_concat, hnext, List.head?_cons]
      refine ⟨fun x => ?_, fun x => ?_, fun x => ?_, fun x => ?_⟩ <;>
        simp only [node_update, size_update] <;> grind

/-- **Inserting** a root at any place of the list of a node outside its tree. -/
theorem Linked.linkAfter (h : a.Linked) (hp : a.children p = before ++ after) (hps : p < a.size)
    (hc : c < a.size) (hroot : (a.node c).parent = none) (hpc : ¬ a.Within p c) :
    (a.linkAfter p before.getLast? c).Linked ∧ (a.linkAfter p before.getLast? c).children =
      Function.update a.children p (before ++ c :: after) := by
  have hne : p ≠ c := by
    rintro rfl
    exact hpc (.refl a p)
  exact h.join (h.hasChildLists.joinLinks_linkAfter hp hps hc hroot hne) hp hroot hpc

end Arena

end ParseTree
