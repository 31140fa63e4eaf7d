import ParseTree.Proofs.Steps

/-!
# Operators on arenas with loose links

Setting a child or a sibling by hand takes nodes out of a list without telling them. Such a node
still names its former parent and is still followed by its former siblings, while the child lists
are all in order. An operator that is given such a node can do harm in two ways: it can write to
the parent as if the node were listed, or to siblings that are listed without it.

Deleting, folding and tearing look for the node in the list of the parent, and refuse if it is not
there. A clone and an insert write to new nodes and to one list that they have read, and gathering
a node on its own writes below it. Gathering siblings follows links from the node and asks nothing
else, and it is the one operator that breaks lists. `Strays` says when it does, and it says no more
than that: the node is in no list, and the siblings end in a list, or at the end of the links of a
node that names a parent, or at the node itself.

## Main results

* `Loose.setChild`, `Loose.setSibling`: what is left behind in a list that is cut short by hand.
* `HasChildLists.cloneSubtree`: copying keeps child lists.
* `HasChildLists.gatherRest`: siblings of a listed node are gathered without harm.
* `Command.hasChildLists_run_iff`: which operators keep child lists.
-/

namespace ParseTree

namespace Arena

variable {a b : Arena} {i p q c x : NodeId} {prev stop after : Option NodeId}
  {before rest l siblings moved : List NodeId} {stack : List (NodeId × NodeId)}

/-- **What is left of the link invariant.** The child lists are in order and no node lies below
itself. A node may name a parent that does not list it, and any node may follow it. -/
structure Loose (a : Arena) : Prop where
  childLists : a.HasChildLists
  acyclic : ∀ i, ¬ a.Below i i
  /-- Links lead to slots. -/
  linksBelow : a.LinksBelow a.size
  parent_lt_size : ∀ i, ∀ p ∈ (a.node i).parent, p < a.size

theorem Linked.loose (h : a.Linked) : a.Loose where
  childLists := h.hasChildLists
  acyclic := h.acyclic
  linksBelow := h.linksBelow
  parent_lt_size _ _ hp := h.parent_lt_size hp

/-- Parent and child are different nodes. -/
theorem Loose.ne_of_mem (h : a.Loose) (hc : c ∈ a.children p) : p ≠ c := by
  rintro rfl
  exact h.acyclic p (.of_parent (h.childLists.parent_eq hc))

theorem Loose.ne_of_parent (h : a.Loose) (hi : (a.node i).parent = some p) : i ≠ p := by
  rintro rfl
  exact h.acyclic i (.of_parent hi)

/-! ## Where loose links come from -/

/-- Lists may be set anew as long as every node names the parent that it named. -/
theorem Loose.relist (h : a.Loose) (hparent : ∀ x, (b.node x).parent = (a.node x).parent)
    (hsize : b.size = a.size) (hlinks : b.LinksBelow b.size) (hlists : b.HasChildLists) :
    b.Loose := by
  have hbelow : b.Below = a.Below := by simp only [Below, hparent]
  refine ⟨hlists, fun i hi => ?_, hlinks, fun i q hq => ?_⟩
  · rw [hbelow] at hi
    exact h.acyclic i hi
  · rw [hparent] at hq
    exact hsize ▸ h.parent_lt_size i q hq

/-- **Setting a child** further down the list leaves behind those that were before it. -/
theorem Loose.setChild (h : a.Loose) (hlt : p < a.size) (hp : a.children p = before ++ rest) :
    (a.setChild p rest.head?).Loose := by
  have hlist := h.childLists p
  rw [hp] at hlist
  have hrest : a.Strung none rest := (strung_append.mp hlist.strung).2
  have hparent : ∀ x ∈ rest, (a.node x).parent = some p := fun x hx =>
    hlist.parent x (by simp [hx])
  have hmem : ∀ x ∈ rest, x < a.size := fun x hx => lt_size_of_parent (hparent x hx)
  have hchain : a.chain a.size rest.head? = rest :=
    hrest.chain_eq (length_le_size (List.nodup_append.mp hlist.nodup).2.1 hmem)
  have hkept : ∀ x, ((a.setChild p rest.head?).node x).parent = (a.node x).parent := by
    intro x
    rw [parent_setChild (by rwa [hchain]), hchain]
    split
    · next hx => exact (hparent x hx).symm
    · rfl
  have hlinks : (a.setChild p rest.head?).LinksBelow a.size :=
    h.linksBelow.setChild fun x hx => hmem x (List.mem_of_mem_head? hx)
  refine h.relist hkept size_setChild (by rwa [size_setChild]) ?_
  suffices hlists : ∀ j, (a.setChild p rest.head?).IsChildList j
      (Function.update a.children p rest j) from (HasChildLists.of_isChildList hlists).1
  intro j
  by_cases hjp : j = p
  · subst hjp
    rw [Function.update_self]
    refine ⟨?_, hrest.congr fun x _ => nextSibling_setChild, ?_, fun x hx => ?_⟩
    · rw [firstChild_setChild hlt, if_pos rfl]
    · rw [lastChild_setChild hlt, if_pos rfl, hchain]
    · rw [hkept, hparent x hx]
  · rw [Function.update_of_ne hjp]
    refine (h.childLists j).congr ?_ ?_ (fun x _ => nextSibling_setChild) fun x _ => hkept x
    · rw [firstChild_setChild hlt, if_neg hjp]
    · rw [lastChild_setChild hlt, if_neg hjp]

/-- The chain that is set behind `c` is read after `c` was redirected to it. -/
theorem setSibling_eq (hl : a.Strung none l) (hcl : (c :: l).Nodup)
    (hlt : ∀ x ∈ c :: l, x < a.size) (hc : (a.node c).parent = some p) :
    a.setSibling c l.head? =
      ((a.update c fun n => { n with nextSibling := l.head? }).adopt (some p) l).update p
        fun n => { n with lastChild := some (l.getLastD c) } := by
  obtain ⟨hcl, hnd⟩ := List.nodup_cons.mp hcl
  obtain ⟨hc', hlt⟩ := List.forall_mem_cons.mp hlt
  have hchain : (a.update c fun n => { n with nextSibling := l.head? }).chain
      (a.update c fun n => { n with nextSibling := l.head? }).size l.head? = l := by
    refine (hl.congr fun x hx => ?_).chain_eq ?_
    · rw [field_update Node.nextSibling hc', if_neg (ne_of_mem_of_not_mem hx hcl)]
    · rw [size_update]
      exact length_le_size hnd hlt
  rw [setSibling]
  simp only [hc, hchain]

/-- **Setting a sibling** further down the list leaves behind those that were in between. -/
theorem Loose.setSibling (h : a.Loose) (hp : a.children p = before ++ c :: (moved ++ rest)) :
    (a.setSibling c rest.head?).Loose := by
  have hlist := h.childLists p
  rw [hp] at hlist
  have hnd : (c :: (moved ++ rest)).Nodup := (List.nodup_append.mp hlist.nodup).2.1
  have hcr : (c :: rest).Nodup :=
    hnd.sublist ((List.sublist_append_right moved rest).cons_cons c)
  obtain ⟨hbefore, -, hrest⟩ := strung_append.mp hlist.strung
  replace hrest : a.Strung none rest := (strung_append.mp hrest).2
  have hparent : ∀ x ∈ c :: rest, (a.node x).parent = some p := fun x hx =>
    hlist.parent x (by grind)
  have hlt : ∀ x ∈ c :: rest, x < a.size := fun x hx => lt_size_of_parent (hparent x hx)
  have hcp : (a.node c).parent = some p := hparent c List.mem_cons_self
  have hps : p < a.size := h.parent_lt_size c p hcp
  have hc : c < a.size := hlt c List.mem_cons_self
  have heq := setSibling_eq hrest hcr hlt hcp
  have hlinks : (a.setSibling c rest.head?).LinksBelow a.size :=
    h.linksBelow.setSibling fun x hx => hlt x (List.mem_cons_of_mem c (List.mem_of_mem_head? hx))
  have hfirst : ∀ x, ((a.setSibling c rest.head?).node x).firstChild = (a.node x).firstChild := by
    intro x
    simp only [heq, node_update, node_adopt]
    grind
  have hnext : ∀ x, ((a.setSibling c rest.head?).node x).nextSibling =
      if x = c then rest.head? else (a.node x).nextSibling := by
    intro x
    simp only [heq, node_update, node_adopt]
    grind
  have hlast : ∀ x, ((a.setSibling c rest.head?).node x).lastChild =
      if x = p then some (rest.getLastD c) else (a.node x).lastChild := by
    intro x
    simp only [heq, node_update, node_adopt, size_adopt, size_update]
    grind
  have hkept : ∀ x, ((a.setSibling c rest.head?).node x).parent = (a.node x).parent := by
    intro x
    simp only [heq, node_update, node_adopt]
    grind
  refine h.relist hkept size_setSibling (by rwa [size_setSibling]) ?_
  suffices hlists : ∀ j, (a.setSibling c rest.head?).IsChildList j
      (Function.update a.children p (before ++ c :: rest) j) from
    (HasChildLists.of_isChildList hlists).1
  have hother : ∀ x, x ≠ c → ((a.setSibling c rest.head?).node x).nextSibling =
      (a.node x).nextSibling := fun x hx => by rw [hnext, if_neg hx]
  intro j
  by_cases hjp : j = p
  · subst hjp
    rw [Function.update_self]
    refine ⟨?_, strung_append.mpr ⟨?_, ?_, ?_⟩, ?_, fun x hx => ?_⟩
    · rw [hfirst, hlist.firstChild]
      cases before <;> rfl
    · refine Strung.congr (by simpa using hbefore) fun x hx => hother x ?_
      exact (List.nodup_append.mp hlist.nodup).2.2 x hx c List.mem_cons_self
    · rw [hnext, if_pos rfl, Option.or_none]
    · exact hrest.congr fun x hx => hother x (ne_of_mem_of_not_mem hx (List.nodup_cons.mp hcr).1)
    · rw [hlast, if_pos rfl]
      cases rest <;> simp [List.getLast?_cons]
    · rw [hkept]
      exact hlist.parent x (by grind)
  · rw [Function.update_of_ne hjp]
    refine (h.childLists j).congr (hfirst j) ?_ (fun x hx => hother x ?_) fun x _ => hkept x
    · rw [hlast, if_neg hjp]
    · rintro rfl
      exact hjp (Option.some.inj ((h.childLists.parent_eq hx).symm.trans hcp))

/-! ## Rearranged lists -/

namespace HasChildLists

/-- The search for a member of a list tells where it stands. -/
theorem exists_of_predecessor? (h : a.HasChildLists) (hprev : a.predecessor? p c = some prev) :
    ∃ before after, a.children p = before ++ c :: after ∧ prev = before.getLast? := by
  have hc : c ∈ a.children p := (a.isSome_predecessor? p c).mp (by rw [hprev]; rfl)
  obtain ⟨before, after, hp⟩ := List.append_of_mem hc
  have hlist := h p
  rw [hp] at hlist
  exact ⟨before, after, hp, Option.some.inj (hprev.symm.trans hlist.predecessor?_eq)⟩

theorem promote (h : a.HasChildLists) (hprev : a.predecessor? p c = some prev) (hpc : p ≠ c) :
    (a.promote p prev c).HasChildLists := by
  obtain ⟨before, after, hp, rfl⟩ := h.exists_of_predecessor? hprev
  exact (of_isChildList (isChildList_promote h hp hpc)).1

theorem cut (h : a.HasChildLists) (hp : a.children p = before ++ c :: rest) :
    (a.splice p before.getLast? c none).HasChildLists :=
  (of_isChildList (isChildList_cut h hp)).1

theorem gather (h : a.HasChildLists) (hi : i < a.size) (label : String) :
    (a.gather i label).2.HasChildLists ∧ (a.gather i label).2.children =
      Function.update (Function.update a.children i [a.size]) a.size (a.children i) :=
  of_isChildList ((h.gatherLinks hi label).isChildList h hi)

/-! ## Clones -/

/-- A new node joins a list. -/
theorem addChild_of_sameLinks (h : a.HasChildLists) (hab : a.SameLinks b)
    (hsize : b.size = a.size + 1) (hp : p < a.size) :
    (b.addChild p a.size).HasChildLists ∧
      ∀ x < a.size, ((b.addChild p a.size).node x).parent = (a.node x).parent := by
  obtain ⟨hlists, -⟩ := h.of_sameLinks hab
  have hfree : a.node a.size = .blank := node_of_size_le (Nat.le_refl _)
  have hroot : (b.node a.size).parent = none := by rw [hab.parent, hfree]; rfl
  have hnext : (b.node a.size).nextSibling = none := by rw [hab.nextSibling, hfree]; rfl
  have hlt : a.size < b.size := by omega
  have hjoin := hlists.joinLinks_addChild (Nat.lt_trans hp hlt) hlt hroot hnext
  refine ⟨(of_isChildList (hjoin.isChildList hlists (List.append_nil _).symm hroot)).1, ?_⟩
  intro x hx
  rw [hjoin.parent, if_neg (Nat.ne_of_lt hx), hab.parent]

/-- Copies are appended to a node, and no node that was there gets a parent. -/
theorem copyChildren (h : a.HasChildLists) (hp : p < a.size) (hstack : ∀ e ∈ stack, e.2 < a.size)
    (l : List NodeId) :
    (copyChildren p l stack a).2.HasChildLists ∧
      (∀ e ∈ (copyChildren p l stack a).1, e.2 < (copyChildren p l stack a).2.size) ∧
      a.size ≤ (copyChildren p l stack a).2.size ∧
      ∀ x < a.size, ((copyChildren p l stack a).2.node x).parent = (a.node x).parent := by
  induction l generalizing a stack with
  | nil => exact ⟨h, hstack, Nat.le_refl _, fun _ _ => rfl⟩
  | cons i l ih =>
    obtain ⟨hadd, hparent⟩ := h.addChild_of_sameLinks (sameLinks_copy a i) (size_copy a i) hp
    have hsize : ((a.copy i).2.addChild p a.size).size = a.size + 1 := by
      rw [size_addChild, size_copy]
    rw [copyChildren_cons]
    dsimp only
    generalize (a.copy i).2.addChild p a.size = b at hadd hparent hsize ⊢
    have hlt : a.size < b.size := hsize ▸ Nat.lt_succ_self _
    have hpush : ∀ e ∈ if (b.node i).firstChild.isSome then (i, a.size) :: stack else stack,
        e.2 < b.size := by
      intro e he
      split at he
      · rcases List.mem_cons.mp he with rfl | he
        · exact hlt
        · exact Nat.lt_trans (hstack e he) hlt
      · exact Nat.lt_trans (hstack e he) hlt
    obtain ⟨hlists, hstack', hle, hparent'⟩ := ih hadd (Nat.lt_trans hp hlt) hpush
    refine ⟨hlists, hstack', Nat.le_trans (Nat.le_of_lt hlt) hle, fun x hx => ?_⟩
    rw [hparent' x (Nat.lt_trans hx hlt), hparent x hx]

theorem copyPending (h : a.HasChildLists) (hstack : ∀ e ∈ stack, e.2 < a.size) (n : Nat) :
    (copyPending n stack a).HasChildLists ∧
      ∀ x < a.size, ((copyPending n stack a).node x).parent = (a.node x).parent := by
  induction n generalizing a stack with
  | zero => exact ⟨h, fun _ _ => rfl⟩
  | succ n ih =>
    match stack with
    | [] => exact ⟨h, fun _ _ => rfl⟩
    | (i, c) :: stack =>
      obtain ⟨hc, hstack⟩ := List.forall_mem_cons.mp hstack
      obtain ⟨hlists, hstack', hle, hparent⟩ := h.copyChildren hc hstack (a.children i)
      obtain ⟨hlists', hparent'⟩ := ih hlists hstack'
      refine ⟨hlists', fun x hx => ?_⟩
      rw [Arena.copyPending, hparent' x (Nat.lt_of_lt_of_le hx hle), hparent x hx]

/-- **A clone** has child lists, and leaves those that were there alone. Its root is the first new
node. -/
theorem cloneSubtree (h : a.HasChildLists) (i : NodeId) :
    (a.cloneSubtree i).2.HasChildLists ∧ ((a.cloneSubtree i).2.node a.size).parent = none ∧
      ∀ x < a.size, (a.cloneSubtree i).2.children x = a.children x := by
  obtain ⟨hcopy, -⟩ := h.of_sameLinks (sameLinks_copy a i)
  have hlt : a.size < (a.copy i).2.size := by simp
  have hstack : ∀ e ∈ [(i, a.size)], e.2 < (a.copy i).2.size := by simp
  obtain ⟨hlists, hparent⟩ := hcopy.copyPending hstack (a.countNodes i)
  refine ⟨hlists, ?_, fun x hx => ?_⟩
  · rw [Arena.cloneSubtree]
    refine (hparent a.size hlt).trans ?_
    rw [node_copy, if_pos rfl]
    rfl
  · have hnode : ∀ y < a.size, (a.cloneSubtree i).2.node y = a.node y :=
      (a.sealed_slots.cloneSubtree i).node_eq
    have hkids : ∀ y ∈ a.children x, (a.cloneSubtree i).2.node y = a.node y := fun y hy =>
      hnode y (h.lt_size_of_mem hy)
    refine ((h x).congr ?_ ?_ (fun y hy => ?_) fun y hy => ?_).eq_children
    · rw [hnode x hx]
    · rw [hnode x hx]
    · rw [hkids y hy]
    · rw [hkids y hy]

/-- A root is linked into a list. -/
theorem linkAfter (h : a.HasChildLists) (hp : p < a.size) (hc : c < a.size)
    (hroot : (a.node c).parent = none) (hpc : p ≠ c) (hprev : ∀ x ∈ prev, x ∈ a.children p) :
    (a.linkAfter p prev c).HasChildLists := by
  obtain ⟨before, rest, hkids, rfl⟩ :
      ∃ before rest, a.children p = before ++ rest ∧ prev = before.getLast? := by
    cases prev with
    | none => exact ⟨[], a.children p, rfl, rfl⟩
    | some x =>
      obtain ⟨before, rest, hx⟩ := List.append_of_mem (hprev x rfl)
      exact ⟨before ++ [x], rest, by simp [hx], by simp⟩
  have hjoin := h.joinLinks_linkAfter hkids hp hc hroot hpc
  exact (of_isChildList (hjoin.isChildList h hkids hroot)).1

/-! ## Siblings of a listed node -/

/-- **Siblings of a node that is in a list** are gathered without harm. -/
theorem gatherRest (h : a.HasChildLists) (hi : a.children i = [c])
    (hp : a.children p = before ++ i :: (siblings ++ rest)) (hip : i ≠ p) (hs : siblings ≠ []) :
    (a.gatherRest i c siblings rest.head?).HasChildLists :=
  (of_isChildList ((h.gatherRestLinks hi hp hip hs).isChildList h hi hp hip hs)).1

end HasChildLists

/-! ## Siblings of a node in no list -/

/-- Nodes can be followed exactly if they are strung. -/
theorem follow?_eq_some_iff {o : Option NodeId} :
    a.follow? o siblings = some after ↔ a.Strung after siblings ∧ o = siblings.head?.or after := by
  induction siblings generalizing o with
  | nil => simp [follow?]
  | cons s rest ih =>
    rw [follow?]
    by_cases ho : o = some s
    · rw [if_pos ho, ih, strung_cons]
      simp [ho, and_comm]
    · simp [ho]

/-- If a chain has a member of a list, it has the members behind it as well, so that its last node
is in the list. -/
theorem IsChildList.getLast?_mem (h : a.IsChildList p l) (hs : a.Strung stop siblings)
    (hx : x ∈ siblings) (hxl : x ∈ l) : ∀ last ∈ siblings.getLast?, last ∈ l := by
  induction siblings generalizing x with
  | nil => simp at hx
  | cons s rest ih =>
    cases rest with
    | nil =>
      obtain rfl : x = s := by simpa using hx
      simpa using hxl
    | cons t rest =>
      rw [List.getLast?_cons_cons]
      rcases List.mem_cons.mp hx with rfl | hx
      · exact ih hs.2 List.mem_cons_self (h.strung.mem_of_nextSibling hxl (by simpa using hs.1))
      · exact ih hs.2 hx hxl

/-- What is moved of a chain in which nodes may be repeated: it ends where its last node comes up
for the first time. -/
theorem Strung.exists_moved (h : a.Strung after siblings) (hs : siblings ≠ [])
    (hlt : ∀ x ∈ siblings, x < a.size) :
    ∃ moved stop, moved ≠ [] ∧ moved.Nodup ∧ moved ⊆ siblings ∧
      moved.head? = siblings.head? ∧ moved.getLast? = siblings.getLast? ∧ a.Strung stop moved := by
  obtain ⟨last, hlast⟩ : ∃ last, siblings.getLast? = some last :=
    Option.ne_none_iff_exists'.mp (by simpa using hs)
  obtain ⟨u, v, rfl, hu⟩ := List.eq_append_cons_of_mem (List.mem_of_getLast? hlast)
  obtain ⟨hsu, hsv⟩ := strung_append.mp h
  have hmoved : a.Strung (a.node last).nextSibling (u ++ [last]) :=
    strung_append.mpr ⟨hsu, by simp⟩
  refine ⟨u ++ [last], _, by simp, ?_, by simp, ?_, ?_, hmoved⟩
  · -- if its end led nowhere, the chain would come to an end
    have hlt : last < a.size := hlt last (by simp)
    have hnext : ∀ x, ((a.update last fun n => { n with nextSibling := none }).node x).nextSibling =
        if x = last then none else (a.node x).nextSibling := fun x =>
      field_update Node.nextSibling hlt
    refine Strung.nodup (a := a.update last fun n => { n with nextSibling := none })
      (strung_append.mpr ⟨hsu.congr fun x hx => ?_, ?_⟩)
    · rw [hnext, if_neg (ne_of_mem_of_not_mem hx hu)]
    · simp [hnext]
  · cases u <;> simp
  · rw [hlast]
    simp

/-- **When gathering siblings breaks a list**: the node is in no list, and the siblings end at the
node itself, or in a list, or where nothing follows while the node names a parent. -/
def Strays (a : Arena) (i : NodeId) (siblings : List NodeId) (after : Option NodeId) : Prop :=
  (∀ p, i ∉ a.children p) ∧ ∃ last ∈ siblings.getLast?,
    last = i ∨ (∃ p, last ∈ a.children p) ∨ after = none ∧ (a.node i).parent ≠ none

/-- Node `i`, which is in no list, was gathered on its own, with `c` as the copy; the siblings that
are to go with it follow it. -/
structure Unlisted (a : Arena) (i c : NodeId) (siblings : List NodeId) (after : Option NodeId) :
    Prop where
  childLists : a.HasChildLists
  children_eq : a.children i = [c]
  not_mem : ∀ p, i ∉ a.children p
  lt_size : i < a.size
  parent : ∀ p ∈ (a.node i).parent, i ≠ p ∧ p < a.size
  ne_nil : siblings ≠ []
  strung : a.Strung after siblings
  nextSibling : (a.node i).nextSibling = siblings.head?
  sibling_lt : ∀ x ∈ siblings, x < a.size
  copy_not_mem : c ∉ siblings

namespace Unlisted

theorem copy_mem (h : a.Unlisted i c siblings after) : c ∈ a.children i := by
  simp [h.children_eq]

theorem copy_lt (h : a.Unlisted i c siblings after) : c < a.size :=
  h.childLists.lt_size_of_mem h.copy_mem

theorem ne_copy (h : a.Unlisted i c siblings after) : i ≠ c := by
  rintro rfl
  exact h.not_mem i h.copy_mem

/-- The copy is in the list of `i` only. -/
theorem eq_of_copy_mem (h : a.Unlisted i c siblings after) (hp : c ∈ a.children p) : p = i :=
  h.childLists.eq_of_mem hp h.copy_mem

/-- Unless the siblings end at `i`, they are moved up to their last node, and `i` is not moved: what
follows `i` is what the siblings begin with. -/
theorem exists_links (h : a.Unlisted i c siblings after) (hi : siblings.getLast? ≠ some i) :
    ∃ moved stop, moved ≠ [] ∧ moved ⊆ siblings ∧ moved.getLast? = siblings.getLast? ∧
      a.Strung stop moved ∧ (i :: c :: moved).Nodup ∧
      a.GatherRestLinks (a.gatherRest i c siblings after) i c moved after := by
  obtain ⟨moved, stop, hne, hnd, hsub, hhead, hlast, hstrung⟩ :=
    h.strung.exists_moved h.ne_nil h.sibling_lt
  have hcm : c ∉ moved := fun hc => h.copy_not_mem (hsub hc)
  have him : i ∉ moved := by
    intro him
    obtain ⟨u, v, rfl⟩ := List.append_of_mem him
    have hv : v ≠ [] := by
      rintro rfl
      exact hi (by rw [← hlast]; simp)
    obtain ⟨y, v, rfl⟩ := List.exists_cons_of_ne_nil hv
    have hnext : (a.node i).nextSibling = some y := by simpa using hstrung.nextSibling
    have hy : (u ++ i :: y :: v).head? = some y := by
      rw [hhead, ← h.nextSibling, hnext]
    cases u with
    | nil => grind
    | cons z u => grind
  have hall : (i :: c :: moved).Nodup :=
    List.nodup_cons.mpr ⟨by simp [h.ne_copy, him], List.nodup_cons.mpr ⟨hcm, hnd⟩⟩
  refine ⟨moved, stop, hne, hsub, hlast, hstrung, hall, ?_⟩
  refine hstrung.gatherRestLinks hne hhead.symm hlast.symm hall ?_ h.parent
  exact List.forall_mem_cons.mpr ⟨h.lt_size, List.forall_mem_cons.mpr
    ⟨h.copy_lt, fun x hx => h.sibling_lt x (hsub hx)⟩⟩

/-- Nothing is broken unless the node strays. -/
theorem hasChildLists (h : a.Unlisted i c siblings after) (hno : ¬ a.Strays i siblings after) :
    (a.gatherRest i c siblings after).HasChildLists := by
  obtain ⟨last, hlast⟩ : ∃ last, siblings.getLast? = some last :=
    Option.ne_none_iff_exists'.mp (by simpa using h.ne_nil)
  obtain ⟨hli, hlisted, hafter⟩ : last ≠ i ∧ (∀ p, last ∉ a.children p) ∧
      (after = none → (a.node i).parent = none) := by
    refine ⟨fun hli => hno ⟨h.not_mem, last, hlast, .inl hli⟩, fun p hp => ?_, fun ha => ?_⟩
    · exact hno ⟨h.not_mem, last, hlast, .inr (.inl ⟨p, hp⟩)⟩
    · by_contra hp
      exact hno ⟨h.not_mem, last, hlast, .inr (.inr ⟨ha, hp⟩)⟩
  obtain ⟨moved, stop, hne, hsub, -, hstrung, hnd, hl⟩ :=
    h.exists_links (by rw [hlast]; simpa using hli)
  -- no sibling is in a list, or else the last of them would be
  have hfree : ∀ x ∈ siblings, ∀ p, x ∉ a.children p := fun x hx p hp =>
    hlisted p ((h.childLists p).getLast?_mem h.strung hx hp last hlast)
  suffices hlists : ∀ j, (a.gatherRest i c siblings after).IsChildList j
      (Function.update a.children i (c :: moved) j) from (HasChildLists.of_isChildList hlists).1
  intro j
  by_cases hji : j = i
  · subst hji
    rw [Function.update_self]
    exact hl.isChildList_gathered (h.children_eq ▸ h.childLists j) hstrung hne hnd
  · rw [Function.update_of_ne hji]
    refine hl.isChildList_of_ne (h.childLists j) hji (fun x hx hx' => ?_) fun ha hj => ?_
    · rcases List.mem_cons.mp hx' with rfl | hx'
      · exact h.not_mem j hx
      rcases List.mem_cons.mp hx' with rfl | hx'
      · exact hji (h.eq_of_copy_mem hx)
      · exact hfree x (hsub hx') j hx
    · rw [hafter ha] at hj
      cases hj

/-- **A list has a member that is taken away**: the list is followed up to the last of the siblings,
which names `i` as its parent afterwards. -/
theorem broken_of_listed (h : a.Unlisted i c siblings after) {last : NodeId}
    (hlast : siblings.getLast? = some last) (hp : last ∈ a.children p) :
    ¬ (a.gatherRest i c siblings after).HasChildLists := by
  intro hlists
  have hli : last ≠ i := fun hli => h.not_mem p (hli ▸ hp)
  have hlc : last ≠ c := fun hlc => h.copy_not_mem (hlc ▸ List.mem_of_getLast? hlast)
  have hpi : p ≠ i := by
    rintro rfl
    rw [h.children_eq] at hp
    exact hlc (by simpa using hp)
  obtain ⟨moved, stop, -, -, hmoved, -, -, hl⟩ :=
    h.exists_links (by rw [hlast]; simpa using hli)
  rw [hlast] at hmoved
  obtain ⟨u, v, huv⟩ := List.append_of_mem hp
  have hlist := h.childLists p
  rw [huv] at hlist
  have hmem : ∀ x ∈ u, x ∈ a.children p ∧ x ≠ last := fun x hx =>
    ⟨by simp [huv, hx], fun hxl => (List.nodup_append.mp hlist.nodup).2.2 x hx last (by simp) hxl⟩
  have hu : (a.gatherRest i c siblings after).Strung (some last) u := by
    refine Strung.congr (by simpa using (strung_append.mp hlist.strung).1) fun x hx => ?_
    obtain ⟨hxp, hxl⟩ := hmem x hx
    have hxi : x ≠ i := fun hxi => h.not_mem p (hxi ▸ hxp)
    have hxc : x ≠ c := fun hxc => hpi (h.eq_of_copy_mem (hxc ▸ hxp))
    rw [hl.nextSibling, hmoved, if_neg (by simpa using hxl.symm), if_neg hxc, if_neg hxi]
  have hfirst : ((a.gatherRest i c siblings after).node p).firstChild = u.head?.or (some last) := by
    rw [hl.firstChild, hlist.firstChild]
    simp
  have hlisted : (a.gatherRest i c siblings after).Lists p last :=
    (hu.lists fun x hx => .first (hfirst.trans hx)).2 last rfl
  have hparent := (hlists p).parent last ((hlists p).lists_iff.mp hlisted)
  rw [hl.parent, if_pos (.inr (List.mem_of_getLast? hmoved))] at hparent
  exact hpi (Option.some.inj hparent).symm

/-- **A list is said to end with a node that is not in it.** -/
theorem broken_of_parent (h : a.Unlisted i c siblings none) (hi : siblings.getLast? ≠ some i)
    (hp : (a.node i).parent = some p) : ¬ (a.gatherRest i c siblings none).HasChildLists := by
  intro hlists
  obtain ⟨moved, stop, -, -, -, -, -, hl⟩ := h.exists_links hi
  have hpi : p ≠ i := (h.parent p hp).1.symm
  have hlast : ((a.gatherRest i c siblings none).node p).lastChild = some i := by
    rw [hl.lastChild, if_neg hpi, if_pos ⟨rfl, hp⟩]
  have hmem : i ∈ (a.gatherRest i c siblings none).children p :=
    List.mem_of_getLast? ((hlists p).lastChild.symm.trans hlast)
  -- following the list one meets no node that was not in it
  have hkept : ∀ x, (a.gatherRest i c siblings none).Lists p x → x ∈ a.children p := by
    intro x hx
    induction hx with
    | first hfirst =>
      rw [hl.firstChild, (h.childLists p).firstChild] at hfirst
      exact List.mem_of_mem_head? hfirst
    | @next x y _ hxy ih =>
      have hxi : x ≠ i := fun hxi => h.not_mem p (hxi ▸ ih)
      have hxc : x ≠ c := fun hxc => hpi (h.eq_of_copy_mem (hxc ▸ ih))
      rw [hl.nextSibling, if_neg hxc, if_neg hxi] at hxy
      split at hxy
      · cases hxy
      · exact (h.childLists p).strung.mem_of_nextSibling ih hxy
  exact h.not_mem p (hkept i ((hlists p).lists_iff.mpr hmem))

/-- **A list is closed into a cycle**, since `i` is moved below itself and is followed by what it
was followed by. -/
theorem broken_of_last (h : a.Unlisted i c siblings after) (hlast : siblings.getLast? = some i) :
    ¬ (a.gatherRest i c siblings after).HasChildLists := by
  intro hlists
  obtain ⟨moved, stop, -, hnd, hsub, hhead, hmoved, hstrung⟩ :=
    h.strung.exists_moved h.ne_nil h.sibling_lt
  rw [hlast] at hmoved
  obtain ⟨u, rfl⟩ := List.getLast?_eq_some_iff.mp hmoved
  obtain ⟨w, hw⟩ := List.getLast?_eq_some_iff.mp hlast
  obtain ⟨first, hfirst⟩ : ∃ first, siblings.head? = some first :=
    Option.ne_none_iff_exists'.mp (by simpa using h.ne_nil)
  have hufirst : u.head?.or (some i) = some first := by
    rw [← hfirst, ← hhead, List.head?_append]
    rfl
  have hafter : after = some first := by
    have hstrung := h.strung
    rw [hw] at hstrung
    rw [← hfirst, ← h.nextSibling]
    simpa using hstrung.nextSibling.symm
  have hnext : ∀ x, ((a.gatherRest i c siblings after).node x).nextSibling = _ := fun _ =>
    nextSibling_gatherRest hfirst hlast h.lt_size h.copy_lt h.lt_size
  have hu : (a.gatherRest i c siblings after).Strung (some i) u := by
    refine (strung_append.mp hstrung).1.congr fun x hx => ?_
    have hxi : x ≠ i := fun hxi => (List.nodup_append.mp hnd).2.2 x hx i (by simp) hxi
    have hxc : x ≠ c := fun hxc => h.copy_not_mem (hxc ▸ hsub (by simp [hx]))
    rw [hnext, if_neg hxi, if_neg hxc, if_neg hxi]
  have hself : (a.gatherRest i c siblings after).Precedes i i := by
    refine Strung.precedes (l := u) ⟨?_, hu⟩
    rw [hnext, if_pos rfl, hafter, hufirst]
  have hlisted : (a.gatherRest i c siblings after).Lists i i := by
    have hcu : (a.gatherRest i c siblings after).Strung (some i) (c :: u) := by
      refine ⟨?_, hu⟩
      rw [hnext, if_neg h.ne_copy.symm, if_pos rfl, hufirst]
    refine (hcu.lists fun x hx => .first ?_).2 i rfl
    rw [firstChild_gatherRest hfirst hlast, (h.childLists i).firstChild, h.children_eq]
    exact hx
  exact (hlists i).not_precedes_self ((hlists i).lists_iff.mp hlisted) hself

/-- **Gathering siblings of a node in no list.** -/
theorem hasChildLists_iff (h : a.Unlisted i c siblings after) :
    (a.gatherRest i c siblings after).HasChildLists ↔ ¬ a.Strays i siblings after := by
  refine ⟨fun hlists => ?_, h.hasChildLists⟩
  rintro ⟨-, last, hlast, hstray⟩
  by_cases hli : last = i
  · exact h.broken_of_last (hli ▸ hlast) hlists
  rcases hstray with hli' | ⟨p, hp⟩ | ⟨rfl, hp⟩
  · exact hli hli'
  · exact h.broken_of_listed hlast hp hlists
  · obtain ⟨p, hp⟩ := Option.ne_none_iff_exists'.mp hp
    refine h.broken_of_parent (fun hi => hli ?_) hp hlists
    exact Option.some.inj (hlast.symm.trans hi)

end Unlisted

/-! ## The operators -/

namespace Loose

/-- Gathering a node on its own does not change what is listed. -/
theorem listed_gather (h : a.Loose) (hi : i < a.size) (label : String) (hx : x < a.size) :
    (∃ p, x ∈ (a.gather i label).2.children p) ↔ ∃ p, x ∈ a.children p := by
  rw [(h.childLists.gather hi label).2]
  have hxs : x ≠ a.size := Nat.ne_of_lt hx
  have his : i ≠ a.size := Nat.ne_of_lt hi
  constructor
  · rintro ⟨p, hp⟩
    by_cases hps : p = a.size
    · subst hps
      exact ⟨i, by simpa using hp⟩
    rw [Function.update_of_ne hps] at hp
    by_cases hpi : p = i
    · subst hpi
      simp [hxs] at hp
    · rw [Function.update_of_ne hpi] at hp
      exact ⟨p, hp⟩
  · rintro ⟨p, hp⟩
    by_cases hpi : p = i
    · exact ⟨a.size, by simpa [hpi] using hp⟩
    · have hps : p ≠ a.size := Nat.ne_of_lt ((h.childLists p).owner_lt_size hp)
      exact ⟨p, by rwa [Function.update_of_ne hps, Function.update_of_ne hpi]⟩

/-- Before the siblings are moved, the node has been gathered on its own. -/
theorem unlisted_gather (h : a.Loose) (hi : i < a.size) (label : String)
    (hno : ∀ p, i ∉ a.children p) (hs : siblings ≠ [])
    (hfollow : a.follow? (a.node i).nextSibling siblings = some after) :
    (a.gather i label).2.Unlisted i a.size siblings after := by
  have hl := h.childLists.gatherLinks hi label
  obtain ⟨hlists, hkids⟩ := h.childLists.gather hi label
  have hgrow : ∀ x < a.size, x < (a.gather i label).2.size := fun x hx => by
    rw [size_gather]
    exact Nat.lt_succ_of_lt hx
  have his : i ≠ a.size := Nat.ne_of_lt hi
  have hlt : ∀ x ∈ siblings, x < a.size :=
    (h.linksBelow.follow? (h.linksBelow i).2 hfollow).1
  obtain ⟨hstrung, hhead⟩ := follow?_eq_some_iff.mp hfollow
  refine
    { childLists := hlists
      children_eq := ?_
      not_mem := fun p hp => ?_
      lt_size := hgrow i hi
      parent := fun p hp => ?_
      ne_nil := hs
      strung := hstrung.congr fun x _ => hl.nextSibling x
      nextSibling := ?_
      sibling_lt := fun x hx => hgrow x (hlt x hx)
      copy_not_mem := fun hc => Nat.lt_irrefl _ (hlt _ hc) }
  · rw [hkids, Function.update_of_ne his, Function.update_self]
  · obtain ⟨q, hq⟩ := (h.listed_gather hi label hi).mp ⟨p, hp⟩
    exact hno q hq
  · rw [hl.parent, if_neg his, if_neg (hno i)] at hp
    exact ⟨h.ne_of_parent hp, hgrow p (h.parent_lt_size i p hp)⟩
  · rw [hl.nextSibling, hhead]
    cases siblings with
    | nil => exact absurd rfl hs
    | cons s rest => rfl

theorem strays_gather (h : a.Loose) (hi : i < a.size) (label : String)
    (hfollow : a.follow? (a.node i).nextSibling siblings = some after)
    (hno : ∀ p, i ∉ a.children p) :
    (a.gather i label).2.Strays i siblings after ↔ a.Strays i siblings after := by
  have hlt : ∀ x ∈ siblings, x < a.size :=
    (h.linksBelow.follow? (h.linksBelow i).2 hfollow).1
  have hparent : ((a.gather i label).2.node i).parent = (a.node i).parent := by
    rw [(h.childLists.gatherLinks hi label).parent, if_neg (Nat.ne_of_lt hi), if_neg (hno i)]
  have hno' : ∀ p, i ∉ (a.gather i label).2.children p := fun p hp => by
    obtain ⟨q, hq⟩ := (h.listed_gather hi label hi).mp ⟨p, hp⟩
    exact hno q hq
  have hlast : ∀ last ∈ siblings.getLast?,
      (∃ p, last ∈ (a.gather i label).2.children p) ↔ ∃ p, last ∈ a.children p := fun last hl =>
    h.listed_gather hi label (hlt last (List.mem_of_getLast? hl))
  refine and_congr ⟨fun _ => hno, fun _ => hno'⟩ (exists_congr fun last => ?_)
  refine and_congr_right fun hl => ?_
  rw [hlast last hl, hparent]

/-- **Gathering with siblings** keeps child lists unless the node strays. -/
theorem gatherWithSiblings_iff (h : a.Loose) (hi : i < a.size) (label : String)
    (siblings : List NodeId) :
    (a.gatherWithSiblings i label siblings).arena.HasChildLists ↔
      ¬ ∃ after, a.follow? (a.node i).nextSibling siblings = some after ∧
        a.Strays i siblings after := by
  rw [Arena.gatherWithSiblings]
  cases hfollow : a.follow? (a.node i).nextSibling siblings with
  | none => simpa [Outcome.fail] using h.childLists
  | some after =>
    show ((a.gather i label).2.gatherRest i a.size siblings after).HasChildLists ↔ _
    simp only [Option.some.injEq, exists_eq_left']
    by_cases hs : siblings = []
    · subst hs
      exact iff_of_true (h.childLists.gather hi label).1 (by simp [Strays])
    by_cases hlisted : ∃ p, i ∈ a.children p
    · obtain ⟨p, hp⟩ := hlisted
      refine iff_of_true ?_ fun hstray => hstray.1 p hp
      have hip : i ≠ p := (h.ne_of_mem hp).symm
      obtain ⟨before, behind, hp⟩ := List.append_of_mem hp
      have hlist := h.childLists p
      rw [hp] at hlist
      obtain ⟨hnext, hstrung⟩ := (strung_append.mp hlist.strung).2
      rw [hnext, Option.or_none] at hfollow
      obtain ⟨rest, rfl, rfl⟩ := hstrung.follow?_eq_some_iff.mp hfollow
      obtain ⟨hlists, hkids⟩ := h.childLists.gather hi label
      have hps : p < a.size := (h.childLists p).owner_lt_size (x := i) (by simp [hp])
      have hi' : (a.gather i label).2.children i = [a.size] := by
        rw [hkids, Function.update_of_ne (Nat.ne_of_lt hi), Function.update_self]
      have hp' : (a.gather i label).2.children p = before ++ i :: (siblings ++ rest) := by
        rw [hkids, Function.update_of_ne (Nat.ne_of_lt hps), Function.update_of_ne hip.symm, hp]
      exact hlists.gatherRest hi' hp' hip hs
    · have hno : ∀ p, i ∉ a.children p := fun p hp => hlisted ⟨p, hp⟩
      exact (h.unlisted_gather hi label hno hs hfollow).hasChildLists_iff.trans
        (not_congr (h.strays_gather hi label hfollow hno))

theorem of_refused {α : Type} {o : Outcome α} (h : a.Loose) (hno : a.Refused o) :
    o.arena.HasChildLists := by
  rw [hno.arena_eq]
  exact h.childLists

theorem promote (h : a.Loose) (hprev : a.predecessor? p c = some prev) :
    (a.promote p prev c).HasChildLists := by
  obtain ⟨before, rest, hp, -⟩ := h.childLists.exists_of_predecessor? hprev
  exact h.childLists.promote hprev (h.ne_of_mem (by simp [hp]))

theorem deleteChild (h : a.Loose) (p c : NodeId) : (a.deleteChild p c).arena.HasChildLists := by
  rcases a.deleteChild_outcome p c with hno | ⟨prev, hprev, hok⟩
  · exact h.of_refused hno
  · exact hok ▸ h.promote hprev

theorem foldUnder (h : a.Loose) (i : NodeId) : (a.foldUnder i).arena.HasChildLists := by
  rcases a.foldUnder_outcome i with hno | ⟨p, prev, -, hprev, hok⟩
  · exact h.of_refused hno
  · exact hok ▸ h.promote hprev

theorem foldOver (h : a.Loose) (i : NodeId) : (a.foldOver i).arena.HasChildLists := by
  rcases a.foldOver_outcome i with hno | ⟨p, prev, -, hprev, hok⟩
  · exact h.of_refused hno
  · exact hok ▸ ((h.promote hprev).of_sameLinks (sameLinks_setLabel ..)).1

theorem tear (h : a.Loose) (i : NodeId) : (a.tear i).arena.HasChildLists := by
  rcases a.tear_outcome i with hno | ⟨p, prev, -, hprev, hok⟩
  · exact h.of_refused hno
  · obtain ⟨before, rest, hp, rfl⟩ := h.childLists.exists_of_predecessor? hprev
    exact hok ▸ h.childLists.cut hp

theorem tearInto (h : a.Loose) (i : NodeId) (key : String) :
    (a.tearInto i key).arena.HasChildLists := by
  rcases a.tearInto_outcome i key with hno | ⟨p, prev, -, hprev, hok⟩
  · exact h.of_refused hno
  · obtain ⟨before, rest, hp, rfl⟩ := h.childLists.exists_of_predecessor? hprev
    have hps : p < a.size := (h.childLists p).owner_lt_size (x := i) (by simp [hp])
    -- the list is the same in the arena with the clone, where it is cut
    obtain ⟨hclone, -, hkids⟩ := h.childLists.cloneSubtree i
    obtain ⟨hstored, hkids'⟩ := hclone.of_sameLinks (sameLinks_updateStore _
      ((a.cloneSubtree i).2.node p).store fun store => store.insert key a.size)
    rw [← hkids p hps, ← hkids'] at hp
    rw [hok]
    exact hstored.cut hp

theorem insert (h : a.Loose) (hi : i < a.size) (position : Nat) (key : String) :
    (a.insert i position key).arena.HasChildLists := by
  rcases a.insert_outcome i position key with hno | ⟨stored, prev, -, hprev, hok⟩
  · exact h.of_refused hno
  · obtain ⟨hclone, hroot, -⟩ := h.childLists.cloneSubtree stored
    have hlt : a.size < (a.cloneSubtree stored).2.size := size_lt_cloneSubtree a stored
    rw [hok]
    exact hclone.linkAfter (Nat.lt_trans hi hlt) hlt hroot (Nat.ne_of_lt hi) hprev

end Loose

end Arena

/-! ## Commands -/

namespace Command

open Arena

variable {a : Arena} {c : Command}

/-- The command gathers siblings of a node in a way that breaks a list. -/
def Strays (a : Arena) : Command → Prop
  | .gatherWithSiblings i _ siblings =>
    ∃ after, a.follow? (a.node i).nextSibling siblings = some after ∧ a.Strays i siblings after
  | _ => False

/-- **Which operators keep child lists** in an arena with loose links: all but one, and that one
unless the node strays. An operator that fails has changed nothing. -/
theorem hasChildLists_run_iff (ha : a.Loose) (hc : c.Rearranges) (hrange : c.InRange a) :
    (c.run a).arena.HasChildLists ↔ ¬ c.Strays a := by
  obtain ⟨hop, hjoins⟩ := hc
  have hset {b : Arena} (hb : a.SameLinks b) : b.HasChildLists ↔ ¬ False :=
    iff_of_true (ha.childLists.of_sameLinks hb).1 not_false
  have hkept {b : Arena} (hb : b.HasChildLists) : b.HasChildLists ↔ ¬ False :=
    iff_of_true hb not_false
  cases c with
  | make label kind left right => exact hset (sameLinks_make a label kind left right)
  | makeSymbol symbols label left right => exact hset (sameLinks_make a _ _ left right)
  | push p label kind left right =>
    exact hkept (ha.childLists.addChild_of_sameLinks (sameLinks_make a label kind left right)
      (size_make ..) (hrange p List.mem_cons_self)).1
  | addChild p child =>
    cases child with
    | none => exact hkept ha.childLists
    | some child => cases hjoins
  | deleteChild p child =>
    rw [run, Outcome.arena_map]
    exact hkept (ha.deleteChild p child)
  | setLabel i label => exact hset (sameLinks_setLabel a i label)
  | setKind i kind => exact hset (sameLinks_setKind a i kind)
  | setLeft i left => exact hset (sameLinks_setLeft a i left)
  | setRight i right => exact hset (sameLinks_setRight a i right)
  | foldOver i =>
    rw [run, Outcome.arena_map]
    exact hkept (ha.foldOver i)
  | foldUnder i =>
    rw [run, Outcome.arena_map]
    exact hkept (ha.foldUnder i)
  | gather i label => exact hkept (ha.childLists.gather (hrange i List.mem_cons_self) label).1
  | gatherWithSiblings i label siblings =>
    rw [run, Outcome.arena_map]
    exact ha.gatherWithSiblings_iff (hrange i List.mem_cons_self) label siblings
  | tear i =>
    rw [run, Outcome.arena_map]
    exact hkept (ha.tear i)
  | tearInto i key =>
    rw [run, Outcome.arena_map]
    exact hkept (ha.tearInto i key)
  | insert i position key =>
    rw [run, Outcome.arena_map]
    exact hkept (ha.insert (hrange i List.mem_cons_self) position key)
  | clone i => exact hkept (ha.childLists.cloneSubtree i).1
  | setChild | setSibling | setParent | apply | transform | toAst => cases hop

/-- Node `p` with the children `x` and `y`. -/
def twoChildren : Arena :=
  runAll [.make "p" .nonTerminal 0 0, .push 0 "x" .terminal 0 0, .push 0 "y" .terminal 0 0] {}

/-- Node `y` is set as the first child of `p`, and `x` is left behind. -/
def leftBehind : Arena :=
  twoChildren.setChild 0 (some 2)

theorem loose_leftBehind : leftBehind.Loose := by
  have hloose : twoChildren.Loose :=
    (runAll_wellFormed wellFormed_empty (by decide)).linked.loose
  have hp : twoChildren.children 0 = [1] ++ [2] := by decide
  have hset : (twoChildren.setChild 0 [2].head?).Loose := hloose.setChild (by decide) hp
  exact hset

/-- The node that was left behind may be gathered on its own. It must not be gathered together with
the node that follows it, which would be moved below `x` and stay in the list of `p`. -/
theorem hasChildLists_run_leftBehind :
    leftBehind.Loose ∧ ((Command.gather 1 "g").run leftBehind).arena.HasChildLists ∧
      ¬ ((Command.gatherWithSiblings 1 "g" [2]).run leftBehind).arena.HasChildLists := by
  have hloose := loose_leftBehind
  refine ⟨hloose, (hasChildLists_run_iff hloose ⟨rfl, rfl⟩ (by decide)).mpr id, ?_⟩
  rw [hasChildLists_run_iff hloose ⟨rfl, rfl⟩ (by decide), not_not]
  refine ⟨none, by decide, fun p hp => ?_, 2, rfl, .inr (.inl ⟨0, by decide⟩)⟩
  have hparent : (leftBehind.node 1).parent = some 0 := by decide
  obtain rfl : 0 = p := Option.some.inj (hparent.symm.trans (hloose.childLists.parent_eq hp))
  exact absurd hp (by decide)

/-- **Operators do not keep child lists** wherever they find them in order. -/
theorem not_forall_hasChildLists_run :
    ¬ ∀ (a : Arena) (c : Command), a.Loose → c.Rearranges → c.InRange a →
      (c.run a).arena.HasChildLists := by
  intro h
  exact (by decide : ¬ ((Command.gatherWithSiblings 1 "g" [2]).run leftBehind).arena.HasChildLists)
    (h leftBehind _ loose_leftBehind ⟨rfl, rfl⟩ (by decide))

end Command

end ParseTree
