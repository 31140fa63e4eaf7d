import Mathlib.Logic.Function.Basic
import ParseTree.Proofs.SameLinks

/-!
# Taking a node out of a child list

Two edits take a node out of the list that it is in. Promotion puts the children of the node into
its place and leaves it without any link; cutting puts nothing there and leaves the subtree whole.
Both are a splice, and `nextSibling_splice` and its companions read the four links off a splice
once, so that nothing later looks into it.

The statements are in two layers. The first is about child lists alone and needs no more of the
arena than that it has them. The second adds what makes an arena linked.

## Main results

* `Linked.promote`, `Linked.cut`: the arena stays linked, and the child lists of two nodes at most
  change, to the lists named.
-/

namespace ParseTree

namespace Arena

variable {a : Arena} {i p c x : NodeId} {prev : Option NodeId}
  {replacement : Option (NodeId × NodeId)} {before after : List NodeId}
  {kids : NodeId → List NodeId}

/-! ## The links after a splice -/

@[simp] theorem size_splice :
    (a.splice p prev i replacement).size = a.size := by
  unfold splice
  cases replacement <;> cases prev <;> cases (a.node i).nextSibling <;> simp

theorem parent_splice (hi : i < a.size) :
    ((a.splice p prev i replacement).node x).parent =
      if x = i then none else (a.node x).parent := by
  unfold splice
  cases replacement <;> cases prev <;> cases (a.node i).nextSibling <;>
    simp [node_update] <;> grind

theorem firstChild_splice (hp : p < a.size) :
    ((a.splice p prev i replacement).node x).firstChild =
      if x = p ∧ prev = none then (replacement.map Prod.fst).or (a.node i).nextSibling
      else (a.node x).firstChild := by
  unfold splice
  cases replacement <;> cases prev <;> cases (a.node i).nextSibling <;>
    simp [node_update] <;> grind

theorem lastChild_splice (hp : p < a.size) :
    ((a.splice p prev i replacement).node x).lastChild =
      if x = p ∧ (a.node i).nextSibling = none then (replacement.map Prod.snd).or prev
      else (a.node x).lastChild := by
  unfold splice
  cases replacement <;> cases prev <;> cases (a.node i).nextSibling <;>
    simp [node_update] <;> grind

theorem nextSibling_splice (hi : i < a.size) (hprev : ∀ j ∈ prev, j < a.size)
    (htail : ∀ e ∈ replacement, e.2 < a.size) :
    ((a.splice p prev i replacement).node x).nextSibling =
      if x = i then none
      else if prev = some x then (replacement.map Prod.fst).or (a.node i).nextSibling
      else if replacement.map Prod.snd = some x then (a.node i).nextSibling
      else (a.node x).nextSibling := by
  unfold splice
  cases replacement <;> cases prev <;> cases (a.node i).nextSibling <;>
    simp [node_update] <;> grind

@[simp] theorem stores_splice :
    (a.splice p prev i replacement).stores = a.stores := by
  unfold splice
  cases replacement <;> cases prev <;> cases (a.node i).nextSibling <;> simp

@[simp] theorem nextIdentity_splice :
    (a.splice p prev i replacement).nextIdentity = a.nextIdentity := by
  unfold splice
  cases replacement <;> cases prev <;> cases (a.node i).nextSibling <;> simp

/-! ## Cutting -/

/-- Cutting a node out of its list leaves every node with a child list. -/
theorem isChildList_cut (h : ∀ j, a.IsChildList j (kids j)) (hp : kids p = before ++ i :: after)
    (j : NodeId) :
    (a.splice p before.getLast? i none).IsChildList j
      (Function.update kids p (before ++ after) j) := by
  have hlist := h p
  rw [hp] at hlist
  have hi : i < a.size := hlist.lt_size (by simp)
  have hlast : ∀ {x}, before.getLast? = some x → x ∈ before := List.mem_of_getLast?
  have hprev : ∀ x ∈ before.getLast?, x < a.size := fun x hx => hlist.lt_size (by simp [hlast hx])
  have hnd := hlist.nodup
  have hafter : (a.node i).nextSibling = after.head? := by simpa using hlist.strung.nextSibling
  have hnext : ∀ x, ((a.splice p before.getLast? i none).node x).nextSibling = _ := fun _ =>
    nextSibling_splice hi hprev (by simp)
  have hps : p < a.size := (h p).owner_lt_size (x := i) (by simp [hp])
  by_cases hj : j = p
  · subst hj
    rw [Function.update_self]
    obtain ⟨hsb, hsa⟩ := strung_append.mp hlist.strung
    refine ⟨?_, ?_, ?_, fun x hx => ?_⟩
    · rw [firstChild_splice hps, hlist.firstChild, hafter]
      cases before <;> simp
    · have hmid : a.Strung none ([] : List NodeId) := trivial
      have hstr := hsb.replace (b := a.splice j before.getLast? i none) hmid hsa.2 (by grind)
        fun x hx => by rw [hnext]; grind
      simpa using hstr
    · rw [lastChild_splice hps, hlist.lastChild, hafter]
      cases after <;> simp
    · rw [parent_splice hi, if_neg (by grind), hlist.parent x (by grind)]
  · rw [Function.update_of_ne hj]
    have hout : ∀ x ∈ kids j, x ∉ before ++ i :: after := by
      intro x hx hx'
      exact hj (Option.some.inj (((h j).parent x hx).symm.trans (hlist.parent x hx')))
    refine (h j).congr ?_ ?_ (fun x hx => ?_) fun x hx => ?_
    · rw [firstChild_splice hps, if_neg (by simp [hj])]
    · rw [lastChild_splice hps, if_neg (by simp [hj])]
    · rw [hnext]
      have := hout x hx
      grind
    · rw [parent_splice hi, if_neg]
      rintro rfl
      exact hout x hx (by simp)

/-- **Cutting** a node out of its list changes that list and no other. -/
theorem Linked.cut (h : a.Linked) (hp : a.children p = before ++ i :: after) :
    (a.splice p before.getLast? i none).Linked ∧
      (a.splice p before.getLast? i none).children =
        Function.update a.children p (before ++ after) := by
  have hi : i < a.size := h.lt_size_of_mem (p := p) (by rw [hp]; simp)
  have hbefore : ∀ x ∈ before.getLast?, (a.node x).parent = some p := fun x hx =>
    h.mem_children.mp (by rw [hp]; simp [List.mem_of_getLast? hx])
  have hparent : ∀ x, ((a.splice p before.getLast? i none).node x).parent = _ := fun _ =>
    parent_splice hi
  refine Linked.of_childLists (isChildList_cut h.childList hp) (fun {j q} hj => ?_)
    (fun {j} hj => ?_) (h.rooted_of_above fun {j q} hj ih => ih q (.of_parent ?_))
  · have hji : j ≠ i ∧ (a.node j).parent = some q := by
      rw [hparent] at hj
      grind
    have hmem := h.mem_children_of_parent hji.2
    by_cases hq : q = p
    · subst hq
      rw [hp] at hmem
      rw [Function.update_self]
      grind
    · rwa [Function.update_of_ne hq]
  · rw [nextSibling_splice hi (fun x hx => lt_size_of_parent (hbefore x hx)) (by simp)]
    rw [hparent] at hj
    have := @h.nextSibling_of_root j
    grind
  · rw [hparent] at hj
    grind

/-! ## Promotion -/

/-- The two ends of a list, if it has any. -/
def ends (l : List NodeId) : Option (NodeId × NodeId) :=
  match l.head?, l.getLast? with
  | some head, some tail => some (head, tail)
  | _, _ => none

theorem map_fst_ends (l : List NodeId) : (ends l).map Prod.fst = l.head? := by
  cases l <;> simp [ends, List.getLast?_cons]

theorem map_snd_ends (l : List NodeId) : (ends l).map Prod.snd = l.getLast? := by
  cases l <;> simp [ends, List.getLast?_cons]

/-- Promotion is adoption, a splice, and the removal of the links to the children. -/
theorem promote_eq : a.promote p prev c =
    ((a.adopt (some p) (a.children c)).splice p prev c (ends (a.children c))).update c
      fun n => { n with firstChild := none, lastChild := none } :=
  rfl

@[simp] theorem size_promote : (a.promote p prev c).size = a.size := by
  simp [promote_eq]

@[simp] theorem stores_promote : (a.promote p prev c).stores = a.stores := by
  simp [promote_eq]

@[simp] theorem nextIdentity_promote :
    (a.promote p prev c).nextIdentity = a.nextIdentity := by
  simp [promote_eq]

theorem parent_promote (hc : c < a.size) (hlt : ∀ k ∈ a.children c, k < a.size) :
    ((a.promote p prev c).node x).parent =
      if x = c then none else if x ∈ a.children c then some p else (a.node x).parent := by
  rw [promote_eq, proj_update Node.parent, parent_splice (by simpa using hc), node_adopt]
  · grind
  · exact fun _ => rfl

theorem firstChild_promote (hc : c < a.size) (hp : p < a.size) :
    ((a.promote p prev c).node x).firstChild =
      if x = c then none
      else if x = p ∧ prev = none then (a.children c).head?.or (a.node c).nextSibling
      else (a.node x).firstChild := by
  rw [promote_eq, node_update, size_splice, size_adopt]
  split
  · grind
  · rw [firstChild_splice (by simpa using hp), map_fst_ends,
      proj_adopt Node.firstChild fun _ _ => rfl, proj_adopt Node.nextSibling fun _ _ => rfl]
    grind

theorem lastChild_promote (hc : c < a.size) (hp : p < a.size) :
    ((a.promote p prev c).node x).lastChild =
      if x = c then none
      else if x = p ∧ (a.node c).nextSibling = none then (a.children c).getLast?.or prev
      else (a.node x).lastChild := by
  rw [promote_eq, node_update, size_splice, size_adopt]
  split
  · grind
  · rw [lastChild_splice (by simpa using hp), map_snd_ends,
      proj_adopt Node.lastChild fun _ _ => rfl, proj_adopt Node.nextSibling fun _ _ => rfl]
    grind

theorem nextSibling_promote (hc : c < a.size) (hprev : ∀ j ∈ prev, j < a.size)
    (hlt : ∀ k ∈ a.children c, k < a.size) :
    ((a.promote p prev c).node x).nextSibling =
      if x = c then none
      else if prev = some x then (a.children c).head?.or (a.node c).nextSibling
      else if (a.children c).getLast? = some x then (a.node c).nextSibling
      else (a.node x).nextSibling := by
  have htail : ∀ e ∈ ends (a.children c), e.2 < (a.adopt (some p) (a.children c)).size := by
    intro e he
    rw [size_adopt]
    refine hlt e.2 (List.mem_of_getLast? ?_)
    rw [← map_snd_ends, he]
    rfl
  rw [promote_eq, proj_update Node.nextSibling, nextSibling_splice (by simpa using hc)
    (by simpa using hprev) htail, map_fst_ends, map_snd_ends]
  · simp only [proj_adopt Node.nextSibling fun _ _ => rfl]
  · exact fun _ => rfl

/-- Promotion leaves every node with a child list. -/
theorem isChildList_promote (h : ∀ j, a.IsChildList j (kids j)) (hp : kids p = before ++ c :: after)
    (hpc : p ≠ c) (j : NodeId) :
    (a.promote p before.getLast? c).IsChildList j
      (Function.update (Function.update kids p (before ++ kids c ++ after)) c [] j) := by
  have hlist := h p
  have hown := h c
  rw [hp] at hlist
  have hown' : a.children c = kids c := hown.eq_children
  have hc : c < a.size := hlist.lt_size (by simp)
  have hps : p < a.size := (h p).owner_lt_size (x := c) (by simp [hp])
  have hlast : ∀ {x}, before.getLast? = some x → x ∈ before := List.mem_of_getLast?
  have hprev : ∀ x ∈ before.getLast?, x < a.size := fun x hx => hlist.lt_size (by simp [hlast hx])
  have hlt : ∀ k ∈ a.children c, k < a.size := fun k hk => hown.lt_size (hown' ▸ hk)
  have hafter : (a.node c).nextSibling = after.head? := by simpa using hlist.strung.nextSibling
  have hnext := fun x => nextSibling_promote (p := p) (x := x) hc hprev hlt
  have hparent : ∀ x, ((a.promote p before.getLast? c).node x).parent = _ := fun _ =>
    parent_promote hc hlt
  have hfirst : ∀ x, ((a.promote p before.getLast? c).node x).firstChild = _ := fun _ =>
    firstChild_promote hc hps
  have hlastc : ∀ x, ((a.promote p before.getLast? c).node x).lastChild = _ := fun _ =>
    lastChild_promote hc hps
  rw [hown', hafter] at hnext hfirst hlastc
  rw [hown'] at hparent
  -- members of two different lists are different, as their parents are
  have hdisj : ∀ {q x}, x ∈ kids q → ∀ {q'}, x ∈ kids q' → q = q' := fun hx _ hx' =>
    Option.some.inj (((h _).parent _ hx).symm.trans ((h _).parent _ hx'))
  by_cases hjc : j = c
  · subst hjc
    rw [Function.update_self]
    exact ⟨by simp [hfirst], trivial, by simp [hlastc], by simp⟩
  rw [Function.update_of_ne hjc]
  by_cases hj : j = p
  · subst hj
    rw [Function.update_self]
    obtain ⟨hsb, hsa⟩ := strung_append.mp hlist.strung
    have hkids : ∀ x ∈ kids c, x ∉ before ++ c :: after := fun x hx hx' =>
      hpc (hdisj (hp ▸ hx') hx)
    have hnd := hlist.nodup
    have hkn := hown.nodup
    refine ⟨?_, hsb.replace hown.strung hsa.2 (by grind) fun x hx => ?_, ?_, fun x hx => ?_⟩
    · rw [hfirst, hlist.firstChild]
      cases before <;> simp [hjc]
    · rw [hnext]
      grind
    · rw [hlastc, hlist.lastChild]
      cases after <;> simp [hjc, List.getLast?_cons]
    · rw [hparent]
      have := hlist.parent x
      grind
  · rw [Function.update_of_ne hj]
    refine (h j).congr ?_ ?_ (fun x hx => ?_) fun x hx => ?_
    · simp [hfirst, hjc, hj]
    · simp [hlastc, hjc, hj]
    · have := @hdisj j x hx
      rw [hnext]
      grind
    · have := @hdisj j x hx
      rw [hparent]
      grind

/-- **Promoting** the children of a node changes its own list and that of its parent. -/
theorem Linked.promote (h : a.Linked) (hp : a.children p = before ++ c :: after) :
    (a.promote p before.getLast? c).Linked ∧
      (a.promote p before.getLast? c).children =
        Function.update (Function.update a.children p (before ++ a.children c ++ after)) c [] := by
  have hpc : (a.node c).parent = some p := h.parent_eq hp
  have hne : p ≠ c := (h.ne_of_parent hpc).symm
  have hc : c < a.size := lt_size_of_parent hpc
  have hlt : ∀ k ∈ a.children c, k < a.size := fun k hk => h.lt_size_of_mem hk
  have hbefore : ∀ x ∈ before.getLast?, (a.node x).parent = some p := fun x hx =>
    h.mem_children.mp (by rw [hp]; simp [List.mem_of_getLast? hx])
  have hparent : ∀ x, ((a.promote p before.getLast? c).node x).parent = _ := fun _ =>
    parent_promote hc hlt
  refine Linked.of_childLists (isChildList_promote h.childList hp hne) (fun {j q} hj => ?_)
    (fun {j} hj => ?_) (h.rooted_of_above fun {j q} hj ih => ih q ?_)
  · rw [hparent] at hj
    have hmem := @h.mem_children_of_parent j q
    by_cases hqc : q = c
    · grind
    · rw [Function.update_of_ne hqc]
      by_cases hq : q = p
      · subst hq
        rw [hp] at hmem
        rw [Function.update_self]
        grind
      · rw [Function.update_of_ne hq]
        grind
  · rw [nextSibling_promote hc (fun x hx => lt_size_of_parent (hbefore x hx)) hlt]
    rw [hparent] at hj
    have hroot := @h.nextSibling_of_root j
    have hlast : ∀ x, (a.children c).getLast? = some x → x ∈ a.children c :=
      fun x => List.mem_of_getLast?
    grind
  · rw [hparent] at hj
    have hjc : j ≠ c := by
      rintro rfl
      simp at hj
    rw [if_neg hjc] at hj
    split at hj
    · -- the grandparent becomes the parent
      next hk =>
      obtain rfl : p = q := Option.some.inj hj
      exact .trans (.of_parent (h.mem_children.mp hk)) (.of_parent hpc)
    · exact .of_parent hj

end Arena

end ParseTree
