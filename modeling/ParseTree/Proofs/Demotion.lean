import ParseTree.Proofs.Enclosure

/-!
# What gathering leaves, slot by slot

Gathering moves nodes one level down: the former children of a node come to stand below its copy,
and siblings that are gathered with it come to stand behind the copy. `Linked.gatherWithSiblings`
says which child lists come of that. Here the arena is described as a whole, as it was for
promotion. A slot is the node that is gathered, its copy, one of its former children, one of the
siblings, the parent that they had in common, or none of these.

A root has no siblings, and no parent either. So the gathering of siblings is described for both at
once, and where no siblings are given it is the gathering of one node.

## Main results

* `Linked.node_gather`, `Linked.node_gatherRest`: what either step leaves in a slot.
* `Linked.gathered_gather`, `Linked.gathered_gatherRest`: what both leave.
* `Linked.gatherWithSiblings_gathers`: when siblings can be gathered, and what that leaves.
-/

namespace ParseTree

namespace Arena

variable {a b : Arena} {i p c x first last : NodeId} {label : String}
  {before after siblings : List NodeId}

/-! ## Nodes that are told apart -/

/-- The parent of a node is not among its children. -/
theorem Linked.parent_not_mem_children (h : a.Linked) (hp : (a.node i).parent = some p) :
    p ∉ a.children i :=
  fun hmem => h.acyclic i ((Below.of_parent hp).trans (.of_parent (h.mem_children.mp hmem)))

/-- Siblings behind a node are neither the node nor the parent, and no children of the node. -/
theorem Linked.apart_of_mem_siblings (h : a.Linked)
    (hp : a.children p = before ++ i :: (siblings ++ after)) (hx : x ∈ siblings) :
    (a.node x).parent = some p ∧ x ≠ i ∧ x ≠ p ∧ x ∉ a.children i := by
  have hxp : (a.node x).parent = some p := h.mem_children.mp (by simp [hp, hx])
  have hip : i ≠ p := h.ne_of_parent (h.parent_eq hp)
  have hnd := h.nodup_children p
  rw [hp] at hnd
  refine ⟨hxp, ?_, h.ne_of_parent hxp, fun hmem => ?_⟩
  · grind
  · exact hip (Option.some.inj ((h.mem_children.mp hmem).symm.trans hxp))

/-! ## The two steps -/

/-- Gathering writes the label and the kind of the node, besides links. -/
theorem content_gather (hi : i < a.size) (label : String) :
    ((a.gather i label).2.node x).content =
      if x = a.size then (a.node i).detached a.nextIdentity
      else if x = i then { (a.node i).content with label, kind := .nonTerminal }
      else (a.node x).content := by
  have hne : i ≠ a.size := Nat.ne_of_lt hi
  rw [gather_snd]
  dsimp only
  rw [content_setChild]
  simp only [setKind, setLabel, node_update, size_update, size_setChild, size_copy]
  by_cases hxi : x = i
  · subst hxi
    have hcopied :
        (((a.copy x).2.setChild a.size ((a.copy x).2.node x).firstChild).node x).content =
          (a.node x).content := by
      rw [content_setChild, node_copy, if_neg hne]
    rw [if_neg hne, if_pos rfl, ← hcopied]
    simp [Nat.lt_succ_of_lt hi, Node.content, Node.detached]
  · have hix : ¬ i = x := fun h => hxi h.symm
    simp only [hix, false_and, if_false, if_neg hxi, content_setChild, node_copy]
    split <;> rfl

/-- **Gathering one node**: what is in each slot afterwards. -/
theorem Linked.node_gather (h : a.Linked) (hi : i < a.size) (label : String) (x : NodeId) :
    (a.gather i label).2.node x =
      if x = a.size then { (a.node i).detached a.nextIdentity with
        parent := some i
        firstChild := (a.children i).head?
        lastChild := (a.children i).getLast? }
      else if x = i then { a.node i with
        label
        kind := .nonTerminal
        firstChild := some a.size
        lastChild := some a.size }
      else if x ∈ a.children i then { a.node x with parent := some a.size }
      else a.node x := by
  have hl := h.hasChildLists.gatherLinks hi label
  have hcontent := content_gather (x := x) hi label
  have hfree : a.node a.size = .blank := node_of_size_le (Nat.le_refl _)
  have hne : i ≠ a.size := Nat.ne_of_lt hi
  have hii : i ∉ a.children i := fun hmem => h.ne_of_parent (h.mem_children.mp hmem) rfl
  have hparent := hl.parent x
  have hfirst := hl.firstChild x
  have hnext := hl.nextSibling x
  have hlast := hl.lastChild x
  split
  · next hx =>
    subst hx
    rw [if_pos rfl] at hcontent hparent hfirst hlast
    rw [hfree] at hnext
    exact Node.eq_of_content hcontent hparent hfirst hnext hlast
  next hx =>
  rw [if_neg hx] at hcontent hparent hfirst hlast
  split
  · next hxi =>
    subst hxi
    rw [if_pos rfl] at hcontent hfirst hlast
    rw [if_neg hii] at hparent
    exact Node.eq_of_content hcontent hparent hfirst hnext hlast
  next hxi =>
  rw [if_neg hxi] at hcontent hfirst hlast
  split
  · next hmem =>
    rw [if_pos hmem] at hparent
    exact Node.eq_of_content hcontent hparent hfirst hnext hlast
  · next hmem =>
    rw [if_neg hmem] at hparent
    exact Node.eq_of_content hcontent hparent hfirst hnext hlast

/-- Moving siblings writes the right extent of the node that they are moved below. -/
theorem content_gatherRest {next : Option NodeId} (hi : i < a.size)
    (hfirst : siblings.head? = some first) (hlast : siblings.getLast? = some last) :
    ((a.gatherRest i c siblings next).node x).content =
      if x = i then { (a.node i).content with right := (a.node last).right }
      else (a.node x).content := by
  have hred {y : NodeId} : ((a.redirected c first last).node y).content = (a.node y).content :=
    proj_redirected Node.content fun _ _ => rfl
  have hright : ((a.redirected c first last).node last).right = (a.node last).right :=
    proj_redirected Node.right fun _ _ => rfl
  have hsize : i < (a.redirected c first last).size := by simpa [redirected] using hi
  rw [gatherRest_eq hfirst hlast]
  dsimp only
  rw [← hred, ← hred, ← hright]
  generalize a.redirected c first last = d at hsize ⊢
  generalize d.chain d.size (some c) = ids
  have hadopted : ((d.adoptedBy i ids last next).node x).content =
      if x = i then { (d.node i).content with right := (d.node last).right }
      else (d.node x).content := by
    have hkept {y : NodeId} : ((d.adopt (some i) ids).node y).content = (d.node y).content :=
      content_adopt
    rw [adoptedBy, proj_adopt Node.right fun _ _ => rfl,
      field_update Node.content (by rwa [size_adopt]), ← hkept, ← hkept]
    rfl
  rw [← hadopted]
  generalize d.adoptedBy i ids last next = e
  split
  · exact content_update fun _ => rfl
  · rfl

/-- **Moving siblings behind the copy**: what is in each slot afterwards. -/
theorem Linked.node_gatherRest (h : a.Linked) (hi : a.children i = [c])
    (hp : a.children p = before ++ i :: (siblings ++ after))
    (hlast : siblings.getLast? = some last) (x : NodeId) :
    (a.gatherRest i c siblings after.head?).node x =
      if x = i then { a.node i with
        right := (a.node last).right
        nextSibling := after.head?
        lastChild := some last }
      else if x = c then { a.node c with nextSibling := siblings.head? }
      else if x ∈ siblings then { a.node x with
        parent := some i
        nextSibling := if x = last then none else (a.node x).nextSibling }
      else if x = p ∧ after = [] then { a.node p with lastChild := some i }
      else a.node x := by
  have hs : siblings ≠ [] := List.ne_nil_of_mem (List.mem_of_getLast? hlast)
  obtain ⟨first, hfirst⟩ : ∃ first, siblings.head? = some first :=
    Option.ne_none_iff_exists'.mp (by simpa using hs)
  obtain ⟨hip, hci, hcs⟩ := h.not_mem_of_children_eq hi hp
  have hpi : (a.node i).parent = some p := h.parent_eq hp
  have hcp : (a.node c).parent = some i := h.mem_children.mp (by simp [hi])
  have hmem : last ∈ siblings := List.mem_of_getLast? hlast
  have hpc : p ≠ c := by
    have hpk := h.parent_not_mem_children hpi
    rw [hi] at hpk
    exact List.ne_of_not_mem_cons hpk
  have hout : ∀ x ∈ siblings, x ≠ i ∧ x ≠ c ∧ x ≠ p := by
    intro x hx
    obtain ⟨-, hxi, hxp, hxk⟩ := h.apart_of_mem_siblings hp hx
    rw [hi] at hxk
    exact ⟨hxi, List.ne_of_not_mem_cons hxk, hxp⟩
  have hl := h.hasChildLists.gatherRestLinks hi hp hip hs
  have hcontent : ((a.gatherRest i c siblings after.head?).node x).content = _ :=
    content_gatherRest (lt_size_of_parent hpi) hfirst hlast
  have hparent := hl.parent x
  have hfirst' := hl.firstChild x
  have hnext := hl.nextSibling x
  have hlast' := hl.lastChild x
  rw [hlast] at hnext hlast'
  simp only [hpi, List.head?_eq_none_iff, Option.some.injEq] at hlast'
  split
  · next hxi =>
    subst hxi
    refine Node.eq_of_content (hcontent.trans (if_pos rfl)) ?_ hfirst' ?_ ?_ <;> grind
  next hxi =>
  rw [if_neg hxi] at hcontent hlast'
  split
  · next hxc =>
    subst hxc
    refine Node.eq_of_content hcontent ?_ hfirst' ?_ ?_ <;> grind
  next hxc =>
  split
  · next hx => refine Node.eq_of_content hcontent ?_ hfirst' ?_ ?_ <;> grind
  next hx =>
  split
  · next hxp =>
    obtain ⟨rfl, rfl⟩ := hxp
    refine Node.eq_of_content hcontent ?_ hfirst' ?_ ?_ <;> grind
  · next hxp => refine Node.eq_of_content hcontent ?_ hfirst' ?_ ?_ <;> grind

/-! ## Both steps -/

/-- **Arena `b` is `a` with a new level below `i`**, where `siblings`, which stood between `i` and
`after`, have moved behind the copy. -/
structure Gathered (a b : Arena) (i : NodeId) (label : String) (siblings after : List NodeId) :
    Prop where
  linked : b.Linked
  children_self : b.children i = a.size :: siblings
  children_copy : b.children a.size = a.children i
  /-- The siblings are missing in the list that they were in, and nothing else is. -/
  children_parent : ∀ p before, a.children p = before ++ i :: (siblings ++ after) →
    b.children p = before ++ i :: after
  children_other : ∀ x, x ≠ i → x ≠ a.size → (a.node i).parent ≠ some x →
    b.children x = a.children x
  /-- The copy is what `i` was, one level down. -/
  copy : b.node a.size = { (a.node i).detached a.nextIdentity with
    parent := some i
    firstChild := (a.children i).head?
    nextSibling := siblings.head?
    lastChild := (a.children i).getLast? }
  /-- Node `i` has kept its place and its left extent. -/
  self : b.node i = { a.node i with
    label
    kind := .nonTerminal
    right := siblings.getLast?.elim (a.node i).right fun last => (a.node last).right
    firstChild := some a.size
    nextSibling := after.head?
    lastChild := (a.size :: siblings).getLast? }
  child : ∀ x ∈ a.children i, b.node x = { a.node x with parent := some a.size }
  sibling : ∀ x ∈ siblings, b.node x = { a.node x with
    parent := some i
    nextSibling := if siblings.getLast? = some x then none else (a.node x).nextSibling }
  /-- The list of the parent ends with `i` if nothing came behind the siblings. -/
  parent : ∀ p, (a.node i).parent = some p → b.node p = { a.node p with
    lastChild := if after = [] then some i else (a.node p).lastChild }
  other : ∀ x, x ≠ a.size → x ≠ i → x ∉ a.children i → x ∉ siblings →
    (a.node i).parent ≠ some x → b.node x = a.node x
  size : b.size = a.size + 1
  stores : b.stores = a.stores
  nextIdentity : b.nextIdentity = a.nextIdentity + 1

/-- Gathering one node is gathering no siblings with it. -/
theorem Linked.gathered_gather (h : a.Linked) (hi : i < a.size) (label : String) :
    a.Gathered (a.gather i label).2 i label [] (a.rightSiblings i) := by
  obtain ⟨hlinked, hkids⟩ := h.gather hi label
  have hnode := h.node_gather hi label
  have hne : i ≠ a.size := Nat.ne_of_lt hi
  refine ⟨hlinked, h.children_gather_self hi label, ?children_copy, ?children_parent,
    ?children_other, ?copy, ?self, ?child, by simp, ?parent, ?other, size_gather a i label,
    stores_gather a i label, nextIdentity_gather a i label⟩
  case children_copy => rw [hkids, Function.update_self]
  case children_parent =>
    intro p before hp
    have hpi : (a.node i).parent = some p := h.parent_eq hp
    rw [h.children_gather_of_ne hi label (h.parent_lt_size hpi) (h.ne_of_parent hpi).symm]
    exact hp
  case children_other =>
    intro x hxi hxc _
    rw [hkids, Function.update_of_ne hxc, Function.update_of_ne hxi]
  case copy =>
    rw [hnode, if_pos rfl]
    rfl
  case self =>
    rw [hnode, if_neg hne, if_pos rfl, ← (h.strung_rightSiblings i).2]
    rfl
  case child =>
    intro x hx
    have hxi : x ≠ i := h.ne_of_parent (h.mem_children.mp hx)
    rw [hnode, if_neg (Nat.ne_of_lt (h.lt_size_of_mem hx)), if_neg hxi, if_pos hx]
  case parent =>
    -- nothing came behind `i` if no sibling did
    intro p hpi
    obtain ⟨before, after, hp⟩ := h.exists_children_eq hpi
    have hlast := (h.childList p).lastChild
    rw [hnode, if_neg (Nat.ne_of_lt (h.parent_lt_size hpi)), if_neg (h.ne_of_parent hpi).symm,
      if_neg (h.parent_not_mem_children hpi), h.rightSiblings_eq hp]
    split
    · next hnil =>
      subst hnil
      rw [hp, List.getLast?_append_cons, List.getLast?_singleton] at hlast
      rw [← hlast]
    · rfl
  case other =>
    intro x hxc hxi hxk _ _
    rw [hnode, if_neg hxc, if_neg hxi, if_neg hxk]

/-- **Siblings are gathered with a node**: what both steps leave. -/
theorem Linked.gathered_gatherRest (h : a.Linked) (label : String)
    (hp : a.children p = before ++ i :: (siblings ++ after)) (hs : siblings ≠ []) :
    a.Gathered ((a.gather i label).2.gatherRest i a.size siblings after.head?) i label siblings
      after := by
  have hpi : (a.node i).parent = some p := h.parent_eq hp
  have hi : i < a.size := lt_size_of_parent hpi
  have hpc : p ≠ a.size := Nat.ne_of_lt (h.parent_lt_size hpi)
  have hip : i ≠ p := h.ne_of_parent hpi
  have hic : i ≠ a.size := Nat.ne_of_lt hi
  have hparent : ∀ {x}, (a.node i).parent ≠ some x → x ≠ p := fun hx hxp => hx (hxp ▸ hpi)
  obtain ⟨last, hlast⟩ : ∃ last, siblings.getLast? = some last :=
    Option.ne_none_iff_exists'.mp (by simpa using hs)
  -- what the first step leaves
  have hgather := h.gathered_gather hi label
  rw [h.rightSiblings_eq hp] at hgather
  have hkept : ∀ x ∈ siblings, x ≠ a.size ∧ (a.gather i label).2.node x = a.node x := by
    intro x hx
    obtain ⟨hxp, hxi, hne, hxk⟩ := h.apart_of_mem_siblings hp hx
    have hxc : x ≠ a.size := Nat.ne_of_lt (lt_size_of_parent hxp)
    exact ⟨hxc, hgather.other x hxc hxi hxk List.not_mem_nil (by simpa [hpi] using hne.symm)⟩
  -- and the second one on top of it
  have hp' := hgather.children_parent p before hp
  obtain ⟨hlinked, hkids⟩ := hgather.linked.gatherRest hgather.children_self hp' hs
  have hnode := hgather.linked.node_gatherRest hgather.children_self hp' hlast
  refine ⟨hlinked, ?children_self, ?children_copy, ?children_parent, ?children_other, ?copy, ?self,
    ?child, ?sibling, ?parent, ?other, ?size, ?stores, ?nextIdentity⟩
  case children_self => rw [hkids, Function.update_self]
  case children_copy =>
    rw [hkids, Function.update_of_ne hic.symm, Function.update_of_ne hpc.symm,
      hgather.children_copy]
  case children_parent =>
    intro q before' hq
    obtain rfl : p = q := Option.some.inj (hpi.symm.trans (h.parent_eq hq))
    obtain rfl : before = before' := List.append_left_injective _ (hp.symm.trans hq)
    rw [hkids, Function.update_of_ne hip.symm, Function.update_self]
  case children_other =>
    intro x hxi hxc hxp
    rw [hkids, Function.update_of_ne hxi, Function.update_of_ne (hparent hxp),
      hgather.children_other x hxi hxc hxp]
  case copy => rw [hnode, if_neg hic.symm, if_pos rfl, hgather.copy]
  case self =>
    have hend : (a.size :: siblings).getLast? = some last := by simp [List.getLast?_cons, hlast]
    rw [hnode, if_pos rfl, hgather.self, (hkept last (List.mem_of_getLast? hlast)).2, hlast, hend]
    rfl
  case child =>
    intro x hx
    have hxi : x ≠ i := h.ne_of_parent (h.mem_children.mp hx)
    have hxp : x ≠ p := ne_of_mem_of_not_mem hx (h.parent_not_mem_children hpi)
    have hxs : x ∉ siblings := fun hxs => (h.apart_of_mem_siblings hp hxs).2.2.2 hx
    rw [hnode, if_neg hxi, if_neg (Nat.ne_of_lt (h.lt_size_of_mem hx)), if_neg hxs,
      if_neg fun hx => hxp hx.1, hgather.child x hx]
  case sibling =>
    intro x hx
    obtain ⟨hxc, hxk⟩ := hkept x hx
    rw [hnode, if_neg (h.apart_of_mem_siblings hp hx).2.1, if_neg hxc, if_pos hx, hxk, hlast]
    simp only [Option.some.injEq, eq_comm]
  case parent =>
    intro q hq
    obtain rfl : p = q := Option.some.inj (hpi.symm.trans hq)
    have hps : p ∉ siblings := fun hps => (h.apart_of_mem_siblings hp hps).2.2.1 rfl
    rw [hnode, if_neg hip.symm, if_neg hpc, if_neg hps, hgather.parent p hpi]
    by_cases hafter : after = [] <;> simp [hafter, hs]
  case other =>
    intro x hxc hxi hxk hxs hxp
    rw [hnode, if_neg hxi, if_neg hxc, if_neg hxs, if_neg fun hx => hparent hxp hx.1,
      hgather.other x hxc hxi hxk List.not_mem_nil hxp]
  case size => rw [size_gatherRest, size_gather]
  case stores => rw [stores_gatherRest, stores_gather]
  case nextIdentity => rw [nextIdentity_gatherRest, nextIdentity_gather]

/-- **The front of the right siblings can be gathered**, and that leaves nothing but what `Gathered`
says. -/
theorem Linked.gathered_gatherWithSiblings (h : a.Linked) (hi : i < a.size) (label : String)
    (hright : a.rightSiblings i = siblings ++ after) :
    ∃ b, a.gatherWithSiblings i label siblings = .ok b a.size ∧
      a.Gathered b i label siblings after := by
  by_cases hs : siblings = []
  · subst hs
    obtain rfl : a.rightSiblings i = after := hright
    exact ⟨_, gatherWithSiblings_nil a i label, h.gathered_gather hi label⟩
  cases hpi : (a.node i).parent with
  | none =>
    rw [h.rightSiblings_of_root hpi] at hright
    exact absurd (List.append_eq_nil_iff.mp hright.symm).1 hs
  | some p =>
    obtain ⟨before, rest, hp⟩ := h.exists_children_eq hpi
    rw [← h.rightSiblings_eq hp, hright] at hp
    exact ⟨_, h.gatherWithSiblings_eq label hp, h.gathered_gatherRest label hp hs⟩

/-- **Gathering siblings** succeeds exactly if they are the front of the right siblings. It then
gives the one new node, and leaves nothing but what `Gathered` says. No siblings can be gathered
anywhere, and that is gathering the node by itself. -/
theorem Linked.gatherWithSiblings_gathers (h : a.Linked) (hi : i < a.size) (label : String)
    (siblings : List NodeId) :
    ((∃ x, (a.gatherWithSiblings i label siblings).result = .ok x) ↔
      siblings <+: a.rightSiblings i) ∧
    (∀ after, a.rightSiblings i = siblings ++ after →
      ∃ b, a.gatherWithSiblings i label siblings = .ok b a.size ∧
        a.Gathered b i label siblings after) ∧
    a.gatherWithSiblings i label [] = .ok (a.gather i label).2 (a.gather i label).1 := by
  refine ⟨⟨fun ⟨x, hx⟩ => ?_, fun ⟨after, hafter⟩ => ?_⟩,
    fun after => h.gathered_gatherWithSiblings hi label, gatherWithSiblings_nil a i label⟩
  · rcases a.gatherWithSiblings_outcome i label siblings with ⟨e, log, hno⟩ | ⟨next, hnext, -⟩
    · rw [hno] at hx
      cases hx
    · obtain ⟨after, hafter, -⟩ := h.follow?_eq_some_iff.mp hnext
      exact ⟨after, hafter.symm⟩
  · obtain ⟨b, hb, -⟩ := h.gathered_gatherWithSiblings hi label hafter.symm
    exact ⟨a.size, by rw [hb]; rfl⟩

/-- The first of three children is gathered with both of the others, so that it comes last. -/
theorem gatherWithSiblings_gathers_bushy :
    RuleTable.bushy.Linked ∧ 1 < RuleTable.bushy.size ∧
      ∃ b, RuleTable.bushy.gatherWithSiblings 1 "g" [2, 5] = .ok b 6 ∧
        b.children 0 = [1] ∧ b.children 1 = [6, 2, 5] ∧ (b.node 0).lastChild = some 1 := by
  have hlinked := RuleTable.linked_bushy
  have hlt : 1 < RuleTable.bushy.size := by decide
  obtain ⟨-, hok, -⟩ := hlinked.gatherWithSiblings_gathers hlt "g" [2, 5]
  obtain ⟨b, hb, hgathered⟩ := hok [] (by decide)
  refine ⟨hlinked, hlt, b, hb, ?_, hgathered.children_self, ?_⟩
  · exact hgathered.children_parent 0 [] (by decide)
  · rw [hgathered.parent 0 (by decide)]
    rfl

end Arena

end ParseTree
