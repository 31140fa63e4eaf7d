import Mathlib.Logic.Equiv.Basic
import ParseTree.Proofs.Demotion
import ParseTree.Proofs.Promotion

/-!
# Gathering and folding cancel

Gathering adds a level, folding removes one. If the level that was added is removed again, either
from above or from below, the child lists are those that there were: as they stood, or with the copy
in the place of the node.

A linked arena is known by its child lists and by the contents of its nodes, since the lists settle
all links. So it is enough to compare lists, and not to follow two surgeries link by link. The two
arenas need not use the same slots: if lists agree after the slots have been permuted, then links
do.

## Main results

* `Linked.node_eq_rename`: child lists that agree settle the links of every node.
* `Linked.foldOver_gather`: the level is removed from below.
* `Linked.children_foldUnder_gathered`, `Linked.foldUnder_gatherWithSiblings`: the level is removed
  from above.
* `Linked.gather_fold_cancel`: what is in each slot after either.
-/

namespace ParseTree

/-- A node whose links lead to other slots. -/
def Node.rename (σ : NodeId → NodeId) (n : Node) : Node :=
  { n with
    parent := n.parent.map σ
    firstChild := n.firstChild.map σ
    nextSibling := n.nextSibling.map σ
    lastChild := n.lastChild.map σ }

/-- A node with the content of `m` in the place of its own. -/
def Node.withContent (n m : Node) : Node :=
  { m with
    parent := n.parent
    firstChild := n.firstChild
    nextSibling := n.nextSibling
    lastChild := n.lastChild }

theorem Node.rename_id (n : Node) : n.rename id = n := by
  simp [rename]

/-- Slots that no link leads to may be renamed. -/
theorem Node.Avoids.rename_eq {T : Set NodeId} {n : Node} (h : n.Avoids T) {σ : NodeId → NodeId}
    (hσ : ∀ x ∉ T, σ x = x) : n.rename σ = n := by
  have hlink {o : Option NodeId} (ho : ∀ x ∈ o, x ∉ T) : o.map σ = o := by
    cases o with
    | none => rfl
    | some x => exact congrArg some (hσ x (ho x rfl))
  rw [rename, hlink h.parent, hlink h.firstChild, hlink h.nextSibling, hlink h.lastChild]

namespace Arena

variable {a b d : Arena} {i p x : NodeId} {label : String} {before after siblings : List NodeId}

/-! ## Child lists settle links -/

/-- **Child lists settle links.** If the lists of two linked arenas are the same but for the slots
that the nodes are in, then so are all links. -/
theorem Linked.node_eq_rename (ha : a.Linked) (hb : b.Linked) (σ : Equiv.Perm NodeId)
    (h : ∀ x, b.children (σ x) = (a.children x).map σ) (x : NodeId) :
    b.node (σ x) = ((a.node x).rename σ).withContent (b.node (σ x)).content := by
  have hmem {y p : NodeId} : σ y ∈ b.children (σ p) ↔ y ∈ a.children p := by
    rw [h, List.mem_map_of_injective σ.injective]
  have hparent : (b.node (σ x)).parent = (a.node x).parent.map σ := by
    ext q
    obtain ⟨p, rfl⟩ := σ.surjective q
    rw [← hb.mem_children, hmem, ha.mem_children, Option.map_eq_some_iff]
    simp
  refine Node.eq_of_content rfl hparent ?_ ?_ ?_
  · rw [(hb.childList (σ x)).firstChild, h, List.head?_map, ← (ha.childList x).firstChild]
    rfl
  · show (b.node (σ x)).nextSibling = (a.node x).nextSibling.map σ
    cases hp : (a.node x).parent with
    | none =>
      rw [hp] at hparent
      rw [ha.nextSibling_of_root hp, hb.nextSibling_of_root hparent]
      rfl
    | some p =>
      obtain ⟨before, after, hlist⟩ := ha.exists_children_eq hp
      have hlist' : b.children (σ p) = before.map σ ++ σ x :: after.map σ := by
        rw [h, hlist, List.map_append, List.map_cons]
      rw [ha.nextSibling_eq hlist, hb.nextSibling_eq hlist', List.head?_map]
  · rw [(hb.childList (σ x)).lastChild, h, List.getLast?_map, ← (ha.childList x).lastChild]
    rfl

/-- **A linked arena is known** by its child lists and by the contents of its nodes. -/
theorem Linked.node_eq_of_children (ha : a.Linked) (hb : b.Linked)
    (hkids : b.children = a.children)
    (hcontent : ∀ x, (b.node x).content = (a.node x).content) (x : NodeId) :
    b.node x = a.node x := by
  have hsame : b.node x = ((a.node x).rename id).withContent (b.node x).content :=
    ha.node_eq_rename hb (Equiv.refl NodeId) (fun y => by simp [hkids]) x
  rw [hcontent, Node.rename_id] at hsame
  exact hsame

/-- Arenas with the same nodes, stores and counter are equal. -/
theorem eq_of_node (hsize : b.size = a.size) (hnode : ∀ x, b.node x = a.node x)
    (hstores : b.stores = a.stores) (hnext : b.nextIdentity = a.nextIdentity) : b = a := by
  obtain ⟨nodes, stores, next⟩ := a
  obtain ⟨nodes', stores', next'⟩ := b
  obtain rfl : stores' = stores := hstores
  obtain rfl : next' = next := hnext
  have hnodes : nodes' = nodes := by
    refine Array.ext hsize fun x hx hx' => ?_
    have hxx := hnode x
    rwa [node_eq_getElem hx, node_eq_getElem hx'] at hxx
  rw [hnodes]

/-! ## Removing the level from below -/

/-- Node `i` has a copy and is a non-terminal, and nothing else has changed. -/
def copied (a : Arena) (i : NodeId) : Arena :=
  (a.copy i).2.setKind i .nonTerminal

theorem node_copied (hi : i < a.size) : (a.copied i).node x =
    if x = a.size then (a.node i).detached a.nextIdentity
    else if x = i then { a.node i with kind := .nonTerminal }
    else a.node x := by
  have hne : i ≠ a.size := Nat.ne_of_lt hi
  have hlt : i < (a.copy i).2.size := by
    rw [size_copy]
    exact Nat.lt_succ_of_lt hi
  have hnode : (a.copied i).node x = if x = i then _ else _ := field_update (fun n => n) hlt
  rw [hnode, node_copy, node_copy, if_neg hne]
  by_cases hx : x = i
  · rw [if_pos hx, if_neg (hx ▸ hne), if_pos hx]
  · rw [if_neg hx, if_neg hx]

@[simp] theorem size_copied (a : Arena) (i : NodeId) : (a.copied i).size = a.size + 1 := by
  simp [copied, setKind]

@[simp] theorem stores_copied (a : Arena) (i : NodeId) : (a.copied i).stores = a.stores := rfl

@[simp] theorem nextIdentity_copied (a : Arena) (i : NodeId) :
    (a.copied i).nextIdentity = a.nextIdentity + 1 := rfl

theorem linked_copied (h : a.Linked) (i : NodeId) :
    (a.copied i).Linked ∧ (a.copied i).children = a.children :=
  h.of_sameLinks ((sameLinks_copy a i).trans (sameLinks_setKind _ i .nonTerminal))

/-- **Folding the copy over** undoes the gathering, but for the copy, which has no links then, and
for the kind of the node. -/
theorem Linked.foldOver_gather (h : a.Linked) (hi : i < a.size) (label : String) :
    (a.gather i label).2.foldOver a.size = .ok (a.copied i) () := by
  have hg := h.gathered_gather hi label
  have hne : i ≠ a.size := Nat.ne_of_lt hi
  have hnil : a.children a.size = [] := h.children_eq_nil (Nat.le_refl _)
  have hself : (a.gather i label).2.children i = [] ++ a.size :: [] := hg.children_self
  have hlabel : ((a.gather i label).2.node a.size).label = (a.node i).label := by rw [hg.copy]; rfl
  rw [hg.linked.foldOver_eq hself, hlabel]
  have hp := hg.linked.promoted hself
  have hcontent (x : NodeId) :
      (((a.gather i label).2.promote i ([] : List NodeId).getLast? a.size).node x).content = _ :=
    content_promote.trans (content_gather hi label)
  obtain ⟨hlinked, hkids⟩ := hg.linked.promote hself
  rw [hg.children_copy, (h.gather hi label).2] at hkids
  generalize (a.gather i label).2.promote i ([] : List NodeId).getLast? a.size = d at *
  -- the copy has lost its children to the node again
  obtain ⟨hd, hdkids⟩ := hlinked.of_sameLinks (sameLinks_setLabel d i (a.node i).label)
  obtain ⟨hcopied, hckids⟩ := linked_copied h i
  have hsize : d.size = a.size + 1 := hp.size.trans hg.size
  refine congrArg (Outcome.ok · ()) (eq_of_node ?size
    (Linked.node_eq_of_children hcopied hd ?kids ?contents) ?stores ?nextIdentity)
  case size => simp [setLabel, hsize]
  case stores => simp [setLabel, hp.stores]
  case nextIdentity => simp [setLabel, hp.nextIdentity]
  case kids =>
    rw [hdkids, hkids, hckids]
    funext x
    simp only [Function.update_apply]
    grind
  case contents =>
    intro x
    have hlt : i < d.size := hsize ▸ Nat.lt_succ_of_lt hi
    have hx : ((d.setLabel i (a.node i).label).node x).content =
        if x = i then { (d.node i).content with label := (a.node i).label }
        else (d.node x).content := field_update Node.content hlt
    rw [hx, node_copied hi]
    by_cases hxi : x = i
    · rw [if_pos hxi, hcontent, if_neg hne, if_pos rfl, if_neg (hxi ▸ hne), if_pos hxi]
      rfl
    · rw [if_neg hxi, hcontent, if_neg hxi, if_neg hxi]
      split <;> rfl

/-! ## Removing the level from above -/

theorem map_swap_eq_self {l : List NodeId} {c : NodeId} (hi : i ∉ l) (hc : c ∉ l) :
    l.map (Equiv.swap i c) = l :=
  (List.map_congr_left fun _ hy => Equiv.swap_apply_of_ne_of_ne (ne_of_mem_of_not_mem hy hi)
    (ne_of_mem_of_not_mem hy hc)).trans (List.map_id l)

/-- The copy in the place of the node. -/
theorem Linked.map_swap_children (h : a.Linked) (hp : a.children p = before ++ i :: after) :
    (a.children p).map (Equiv.swap i a.size) = before ++ a.size :: after := by
  have hnd := h.nodup_children p
  have hfree : a.size ∉ a.children p := fun hmem => Nat.lt_irrefl _ (h.lt_size_of_mem hmem)
  rw [hp] at hnd hfree ⊢
  rw [List.map_append, List.map_cons, Equiv.swap_apply_left, map_swap_eq_self (by grind) (by grind),
    map_swap_eq_self (by grind) (by grind)]

/-- **Folding the node under** to which the level was added puts the copy in its place. -/
theorem Linked.children_foldUnder_gathered (h : a.Linked)
    (hp : a.children p = before ++ i :: (siblings ++ after))
    (hb : a.Gathered b i label siblings after) (x : NodeId) :
    (b.promote p before.getLast? i).children (Equiv.swap i a.size x) =
      (a.children x).map (Equiv.swap i a.size) := by
  have hpi : (a.node i).parent = some p := h.parent_eq hp
  have hi : i < a.size := lt_size_of_parent hpi
  have hic : i ≠ a.size := Nat.ne_of_lt hi
  have hip : i ≠ p := h.ne_of_parent hpi
  have hpc : p ≠ a.size := Nat.ne_of_lt (h.parent_lt_size hpi)
  have hfree {y : NodeId} : a.size ∉ a.children y := fun hy =>
    Nat.lt_irrefl _ (h.lt_size_of_mem hy)
  rw [(hb.linked.promote (hb.children_parent p before hp)).2, hb.children_self]
  by_cases hxi : x = i
  · -- the copy has the children of the node
    have hii : x ∉ a.children x := fun hmem => h.ne_of_parent (h.mem_children.mp hmem) rfl
    rw [← hxi] at hic hb ⊢
    rw [Equiv.swap_apply_left, map_swap_eq_self hii hfree, Function.update_of_ne hic.symm,
      Function.update_of_ne hpc.symm, hb.children_copy]
  by_cases hxc : x = a.size
  · rw [hxc, Equiv.swap_apply_right, Function.update_self, h.children_eq_nil (Nat.le_refl _)]
    rfl
  rw [Equiv.swap_apply_of_ne_of_ne hxi hxc, Function.update_of_ne hxi]
  by_cases hxp : x = p
  · -- the copy and the siblings have come up to where the node was
    rw [hxp, Function.update_self, h.map_swap_children hp]
    simp
  · have hpx : (a.node i).parent ≠ some x := fun hpx => hxp (Option.some.inj (hpx.symm.trans hpi))
    have hix : i ∉ a.children x := fun hmem => hpx (h.mem_children.mp hmem)
    rw [Function.update_of_ne hxp, hb.children_other x hxi hxc hpx, map_swap_eq_self hix hfree]

/-- The level that was added to a node, alone or with siblings, is removed from above. The slots of
the node and of the copy are exchanged in all lists, and contents are those that the gathering has
left. -/
theorem Linked.foldUnder_gatherWithSiblings (h : a.Linked) (hpi : (a.node i).parent = some p)
    (hright : a.rightSiblings i = siblings ++ after) (label : String) :
    ∃ b d, a.gatherWithSiblings i label siblings = .ok b a.size ∧ b.foldUnder i = .ok d () ∧
      a.Gathered b i label siblings after ∧ d.Linked ∧
      (∀ x, d.children (Equiv.swap i a.size x) = (a.children x).map (Equiv.swap i a.size)) ∧
      (∀ x, (d.node x).content = (b.node x).content) ∧
      d.size = b.size ∧ d.stores = b.stores ∧ d.nextIdentity = b.nextIdentity := by
  obtain ⟨b, hgather, hb⟩ := h.gathered_gatherWithSiblings (lt_size_of_parent hpi) label hright
  obtain ⟨front, rest, hp⟩ := h.exists_children_eq hpi
  rw [← h.rightSiblings_eq hp, hright] at hp
  have hp' : b.children p = front ++ i :: after := hb.children_parent p front hp
  exact ⟨b, b.promote p front.getLast? i, hgather, hb.linked.foldUnder_eq hp', hb,
    (hb.linked.promote hp').1, h.children_foldUnder_gathered hp hb, fun _ => content_promote,
    size_promote, stores_promote, nextIdentity_promote⟩

/-- Gathering leaves the contents of all other nodes as they are. -/
theorem content_of_gatherWithSiblings (hgather : a.gatherWithSiblings i label siblings = .ok b x)
    {y : NodeId} (hy : y < a.size) (hyi : y ≠ i) : (b.node y).content = (a.node y).content := by
  have hkeeps := Node.linkFree_content.keeps_gatherWithSiblings (K := {i}ᶜ) (a := a) (i := i)
    (.inl (by simp)) label siblings
  rw [hgather] at hkeeps
  exact hkeeps.eq y hyi hy

/-- What a node avoids, read off the lists that it is in. -/
theorem Linked.avoids {T : Set NodeId} (h : a.Linked) (hparent : ∀ p ∈ (a.node x).parent, p ∉ T)
    (hkids : ∀ c ∈ a.children x, c ∉ T) (hright : ∀ s ∈ a.rightSiblings x, s ∉ T) :
    (a.node x).Avoids T where
  parent := hparent
  firstChild c hc := hkids c (List.mem_of_head? ((h.childList x).firstChild.symm.trans hc))
  nextSibling s hs := hright s (List.mem_of_head? ((h.strung_rightSiblings x).2.symm.trans hs))
  lastChild c hc := hkids c (List.mem_of_getLast? ((h.childList x).lastChild.symm.trans hc))

/-- Neither a node nor the siblings behind it have a link that leads to the node, or to a free slot.
-/
theorem Linked.avoids_of_mem_rightSiblings (h : a.Linked) (hpi : (a.node i).parent = some p)
    (hx : x = i ∨ x ∈ a.rightSiblings i) : (a.node x).Avoids {i, a.size} := by
  obtain ⟨before, after, hp⟩ := h.exists_children_eq hpi
  have hnd := h.nodup_children p
  have hxp : (a.node x).parent = some p ∧ i ∉ a.rightSiblings x := by
    rw [h.rightSiblings_eq hp] at hx
    rcases hx with rfl | hx
    · rw [hp] at hnd
      rw [h.rightSiblings_eq hp]
      exact ⟨hpi, by grind⟩
    · obtain ⟨s, t, rfl⟩ := List.append_of_mem hx
      have hpx : a.children p = (before ++ i :: s) ++ x :: t := by simp [hp]
      rw [hpx] at hnd
      rw [h.rightSiblings_eq hpx]
      exact ⟨h.parent_eq hpx, by grind⟩
  obtain ⟨hxp, hright⟩ := hxp
  refine h.avoids (fun q hq => ?_) (fun c hc => ?_) fun s hs => ?_
  · obtain rfl : p = q := Option.some.inj (hxp.symm.trans hq)
    have hps := h.parent_lt_size hpi
    have hip := h.ne_of_parent hpi
    grind
  · have hcx := h.mem_children.mp hc
    have hxp' := h.ne_of_parent hxp
    have hcs := h.lt_size_of_mem hc
    grind
  · have hss : s ∈ a.children p := h.rightSiblings_subset hxp hs
    have hlt := h.lt_size_of_mem hss
    grind

/-! ## Both -/

/-- **Gathering and folding cancel.** If a node is gathered and the copy is folded over, every slot
is as before, but that the node is a non-terminal and that there is the copy, without links. If a
node that has a parent is gathered, alone or with siblings that follow it, and is folded under, then
the copy stands where the node stood: every link that led to the node leads to the copy, which is
what the node was, and the node has none. -/
theorem Linked.gather_fold_cancel (h : a.Linked) (hi : i < a.size) (label : String) :
    (a.gather i label).1 = a.size ∧
    (∃ d, (a.gather i label).2.foldOver a.size = .ok d () ∧ d.Linked ∧
      (∀ x < a.size,
        d.node x = if x = i then { a.node i with kind := .nonTerminal } else a.node x) ∧
      d.node a.size = (a.node i).detached a.nextIdentity ∧
      d.size = a.size + 1 ∧ d.stores = a.stores ∧ d.nextIdentity = a.nextIdentity + 1) ∧
    ∀ p siblings, (a.node i).parent = some p → siblings <+: a.rightSiblings i →
      ∃ b d, a.gatherWithSiblings i label siblings = .ok b a.size ∧ b.foldUnder i = .ok d () ∧
        d.Linked ∧
        (∀ before after, a.children p = before ++ i :: after →
          d.children p = before ++ a.size :: after) ∧
        d.node a.size = { a.node i with identity := a.nextIdentity } ∧
        d.children a.size = a.children i ∧
        d.node i = { (a.node i).content with
          label
          kind := .nonTerminal
          right := siblings.getLast?.elim (a.node i).right fun last => (a.node last).right } ∧
        (∀ x ∈ siblings, d.node x = a.node x) ∧
        (∀ x < a.size, x ≠ i → d.node x = (a.node x).rename (Equiv.swap i a.size)) ∧
        d.size = a.size + 1 ∧ d.stores = a.stores ∧ d.nextIdentity = a.nextIdentity + 1 := by
  refine ⟨rfl, ⟨a.copied i, h.foldOver_gather hi label, (linked_copied h i).1, fun x hx => ?_, ?_,
    size_copied a i, stores_copied a i, nextIdentity_copied a i⟩,
    fun p siblings hpi ⟨after, hright⟩ => ?_⟩
  · rw [node_copied hi, if_neg (Nat.ne_of_lt hx)]
  · rw [node_copied hi, if_pos rfl]
  obtain ⟨b, d, hgather, hfold, hb, hd, hkids, hcontent, hsize, hstores, hnext⟩ :=
    h.foldUnder_gatherWithSiblings hpi hright.symm label
  have hnode (x : NodeId) : d.node (Equiv.swap i a.size x) = _ :=
    h.node_eq_rename hd (Equiv.swap i a.size) hkids x
  have hother (x : NodeId) (hx : x < a.size) (hxi : x ≠ i) :
      d.node x = (a.node x).rename (Equiv.swap i a.size) := by
    have hxx := hnode x
    rw [Equiv.swap_apply_of_ne_of_ne hxi (Nat.ne_of_lt hx), hcontent,
      content_of_gatherWithSiblings hgather hx hxi] at hxx
    exact hxx
  have hswap {x : NodeId} (hx : x ∉ ({i, a.size} : Set NodeId)) : Equiv.swap i a.size x = x :=
    Equiv.swap_apply_of_ne_of_ne (by grind) (by grind)
  refine ⟨b, d, hgather, hfold, hd, ?list, ?copy, ?kids, ?self, fun x hx => ?_, hother,
    hsize.trans hb.size, hstores.trans hb.stores, hnext.trans hb.nextIdentity⟩
  case list =>
    intro before after' hlist
    have hpp : Equiv.swap i a.size p = p :=
      Equiv.swap_apply_of_ne_of_ne (h.ne_of_parent hpi).symm (Nat.ne_of_lt (h.parent_lt_size hpi))
    rw [← hpp, hkids, h.map_swap_children hlist]
  case copy =>
    have hcopy := hnode i
    rw [Equiv.swap_apply_left, hcontent, hb.copy,
      (h.avoids_of_mem_rightSiblings hpi (.inl rfl)).rename_eq fun _ => hswap] at hcopy
    exact hcopy
  case kids =>
    have hii : i ∉ a.children i := fun hmem => h.ne_of_parent (h.mem_children.mp hmem) rfl
    have hfree : a.size ∉ a.children i := fun hmem => Nat.lt_irrefl _ (h.lt_size_of_mem hmem)
    have hcopy := hkids i
    rwa [Equiv.swap_apply_left, map_swap_eq_self hii hfree] at hcopy
  case self =>
    have hself := hnode a.size
    rw [Equiv.swap_apply_right, hcontent, hb.self, node_of_size_le (Nat.le_refl _)] at hself
    exact hself
  obtain ⟨front, rest, hp⟩ := h.exists_children_eq hpi
  rw [← h.rightSiblings_eq hp, ← hright] at hp
  obtain ⟨hxp, hxi, -⟩ := h.apart_of_mem_siblings hp hx
  have hxr : x ∈ a.rightSiblings i := hright ▸ List.mem_append_left _ hx
  rw [hother x (lt_size_of_parent hxp) hxi,
    (h.avoids_of_mem_rightSiblings hpi (.inr hxr)).rename_eq fun _ => hswap]

/-- The middle one of three children is gathered with the last one, and folded under. -/
theorem gather_fold_cancel_bushy :
    RuleTable.bushy.Linked ∧ 2 < RuleTable.bushy.size ∧
      ∃ b d, RuleTable.bushy.gatherWithSiblings 2 "g" [5] = .ok b 6 ∧
        b.foldUnder 2 = .ok d () ∧ d.children 0 = [1, 6, 5] ∧ d.children 6 = [3, 4] ∧
        (d.node 6).label = "m" ∧ (d.node 2).parent = none := by
  have hlinked := RuleTable.linked_bushy
  have hlt : 2 < RuleTable.bushy.size := by decide
  have hsize : RuleTable.bushy.size = 6 := by decide
  obtain ⟨-, -, hcancel⟩ := hlinked.gather_fold_cancel hlt "g"
  obtain ⟨b, d, hgather, hfold, -, hlist, hcopy, hkids, hself, -⟩ :=
    hcancel 0 [5] (by decide) (by decide)
  rw [hsize] at hgather hlist hcopy hkids
  refine ⟨hlinked, hlt, b, d, hgather, hfold, hlist [1] [5] (by decide), hkids.trans (by decide),
    ?_, ?_⟩
  · rw [hcopy]
    decide
  · rw [hself]
    rfl

end Arena

end ParseTree
