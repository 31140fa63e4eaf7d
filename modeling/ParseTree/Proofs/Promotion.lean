import ParseTree.Proofs.Enclosure

/-!
# What promotion leaves, slot by slot

Deleting a child promotes its children. `Linked.promote` says which child lists come of that. Here
the arena is described as a whole: every slot is the deleted node, the node that lost it, a member
of the new list or none of these, and in each case the node in it is written down. A list has its
ends in the parent and its order in the members, so whatever the position of the deleted node and
whether or not it had children, the four cases are the same.

Both folds are this edit. Folding under does nothing else, and folding over labels the parent.

## Main results

* `Linked.promoted`: what promotion leaves.
* `Linked.deleteChild_promotes`: when a child can be deleted, and what the edits that delete one
  leave.
-/

namespace ParseTree

/-- Links are no part of what a node stands for. -/
theorem Node.content_relink (n : Node) (parent firstChild nextSibling lastChild : Option NodeId) :
    ({ n with parent, firstChild, nextSibling, lastChild } : Node).content = n.content :=
  rfl

namespace Arena

variable {a b : Arena} {p c x : NodeId} {before after : List NodeId}

/-- **Arena `b` is `a` with the children of `c` in its place**, between `before` and `after` in the
list of `p`. -/
structure Promoted (a b : Arena) (p c : NodeId) (before after : List NodeId) : Prop where
  /-- The list of `p`, with both of its ends in `p` and all of its members naming `p`. -/
  isChildList : b.IsChildList p (before ++ a.children c ++ after)
  /-- The deleted node is left without links. -/
  deleted : b.node c = { a.node c with
    parent := none
    firstChild := none
    nextSibling := none
    lastChild := none }
  /-- The former parent of `c` has changed in the two ends of its list. -/
  owner : b.node p = { a.node p with
    firstChild := (before ++ a.children c ++ after).head?
    lastChild := (before ++ a.children c ++ after).getLast? }
  /-- A member of the list has changed in its parent and in the next member at most. -/
  member : ∀ x ∈ before ++ a.children c ++ after, ∃ next, b.node x = { a.node x with
    parent := some p
    nextSibling := next }
  /-- No other node has changed. -/
  other : ∀ x, x ≠ c → x ≠ p → x ∉ before ++ a.children c ++ after → b.node x = a.node x
  size : b.size = a.size
  stores : b.stores = a.stores
  nextIdentity : b.nextIdentity = a.nextIdentity

/-- The new list of `p`. Its members name `p`, so that neither `p` nor `c` is among them. -/
theorem Linked.isChildList_promoted (h : a.Linked) (hp : a.children p = before ++ c :: after) :
    (a.promote p before.getLast? c).IsChildList p (before ++ a.children c ++ after) ∧
      c ∉ before ++ a.children c ++ after ∧ p ∉ before ++ a.children c ++ after := by
  obtain ⟨hlinked, hkids⟩ := h.promote hp
  have hpc : (a.node c).parent = some p := h.parent_eq hp
  have hlist := hlinked.childList p
  rw [hkids, Function.update_of_ne (h.ne_of_parent hpc).symm, Function.update_self] at hlist
  refine ⟨hlist, fun hc => ?_, fun hp' => hlinked.ne_of_parent (hlist.parent p hp') rfl⟩
  have hroot := hlist.parent c hc
  rw [parent_promote (lt_size_of_parent hpc) fun k hk => h.lt_size_of_mem hk, if_pos rfl] at hroot
  simp at hroot

/-- **Promotion** leaves nothing but what `Promoted` says. -/
theorem Linked.promoted (h : a.Linked) (hp : a.children p = before ++ c :: after) :
    a.Promoted (a.promote p before.getLast? c) p c before after := by
  obtain ⟨hlist, hcl, hpl⟩ := h.isChildList_promoted hp
  have hpc : (a.node c).parent = some p := h.parent_eq hp
  have hne : p ≠ c := (h.ne_of_parent hpc).symm
  have hc : c < a.size := lt_size_of_parent hpc
  have hlt : ∀ k ∈ a.children c, k < a.size := fun k hk => h.lt_size_of_mem hk
  have hprev : ∀ x ∈ before.getLast?, x < a.size := fun x hx =>
    h.lt_size_of_mem (p := p) (by rw [hp]; simp [List.mem_of_getLast? hx])
  have hparent : ∀ x, ((a.promote p before.getLast? c).node x).parent = _ := fun _ =>
    parent_promote hc hlt
  have hfirst : ∀ x, ((a.promote p before.getLast? c).node x).firstChild = _ := fun _ =>
    firstChild_promote hc (h.parent_lt_size hpc)
  have hlast : ∀ x, ((a.promote p before.getLast? c).node x).lastChild = _ := fun _ =>
    lastChild_promote hc (h.parent_lt_size hpc)
  have hnext : ∀ x, ((a.promote p before.getLast? c).node x).nextSibling = _ := fun _ =>
    nextSibling_promote hc hprev hlt
  have hrelink : ∀ x parent firstChild nextSibling lastChild,
      ((a.promote p before.getLast? c).node x).content =
        ({ a.node x with parent, firstChild, nextSibling, lastChild } : Node).content :=
    fun x _ _ _ _ => content_promote.trans (Node.content_relink (a.node x) _ _ _ _).symm
  -- what is not in the new list was neither in front of `c` nor the last of its children
  have hends : ∀ x, x ∉ before ++ a.children c ++ after →
      x ∉ a.children c ∧ before.getLast? ≠ some x ∧ (a.children c).getLast? ≠ some x := by
    intro x hx
    refine ⟨fun hx' => hx (by simp [hx']), fun hx' => hx ?_, fun hx' => hx ?_⟩ <;>
      simp [List.mem_of_getLast? hx']
  refine ⟨hlist, ?_, ?_, fun x hx => ?_, fun x hxc hxp hx => ?_, size_promote, stores_promote,
    nextIdentity_promote⟩
  · refine Node.eq_of_content (hrelink c _ _ _ _) ?_ ?_ ?_ ?_
    · rw [hparent, if_pos rfl]
    · rw [hfirst, if_pos rfl]
    · rw [hnext, if_pos rfl]
    · rw [hlast, if_pos rfl]
  · obtain ⟨hk, hb, hkl⟩ := hends p hpl
    refine Node.eq_of_content (hrelink p _ _ _ _) ?_ hlist.firstChild ?_ hlist.lastChild
    · rw [hparent, if_neg hne, if_neg hk]
    · rw [hnext, if_neg hne, if_neg hb, if_neg hkl]
  · obtain ⟨hxc, hxp⟩ : x ≠ c ∧ x ≠ p := ⟨ne_of_mem_of_not_mem hx hcl, ne_of_mem_of_not_mem hx hpl⟩
    obtain ⟨next, hx'⟩ : ∃ next, ((a.promote p before.getLast? c).node x).nextSibling = next :=
      ⟨_, rfl⟩
    refine ⟨next, Node.eq_of_content (hrelink x _ _ _ _) (hlist.parent x hx) ?_ hx' ?_⟩
    · rw [hfirst, if_neg hxc, if_neg fun h => hxp h.1]
    · rw [hlast, if_neg hxc, if_neg fun h => hxp h.1]
  · obtain ⟨hk, hb, hkl⟩ := hends x hx
    refine Node.eq_of_content content_promote ?_ ?_ ?_ ?_
    · rw [hparent, if_neg hxc, if_neg hk]
    · rw [hfirst, if_neg hxc, if_neg fun h => hxp h.1]
    · rw [hnext, if_neg hxc, if_neg hb, if_neg hkl]
    · rw [hlast, if_neg hxc, if_neg fun h => hxp h.1]

/-- **Deleting a child**, and folding, which deletes a child of its parent. A node that names `p` as
its parent is in the list of `p`, so that a fold of it can not be refused. -/
theorem Linked.deleteChild_promotes (h : a.Linked) (p c : NodeId) :
    ((∃ x, (a.deleteChild p c).result = .ok x) ↔ c ∈ a.children p) ∧
    (c ∈ a.children p ↔ (a.node c).parent = some p) ∧
    ∀ before after, a.children p = before ++ c :: after →
      ∃ b, a.Promoted b p c before after ∧
        a.deleteChild p c = .ok b () ∧
        a.foldUnder c = .ok b () ∧
        a.foldOver c = .ok (b.setLabel p (a.node c).label) () := by
  refine ⟨a.deleteChild_eq_ok_iff p c, h.mem_children, fun before after hp => ?_⟩
  exact ⟨_, h.promoted hp, h.deleteChild_eq hp, h.foldUnder_eq hp, h.foldOver_eq hp⟩

/-- The middle one of three children has two children of its own. -/
theorem deleteChild_promotes_bushy :
    RuleTable.bushy.Linked ∧
      ∃ b, RuleTable.bushy.deleteChild 0 2 = .ok b () ∧ b.IsChildList 0 [1, 3, 4, 5] ∧
        (b.node 2).parent = none := by
  have hlinked := RuleTable.linked_bushy
  obtain ⟨-, -, hok⟩ := hlinked.deleteChild_promotes 0 2
  obtain ⟨b, hb, hdelete, -, -⟩ := hok [1] [5] (by decide)
  have hkids : RuleTable.bushy.children 2 = [3, 4] := by decide
  have hlist := hb.isChildList
  rw [hkids] at hlist
  exact ⟨hlinked, b, hdelete, hlist, by rw [hb.deleted]⟩

end Arena

end ParseTree
