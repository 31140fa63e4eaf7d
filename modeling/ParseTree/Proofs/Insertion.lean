import ParseTree.Proofs.CloneTrees
import ParseTree.Proofs.Misuse

/-!
# What an insert leaves, slot by slot

An insert clones a stored subtree and links the root of the clone into a child list. The clone is
made of new nodes, so that linking it writes to two nodes that were there, the one whose list it
joins and the child before it, and it does not matter where these two are. They may be in the stored
subtree itself: what is inserted is that subtree as it was.

## Main results

* `Linked.node_linkAfter`: what linking a root leaves in a slot.
* `Linked.insert_inserts`: when an insert succeeds, and what it leaves.
-/

namespace ParseTree

namespace Arena

variable {a b : Arena} {i p c x stored : NodeId} {key : String} {position : Nat}
  {before after : List NodeId}

/-- **Linking a root into a list**: what is in each slot afterwards. -/
theorem Linked.node_linkAfter (h : a.Linked) (hp : a.children p = before ++ after)
    (hps : p < a.size) (hc : c < a.size) (hroot : (a.node c).parent = none) (hne : p ≠ c)
    (x : NodeId) :
    (a.linkAfter p before.getLast? c).node x =
      if x = c then { a.node c with parent := some p, nextSibling := after.head? }
      else if x = p then { a.node p with
        firstChild := (before ++ c :: after).head?
        lastChild := (before ++ c :: after).getLast? }
      else if before.getLast? = some x then { a.node x with nextSibling := some c }
      else a.node x := by
  have hl := h.hasChildLists.joinLinks_linkAfter hp hps hc hroot hne
  have hparent := hl.parent x
  have hfirst := hl.firstChild x
  have hnext := hl.nextSibling x
  have hlast := hl.lastChild x
  -- no node is a member of its own list
  have hself : before.getLast? ≠ some p := fun hbefore => by
    have hmem : p ∈ a.children p := hp ▸ List.mem_append_left _ (List.mem_of_getLast? hbefore)
    exact h.ne_of_parent (h.mem_children.mp hmem) rfl
  split
  · next hxc =>
    subst hxc
    rw [if_neg hne.symm] at hfirst hlast
    rw [if_pos rfl] at hparent hnext
    exact Node.eq_of_content content_linkAfter hparent hfirst hnext hlast
  next hxc =>
  rw [if_neg hxc] at hparent hnext
  split
  · next hxp =>
    subst hxp
    rw [if_neg hself] at hnext
    rw [if_pos rfl] at hfirst hlast
    exact Node.eq_of_content content_linkAfter hparent hfirst hnext hlast
  next hxp =>
  rw [if_neg hxp] at hfirst hlast
  split
  · next hbefore =>
    rw [if_pos hbefore] at hnext
    exact Node.eq_of_content content_linkAfter hparent hfirst hnext hlast
  · next hbefore =>
    rw [if_neg hbefore] at hnext
    exact Node.eq_of_content content_linkAfter hparent hfirst hnext hlast

/-! ## Inserting -/

/-- **Arena `b` is `a` with a clone** of the subtree at `stored` between `before` and `after` in the
list of `i`. The clone begins at the first new slot. -/
structure Inserted (a b : Arena) (i stored : NodeId) (before after : List NodeId) : Prop where
  linked : b.Linked
  children_self : b.children i = before ++ a.size :: after
  children_other : ∀ x < a.size, x ≠ i → b.children x = a.children x
  /-- Node `i` has kept all but the ends of its list. -/
  self : b.node i = { a.node i with
    firstChild := (before ++ a.size :: after).head?
    lastChild := (before ++ a.size :: after).getLast? }
  previous : ∀ x, before.getLast? = some x →
    b.node x = { a.node x with nextSibling := some a.size }
  other : ∀ x < a.size, x ≠ i → before.getLast? ≠ some x → b.node x = a.node x
  parent_copy : (b.node a.size).parent = some i
  nextSibling_copy : (b.node a.size).nextSibling = after.head?
  /-- What is inserted is the stored subtree as it is in `a`. -/
  exists_corresponds : ∃ f, b.Corresponds a.size a stored f
  within_iff : ∀ x, b.Within x a.size ↔ a.size ≤ x ∧ x < b.size
  size_eq : b.size = a.size + a.countNodes stored
  stores_eq : b.stores = a.stores
  numbered : a.Numbered b

/-- A clone that is linked into a list leaves what an insert leaves. -/
theorem Linked.inserted_linkAfter (h : a.Linked) (hi : i < a.size) (hstored : stored < a.size)
    (hsplit : a.children i = before ++ after) :
    a.Inserted ((a.cloneSubtree stored).2.linkAfter i before.getLast? a.size) i stored before
      after := by
  have hclone := h.cloneSubtree stored
  have hin := h.within_cloneSubtree hstored
  have hsize := h.size_cloneSubtree hstored
  obtain ⟨f, hf⟩ := h.exists_corresponds hstored
  have hnumbered := a.numbered_cloneSubtree stored
  generalize (a.cloneSubtree stored).2 = d at hclone hin hsize hf hnumbered
  have hid : i < d.size := Nat.lt_trans hi hclone.size_lt
  have hdsplit : d.children i = before ++ after := (hclone.children_eq h hi).trans hsplit
  have hne : i ≠ a.size := Nat.ne_of_lt hi
  obtain ⟨hlinked, hkids⟩ := hclone.linked.linkAfter hdsplit hid hclone.size_lt hclone.root
    (hclone.not_within h hi)
  have hnode := hclone.linked.node_linkAfter hdsplit hid hclone.size_lt hclone.root hne
  -- the list that changes is the list of an old node, and so none of the clone
  have hcopy : ∀ x, d.Within x a.size →
      (d.linkAfter i before.getLast? a.size).children x = d.children x := by
    intro x hx
    have hxi : x ≠ i := by
      rintro rfl
      exact hclone.not_within h hi hx
    rw [hkids, Function.update_of_ne hxi]
  refine ⟨hlinked, ?children_self, ?children_other, ?self, ?previous, ?other, ?parent_copy,
    ?nextSibling_copy, ⟨f, ?corresponds⟩, ?within_iff, ?size_eq, ?stores_eq,
    hnumbered.trans numbered_linkAfter⟩
  case children_self => rw [hkids, Function.update_self]
  case children_other =>
    intro x hx hxi
    rw [hkids, Function.update_of_ne hxi, hclone.children_eq h hx]
  case self => rw [hnode, if_neg hne, if_pos rfl, hclone.node_eq i hi]
  case previous =>
    intro x hx
    have hmem : x ∈ a.children i := hsplit ▸ List.mem_append_left _ (List.mem_of_getLast? hx)
    have hlt : x < a.size := h.lt_size_of_mem hmem
    rw [hnode, if_neg (Nat.ne_of_lt hlt), if_neg (h.ne_of_parent (h.mem_children.mp hmem)),
      if_pos hx, hclone.node_eq x hlt]
  case other =>
    intro x hx hxi hxb
    rw [hnode, if_neg (Nat.ne_of_lt hx), if_neg hxi, if_neg hxb, hclone.node_eq x hx]
  case parent_copy => rw [hnode, if_pos rfl]
  case nextSibling_copy => rw [hnode, if_pos rfl]
  case corresponds =>
    refine hf.of_children_eq h hclone.linked hlinked hcopy fun x _ => ?_
    exact Node.linkFree_mark.eq_of_content content_linkAfter
  case within_iff =>
    intro x
    rw [hclone.linked.within_iff_of_children_eq hlinked hcopy, hin, size_linkAfter]
  case size_eq => rw [size_linkAfter, hsize]
  case stores_eq => rw [stores_linkAfter, hclone.stores]

/-- **An insert** is refused for two reasons, the first of which is that nothing is stored under the
key; the other is looked for after that. If it is not refused, then it gives the root of the clone,
and leaves nothing but what `Inserted` says. The stored subtree is one of the arena, as it is in
every well-formed one; where it stands does not matter. -/
theorem Linked.insert_inserts (h : a.Linked) (hi : i < a.size)
    (hentry : ∀ stored ∈ a.torn? i key, stored < a.size) (position : Nat) :
    (∀ e, (a.insert i position key).result = .error e ↔
      (a.torn? i key = none ∧ e = .unknownTearId (a.node i).identity key) ∨
      ((a.torn? i key).isSome ∧ (a.children i).length < position ∧
        e = .positionOutOfRange (a.node i).identity position (a.children i).length)) ∧
    ∀ stored, a.torn? i key = some stored → position ≤ (a.children i).length →
      ∃ b, a.insert i position key = .ok b a.size ∧
        a.Inserted b i stored ((a.children i).take position) ((a.children i).drop position) := by
  refine ⟨fun e => insert_eq_error_iff, fun stored hstored hle => ?_⟩
  exact ⟨_, h.insert_eq hi hstored hle,
    h.inserted_linkAfter hi (hentry stored hstored) (List.take_append_drop ..).symm⟩

/-- A node with a child, from which a copy of itself with that child was torn. The stored subtree
has the same tear store, so that it can be inserted into itself. -/
def selfStored : Arena :=
  Command.runAll [.make "r" .nonTerminal 0 1, .push 0 "x" .terminal 0 1, .gather 0 "g",
    .tearInto 2 "k"] {}

theorem insert_inserts_selfStored :
    selfStored.Linked ∧ 3 < selfStored.size ∧
      (∀ stored ∈ selfStored.torn? 3 "k", stored < selfStored.size) ∧
      selfStored.torn? 3 "k" = some 3 ∧ selfStored.children 3 = [4] ∧
      ∃ b, selfStored.insert 3 1 "k" = .ok b 5 ∧ b.children 3 = [4, 5] ∧ b.size = 7 ∧
        ∃ f, b.Corresponds 5 selfStored 3 f := by
  have hlinked : selfStored.Linked :=
    (Command.runAll_wellFormed wellFormed_empty (by decide)).linked
  have hlt : 3 < selfStored.size := by decide
  have hstored : selfStored.torn? 3 "k" = some 3 := by decide
  have hentry : ∀ stored ∈ selfStored.torn? 3 "k", stored < selfStored.size := by
    rintro stored h
    obtain rfl : 3 = stored := Option.some.inj (hstored.symm.trans h)
    exact hlt
  obtain ⟨-, hok⟩ := hlinked.insert_inserts hlt hentry 1
  obtain ⟨b, hb, hins⟩ := hok 3 hstored (by decide)
  exact ⟨hlinked, hlt, hentry, hstored, by decide, b, hb, hins.children_self, hins.size_eq,
    hins.exists_corresponds⟩

end Arena

end ParseTree
