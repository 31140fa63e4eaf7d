import ParseTree.Proofs.LinkRange

/-!
# What is copied

Five operators copy nodes. `sources` lists the nodes that a command copies, in the order in which it
copies them, and since slots are handed out in order, this says which node each new node is a copy
of. For a clone the list follows the stack that the clone is made with.

Nothing is asked of the trees. Where links lead to slots, and copying does not write to the nodes
that were there, only nodes that were there are copied.

## Main results

* `copied_cloneSubtree`: the nodes of a clone, and what they are copies of.
* `Command.copied_run`: the same for one command.
-/

namespace ParseTree

namespace Arena

variable {a b d : Arena} {n k : Nat} {i p : NodeId} {l l' : List NodeId}
  {stack : List (NodeId × NodeId)}

/-! ## Copies in the order of a list -/

/-- **The new nodes of `b` are copies** of the nodes of `l`, which are among the first `n` slots of
`a`, in the order of `l`. -/
structure Copied (n : Nat) (a b : Arena) (l : List NodeId) : Prop where
  size_eq : b.size = a.size + l.length
  lt : ∀ y ∈ l, y < n
  mark_eq : ∀ k y, l[k]? = some y → (b.node (a.size + k)).mark = (a.node y).mark

namespace Copied

theorem nil (hsize : b.size = a.size) : Copied n a b [] :=
  ⟨hsize, by simp, by simp⟩

/-- Copies are made of the same nodes as before. -/
theorem trans (h : Copied n a b l) (hab : Keeps Node.mark Set.univ a b) (hn : n ≤ a.size)
    (h' : Copied n b d l') (hbd : Keeps Node.mark Set.univ b d) : Copied n a d (l ++ l') where
  size_eq := by rw [h'.size_eq, h.size_eq, List.length_append, Nat.add_assoc]
  lt := List.forall_mem_append.mpr ⟨h.lt, h'.lt⟩
  mark_eq k y hy := by
    rcases Nat.lt_or_ge k l.length with hk | hk
    · rw [List.getElem?_append_left hk] at hy
      have hlt : a.size + k < b.size := h.size_eq ▸ Nat.add_lt_add_left hk _
      rw [hbd.eq _ trivial hlt, h.mark_eq k y hy]
    · rw [List.getElem?_append_right hk] at hy
      have hlt : y < a.size := Nat.lt_of_lt_of_le (h'.lt y (List.mem_of_getElem? hy)) hn
      have hslot : a.size + k = b.size + (k - l.length) := by rw [h.size_eq]; omega
      rw [hslot, h'.mark_eq _ y hy, hab.eq y trivial hlt]

/-- Other nodes are written to, and links are set, after the copies were made. -/
theorem keeps (h : Copied n a b l) (hsize : d.size = b.size)
    (hd : Keeps Node.mark {x | a.size ≤ x} b d) : Copied n a d l where
  size_eq := hsize.trans h.size_eq
  lt := h.lt
  mark_eq k y hy := by
    have hk : k < l.length := (List.getElem?_eq_some_iff.mp hy).1
    have hlt : a.size + k < b.size := h.size_eq ▸ Nat.add_lt_add_left hk _
    rw [hd.eq _ (Nat.le_add_right ..) hlt, h.mark_eq k y hy]

end Copied

/-! ## Clones -/

theorem copied_copy (hi : i < n) : Copied n a (a.copy i).2 [i] where
  size_eq := by simp
  lt := by simpa using hi
  mark_eq k y hy := by
    obtain ⟨rfl, rfl⟩ : k = 0 ∧ i = y := by
      cases k <;> simp_all
    rw [node_copy]
    simp
    rfl

/-- The children of a node are copied. -/
theorem copied_copyChildren (hn : n ≤ a.size) (hl : ∀ y ∈ l, y < n) :
    Copied n a (copyChildren p l stack a).2 l := by
  induction l generalizing a stack with
  | nil => exact .nil rfl
  | cons i l ih =>
    obtain ⟨hi, hl⟩ := List.forall_mem_cons.mp hl
    have hcopy : Copied n a ((a.copy i).2.addChild p a.size) [i] :=
      (copied_copy hi).keeps size_addChild (Node.linkFree_mark.keeps_addChild p a.size)
    have hkeeps : Keeps Node.mark Set.univ a ((a.copy i).2.addChild p a.size) :=
      (keeps_copy i).trans (Node.linkFree_mark.keeps_addChild p a.size)
    rw [copyChildren_cons]
    exact hcopy.trans hkeeps hn (ih (Nat.le_trans hn hkeeps.size_le) hl)
      (Node.linkFree_mark.keeps_copyChildren ..)

/-- Only nodes that were copied get onto the stack. -/
theorem fst_lt_copyChildren (hl : ∀ y ∈ l, y < n) (hstack : ∀ e ∈ stack, e.1 < n) :
    ∀ e ∈ (copyChildren p l stack a).1, e.1 < n := by
  induction l generalizing a stack with
  | nil => exact hstack
  | cons i l ih =>
    obtain ⟨hi, hl⟩ := List.forall_mem_cons.mp hl
    rw [copyChildren_cons]
    refine ih hl fun e he => ?_
    split at he
    · rcases List.mem_cons.mp he with rfl | he
      · exact hi
      · exact hstack e he
    · exact hstack e he

/-- What is on the stack is copied. The originals are among the first `n` nodes, which are sealed,
so that they keep their links. -/
theorem copied_copyPending (hs : a.Sealed {x | x < n}) (ha : ∀ x < n, (a.node x).LinksBelow n)
    (hstack : ∀ e ∈ stack, e.1 < n ∧ n ≤ e.2) :
    Copied n a (copyPending k stack a) (pendingSources k stack a) := by
  induction k generalizing a stack with
  | zero => exact .nil rfl
  | succ k ih =>
    match stack with
    | [] => exact .nil rfl
    | (i, c) :: stack =>
      obtain ⟨⟨hi, hc⟩, hstack⟩ := List.forall_mem_cons.mp hstack
      have hn : n ≤ a.size := Nat.le_of_not_lt fun hlt => Nat.lt_irrefl _ (hs.lt_size _ hlt)
      have hkids : ∀ y ∈ a.children i, y < n := chain_lt ha a.size (ha i hi).1
      have hnew : ∀ e ∈ stack, e.2 ∉ {x | x < n} := fun e he => Nat.not_lt.mpr (hstack e he).2
      obtain ⟨hframes, hsnd⟩ := hs.copyChildren (p := c) (Nat.not_lt.mpr hc) hnew (a.children i)
      have hfst := fst_lt_copyChildren (p := c) (a := a) hkids fun e he => (hstack e he).1
      have hrest := ih hframes.sealed (fun x hx => hframes.node_eq x hx ▸ ha x hx)
        fun e he => ⟨hfst e he, Nat.not_lt.mp (hsnd e he)⟩
      exact (copied_copyChildren hn hkids).trans (Node.linkFree_mark.keeps_copyChildren ..) hn hrest
        (Node.linkFree_mark.keeps_copyPending ..)

/-- All nodes that are there are sealed: nothing else has links. -/
theorem sealed_slots (a : Arena) : a.Sealed {x | x < a.size} where
  lt_size _ hx := hx
  avoids x hx := by
    rw [node_of_size_le (Nat.not_lt.mp hx)]
    exact Node.avoids_of_unlinked rfl rfl rfl rfl

/-- **A clone** is made of nodes that were there. -/
theorem copied_cloneSubtree (ha : a.LinksBelow a.size) (hi : i < a.size) :
    Copied a.size a (a.cloneSubtree i).2 (a.cloneSources i) := by
  have hcopy := a.sealed_slots.copy i
  have hpending : Copied a.size (a.copy i).2 (a.cloneSubtree i).2
      (pendingSources (a.countNodes i) [(i, a.size)] (a.copy i).2) := by
    refine copied_copyPending hcopy.sealed (fun x hx => hcopy.node_eq x hx ▸ ha x) fun e he => ?_
    obtain rfl := List.mem_singleton.mp he
    exact ⟨hi, Nat.le_refl _⟩
  exact (copied_copy hi).trans (keeps_copy i) (Nat.le_refl _) hpending
    (Node.linkFree_mark.keeps_copyPending ..)

/-- Gathering copies the node, to which it writes afterwards. -/
theorem copied_gather (hi : i < a.size) (label : String) :
    Copied a.size a (a.gather i label).2 [i] := by
  have hwrite : i ∉ {x | a.size ≤ x} := Nat.not_le.mpr hi
  refine (copied_copy hi).keeps (by simp) ?_
  exact Node.linkFree_mark.keeps_gather_copy (.inl hwrite) label

end Arena

/-! ## Commands -/

namespace Command

open Arena

variable {a : Arena} {c : Command}

/-- The nodes that a command copies, in order. -/
def sources (a : Arena) : Command → List NodeId
  | .gather i _ => [i]
  | .gatherWithSiblings i label siblings =>
    if (a.gatherWithSiblings i label siblings).result.isOk then [i] else []
  | .tearInto i key => if (a.tearInto i key).result.isOk then a.cloneSources i else []
  | .insert i position key =>
    if (a.insert i position key).result.isOk then (a.torn? i key).elim [] a.cloneSources else []
  | .clone i => a.cloneSources i
  | _ => []

/-- **One step** that makes no other node copies nodes that were there, and its copies are all the
new nodes there are. -/
theorem copied_run (ha : a.LinksBelow a.size)
    (hstored : ∀ i key, ∀ r ∈ a.torn? i key, r < a.size) (hc : IsStep a c)
    (hno : making a c = []) : Copied a.size a (c.run a).arena (sources a c) := by
  obtain ⟨hedit, hslots⟩ := hc
  have hset {b : Arena} (hsize : b.size = a.size) : Copied a.size a b [] := .nil hsize
  cases c with
  | make | makeSymbol | push => cases hno
  | addChild p child =>
    cases child with
    | none => exact hset rfl
    | some child => exact hset size_addChild
  | setChild p child => exact hset size_setChild
  | setSibling i sibling => exact hset size_setSibling
  | setParent i parent => exact hset (size_update ..)
  | deleteChild p child =>
    rw [run, Outcome.arena_map]
    rcases a.deleteChild_outcome p child with h | ⟨_, -, hok⟩
    · exact hset (by rw [h.arena_eq])
    · rw [hok]
      exact hset size_promote
  | setLabel i label => exact hset (size_update ..)
  | setKind i kind => exact hset (size_update ..)
  | setLeft i left => exact hset (size_update ..)
  | setRight i right => exact hset (size_update ..)
  | foldOver i =>
    rw [run, Outcome.arena_map]
    rcases a.foldOver_outcome i with h | ⟨p, prev, -, -, hok⟩
    · exact hset (by rw [h.arena_eq])
    · rw [hok]
      exact hset ((size_update ..).trans size_promote)
  | foldUnder i =>
    rw [run, Outcome.arena_map]
    rcases a.foldUnder_outcome i with h | ⟨_, _, -, -, hok⟩
    · exact hset (by rw [h.arena_eq])
    · rw [hok]
      exact hset size_promote
  | gather i label => exact copied_gather (hslots i List.mem_cons_self) label
  | gatherWithSiblings i label siblings =>
    rw [run, Outcome.arena_map, sources]
    rcases a.gatherWithSiblings_outcome i label siblings with ⟨e, log, hno⟩ | ⟨after, -, hok⟩
    · rw [hno]
      exact hset rfl
    · have hwrite : i ∉ {x | a.size ≤ x} := Nat.not_le.mpr (hslots i List.mem_cons_self)
      rw [hok]
      show Copied a.size a ((a.gather i label).2.gatherRest i a.size siblings after) [i]
      exact (copied_gather (hslots i List.mem_cons_self) label).keeps size_gatherRest
        (Node.linkFree_mark.keeps_gatherRest (.inl hwrite))
  | tear i =>
    rw [run, Outcome.arena_map]
    rcases a.tear_outcome i with h | ⟨p, prev, -, -, hok⟩
    · exact hset (by rw [h.arena_eq])
    · rw [hok]
      show Copied a.size a (a.splice p prev i none) []
      exact hset size_splice
  | tearInto i key =>
    rw [run, Outcome.arena_map, sources]
    rcases a.tearInto_outcome i key with ⟨e, log, hno⟩ | ⟨p, prev, -, -, hok⟩
    · rw [hno]
      exact hset rfl
    · rw [hok]
      show Copied a.size a (((a.cloneSubtree i).2.updateStore ((a.cloneSubtree i).2.node p).store
        fun s => s.insert key a.size).splice p prev i none) (a.cloneSources i)
      have hclone := copied_cloneSubtree ha (hslots i List.mem_cons_self)
      generalize (a.cloneSubtree i).2 = b at hclone ⊢
      have hentry : Copied a.size a
          (b.updateStore (b.node p).store fun s => s.insert key a.size) (a.cloneSources i) :=
        hclone.keeps rfl (Node.linkFree_mark.keeps rfl fun _ => rfl)
      exact hentry.keeps size_splice (Node.linkFree_mark.keeps size_splice fun _ => content_splice)
  | insert i position key =>
    rw [run, Outcome.arena_map, sources]
    rcases a.insert_outcome i position key with ⟨e, log, hno⟩ | ⟨stored, prev, htorn, -, hok⟩
    · rw [hno]
      exact hset rfl
    · rw [hok, htorn]
      show Copied a.size a ((a.cloneSubtree stored).2.linkAfter i prev a.size)
        (a.cloneSources stored)
      exact (copied_cloneSubtree ha (hstored i key stored htorn)).keeps size_linkAfter
        (Node.linkFree_mark.keeps size_linkAfter fun _ => content_linkAfter)
  | clone i => exact copied_cloneSubtree ha (hslots i List.mem_cons_self)
  | apply | transform | toAst => cases hedit

/-- The nodes that a command copies, each with its copy. -/
def copying (a : Arena) (c : Command) : List (NodeId × NodeId) :=
  (c.sources a).zipIdx a.size

/-- A step that makes a node does not copy one, and its copies have the tear stores of nodes that
were there. -/
theorem copying_run (ha : a.LinksBelow a.size)
    (hstored : ∀ i key, ∀ r ∈ a.torn? i key, r < a.size) (hc : IsStep a c) :
    (∀ e ∈ c.copying a, e.1 < a.size ∧ a.size ≤ e.2 ∧ e.2 < (c.run a).arena.size ∧
      ((c.run a).arena.node e.2).store = (a.node e.1).store) ∧
    ∀ x, a.size ≤ x → x < (c.run a).arena.size → x ∈ c.making a ∨ ∃ y, (y, x) ∈ c.copying a := by
  rcases stores_run (a := a) hc.1 with ⟨hno, -⟩ | ⟨hmake, -, -, hsize, -⟩ | ⟨t, hno, -⟩
  case inr.inl =>
    have hcopy : c.copying a = [] := by
      cases c <;> first | rfl | cases hmake
    refine ⟨by simp [hcopy], fun x hx hlt => .inl ?_⟩
    rw [hsize] at hlt
    rw [hmake, List.mem_singleton]
    exact Nat.le_antisymm (Nat.le_of_lt_succ hlt) hx
  all_goals
    have h := copied_run ha hstored hc hno
    refine ⟨fun e he => ?_, fun x hx hlt => .inr ?_⟩
    · obtain ⟨hle, hy⟩ := List.mk_mem_zipIdx_iff_le_and_getElem?_sub.mp he
      have hk := (List.getElem?_eq_some_iff.mp hy).1
      have hlt : e.2 < a.size + (c.sources a).length := (Nat.sub_lt_iff_lt_add' hle).mp hk
      refine ⟨h.lt _ (List.mem_of_getElem? hy), hle, h.size_eq ▸ hlt, ?_⟩
      have hmark := congrArg Prod.snd (h.mark_eq _ _ hy)
      rwa [Nat.add_sub_cancel' hle] at hmark
    · have hk : x - a.size < (c.sources a).length :=
        (Nat.sub_lt_iff_lt_add' hx).mpr (h.size_eq ▸ hlt)
      exact ⟨(c.sources a)[x - a.size], List.mk_mem_zipIdx_iff_le_and_getElem?_sub.mpr
        ⟨hx, List.getElem?_eq_getElem hk⟩⟩

end Command

end ParseTree
