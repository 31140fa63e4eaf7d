import ParseTree.Proofs.LooseLinks
import ParseTree.Proofs.StructureVerdicts

/-!
# Linking detached chains

Appending a child, setting a child and setting a sibling all hang a chain of siblings below a node.
They keep the children in front of it, all of them or none or those up to a sibling, and they leave
the others where they are. `rechained` says what becomes of every node, given the children that are
kept and the chain. The three primitives come to it in different ways: the chain is linked behind
the last child, or behind nothing, or behind the sibling itself.

The nodes of the chain must be *detached*. They may name a former parent, as nodes do that were left
behind by another such primitive, but no node in the trees at the chain may list them. Then the
trees at the chain and the tree around the node fit together: each node of them has kept its list,
but for the one node whose list has changed, and no node is in two lists.

## Main results

* `consistent_of_checkStructure`: what the check accepts.
* `Receives.node_addChild`, `Receives.node_setChild`, `Receives.node_setSibling`: what becomes of
  every node.
* `Receives.relisted`: the new list, and the check of the tree that has it.
* `Command.relisted_of_detached`: the three primitives.
-/

namespace ParseTree

namespace Arena

variable {a b : Arena} {r p q c n x : NodeId} {kept chain rest before after l : List NodeId}

/-! ## What the check accepts -/

theorem consistent_of_checkStructure (h : a.checkStructure r = .ok ()) : a.Consistent r := by
  have hcheck := a.checks_checkStructure r
  rw [h] at hcheck
  obtain ⟨below, htrees, hnd, -⟩ := hcheck.exists_trees
  exact htrees.consistent (List.nodup_cons.mpr ⟨htrees.root_not_mem hnd, hnd⟩)

namespace Consistent

theorem mem_children (h : a.Consistent r) (hq : a.Reached r q) : x ∈ a.children q ↔ a.Lists q x :=
  (h.childList q hq).lists_iff.symm

/-- The members of the lists of a tree are in the tree. -/
theorem reached_of_mem (h : a.Consistent r) (hq : a.Reached r q) (hx : x ∈ a.children q) :
    a.Reached r x :=
  hq.tail ((h.mem_children hq).mp hx)

/-- No node of the tree is in a list of its own. -/
theorem not_mem_children (h : a.Consistent r) (hq : a.Reached r q) : q ∉ a.children q := by
  induction hq with
  | refl => exact fun hr => h.not_listed r .refl ((h.mem_children .refl).mp hr)
  | @tail o q ho hoq ih =>
    intro hself
    have hparent : (a.node q).parent = some q := (h.childList q (ho.tail hoq)).parent q hself
    have hmem : q ∈ a.children o := (h.mem_children ho).mpr hoq
    obtain rfl : o = q := by
      have howner : (a.node q).parent = some o := (h.childList o ho).parent q hmem
      exact Option.some.inj (howner.symm.trans hparent)
    exact ih hmem

/-- No node of a tree is outside a set that has the root, and with every node its children. -/
theorem mem_of_closed (h : a.Consistent r) {s : List NodeId} (hr : r ∈ s)
    (hs : ∀ q ∈ s, ∀ x ∈ a.children q, x ∈ s) (hx : a.Reached r x) : x ∈ s := by
  induction hx with
  | refl => exact hr
  | @tail q x hq hqx ih => exact hs q ih x ((h.mem_children hq).mpr hqx)

end Consistent

/-! ## Detached chains -/

/-- **A chain of detached nodes**: siblings that follow one another to an end, with trees at them
that pass the check, and none of them is listed in these trees. Which parents they name is left
open. -/
structure Detached (a : Arena) (chain : List NodeId) : Prop where
  strung : a.Strung none chain
  lt_size : ∀ c ∈ chain, c < a.size
  checked : ∀ c ∈ chain, a.checkStructure c = .ok ()
  not_listed : ∀ c ∈ chain, ∀ d ∈ chain, ∀ q, a.Reached d q → ¬ a.Lists q c

theorem Detached.consistent (h : a.Detached chain) (hc : c ∈ chain) : a.Consistent c :=
  consistent_of_checkStructure (h.checked c hc)

/-- **Node `p` of the tree at `r` can receive a chain** behind the children `kept`, with which its
list begins: the chain is detached, and its trees are disjoint from the tree at `r`. -/
structure Receives (a : Arena) (r p : NodeId) (kept chain : List NodeId) : Prop where
  consistent : a.Consistent r
  reached : a.Reached r p
  lt_size : p < a.size
  detached : a.Detached chain
  apart : ∀ c ∈ chain, ∀ x, a.Reached c x → ¬ a.Reached r x
  exists_rest : ∃ rest, a.children p = kept ++ rest

/-- What becomes of node `x` when `chain` is linked below `p` behind `kept`. -/
def rechained (a : Arena) (p : NodeId) (kept chain : List NodeId) (x : NodeId) : Node :=
  if x = p then
    { a.node p with
      firstChild := (kept ++ chain).head?, lastChild := (kept ++ chain).getLast? }
  else if x ∈ chain then { a.node x with parent := some p }
  else if kept.getLast? = some x then { a.node x with nextSibling := chain.head? }
  else a.node x

theorem firstChild_rechained : (a.rechained p kept chain x).firstChild =
    if x = p then (kept ++ chain).head? else (a.node x).firstChild := by
  rw [rechained]
  grind

theorem lastChild_rechained : (a.rechained p kept chain x).lastChild =
    if x = p then (kept ++ chain).getLast? else (a.node x).lastChild := by
  rw [rechained]
  grind

namespace Receives

theorem not_mem_chain (h : a.Receives r p kept chain) (hx : a.Reached r x) : x ∉ chain :=
  fun hc => h.apart x hc x .refl hx

theorem mem_of_kept (h : a.Receives r p kept chain) (hx : x ∈ kept) : x ∈ a.children p := by
  obtain ⟨rest, hrest⟩ := h.exists_rest
  exact hrest ▸ List.mem_append_left _ hx

theorem not_mem_chain_of_kept (h : a.Receives r p kept chain) (hx : x ∈ kept) : x ∉ chain :=
  h.not_mem_chain (h.consistent.reached_of_mem h.reached (h.mem_of_kept hx))

theorem ne_of_kept (h : a.Receives r p kept chain) (hx : x ∈ kept) : x ≠ p := by
  rintro rfl
  exact h.consistent.not_mem_children h.reached (h.mem_of_kept hx)

/-! ## The three primitives -/

theorem chain_eq (h : a.Receives r p kept chain) : a.chain a.size chain.head? = chain :=
  h.detached.strung.chain_eq (length_le_size h.detached.strung.nodup h.detached.lt_size)

theorem node_setChild (h : a.Receives r p [] chain) (x : NodeId) :
    (a.setChild p chain.head?).node x = a.rechained p [] chain x := by
  have hlt := h.detached.lt_size
  have hp := h.lt_size
  have hpc := h.not_mem_chain h.reached
  simp only [setChild, h.chain_eq, node_update, node_adopt, size_adopt, rechained]
  grind

/-- The chain is the same when a child that is kept was redirected to it. -/
theorem chain_redirected (h : a.Receives r p kept chain) (hn : n ∈ kept) :
    (a.update n fun m => { m with nextSibling := chain.head? }).chain a.size chain.head? =
      chain := by
  have hstrung : (a.update n fun m => { m with nextSibling := chain.head? }).Strung none chain := by
    refine h.detached.strung.congr fun x hx => ?_
    have hne : x ≠ n := ne_of_mem_of_not_mem hx (h.not_mem_chain_of_kept hn)
    rw [node_update, if_neg fun hxn => hne hxn.1.symm]
  exact hstrung.chain_eq (length_le_size h.detached.strung.nodup h.detached.lt_size)

/-- The chain is linked behind the last of the children that are kept, and the list ends with it. -/
theorem node_redirected (h : a.Receives r p kept chain) (hn : kept.getLast? = some n) (x : NodeId) :
    (((a.update n fun m => { m with nextSibling := chain.head? }).adopt (some p) chain).update p
      fun m => { m with lastChild := (kept ++ chain).getLast? }).node x =
      a.rechained p kept chain x := by
  obtain ⟨rest, hrest⟩ := h.exists_rest
  have hmem : n ∈ kept := List.mem_of_getLast? hn
  have hne := h.ne_of_kept hmem
  have hfirst : (a.node p).firstChild = (kept ++ chain).head? := by
    rw [(h.consistent.childList p h.reached).firstChild, hrest]
    cases kept with
    | nil => simp at hmem
    | cons => rfl
  have hnlt : n < a.size := (h.consistent.childList p h.reached).lt_size (h.mem_of_kept hmem)
  have hlt := h.detached.lt_size
  have hp := h.lt_size
  have hpc := h.not_mem_chain h.reached
  have hnc := h.not_mem_chain_of_kept hmem
  simp only [node_update, node_adopt, size_adopt, size_update, rechained, ← hfirst]
  grind

theorem node_setSibling (h : a.Receives r p (before ++ [n]) chain) (x : NodeId) :
    (a.setSibling n chain.head?).node x = a.rechained p (before ++ [n]) chain x := by
  have hmem : n ∈ before ++ [n] := by simp
  have hparent : (a.node n).parent = some p :=
    (h.consistent.childList p h.reached).parent n (h.mem_of_kept hmem)
  have hlast : some (chain.getLastD n) = (before ++ [n] ++ chain).getLast? := by
    cases chain <;> simp [List.getLast?_cons]
  have heq := h.node_redirected (List.getLast?_concat ..) x
  simp only [setSibling, hparent, size_update, h.chain_redirected hmem, hlast]
  exact heq

theorem node_addChild (h : a.Receives r p (a.children p) chain) (hc : chain.head? = some c)
    (x : NodeId) : (a.addChild p c).node x = a.rechained p (a.children p) chain x := by
  have hlist := h.consistent.childList p h.reached
  rw [addChild, hlist.lastChild, ← hc]
  cases hn : (a.children p).getLast? with
  | none =>
    have hnil : a.children p = [] := List.getLast?_eq_none_iff.mp hn
    rw [hnil] at h ⊢
    exact h.node_setChild x
  | some n =>
    have hne : chain ≠ [] := by
      rintro rfl
      cases hc
    have heq := h.node_redirected hn x
    rw [List.getLast?_append_of_ne_nil _ hne] at heq
    simp only [size_update, h.chain_redirected (List.mem_of_getLast? hn)]
    exact heq

/-! ## The links afterwards -/

theorem parent_rechained (h : a.Receives r p kept chain) (x : NodeId) :
    (a.rechained p kept chain x).parent = if x ∈ chain then some p else (a.node x).parent := by
  have hpc := h.not_mem_chain h.reached
  rw [rechained]
  grind

theorem nextSibling_rechained (h : a.Receives r p kept chain) (x : NodeId) :
    (a.rechained p kept chain x).nextSibling =
      if kept.getLast? = some x then chain.head? else (a.node x).nextSibling := by
  have hlast : kept.getLast? = some x → x ≠ p ∧ x ∉ chain := by
    intro hx
    have hmem : x ∈ kept := List.mem_of_getLast? hx
    exact ⟨h.ne_of_kept hmem, h.not_mem_chain_of_kept hmem⟩
  rw [rechained]
  grind

section Links

variable (h : a.Receives r p kept chain) (hb : ∀ x, b.node x = a.rechained p kept chain x)
include h hb

/-- **The new list**: the children that are kept, and the chain behind them. -/
theorem isChildList : b.IsChildList p (kept ++ chain) := by
  obtain ⟨rest, hrest⟩ := h.exists_rest
  have hlist := h.consistent.childList p h.reached
  rw [hrest] at hlist
  have hnd : kept.Nodup := (List.nodup_append.mp hlist.nodup).1
  refine ⟨?_, strung_append.mpr ⟨?_, ?_⟩, ?_, fun x hx => ?_⟩
  · rw [hb, firstChild_rechained, if_pos rfl]
  · refine (strung_append.mp hlist.strung).1.retarget hnd (fun x _ hne => ?_) fun x hx => ?_
    · rw [hb, h.nextSibling_rechained, if_neg hne]
    · rw [hb, h.nextSibling_rechained, if_pos hx, Option.or_none]
  · refine h.detached.strung.congr fun x hx => ?_
    have hne : kept.getLast? ≠ some x := fun hlast =>
      h.not_mem_chain_of_kept (List.mem_of_getLast? hlast) hx
    rw [hb, h.nextSibling_rechained, if_neg hne]
  · rw [hb, lastChild_rechained, if_pos rfl]
  · rw [hb, h.parent_rechained]
    split
    · rfl
    · next hxc =>
      have hxk : x ∈ kept := (List.mem_append.mp hx).resolve_right hxc
      exact hlist.parent x (List.mem_append_left _ hxk)

end Links

/-! ## The trees around the list -/

/-- The trees whose nodes have lists: that at `r`, and those at the chain. -/
theorem childList (h : a.Receives r p kept chain) (hc : c ∈ r :: chain) (hq : a.Reached c q) :
    a.IsChildList q (a.children q) := by
  rcases List.mem_cons.mp hc with rfl | hc
  · exact h.consistent.childList q hq
  · exact (h.detached.consistent hc).childList q hq

theorem reached_of_mem (h : a.Receives r p kept chain) (hc : c ∈ r :: chain)
    (hq : a.Reached c q) (hx : x ∈ a.children q) : a.Reached c x :=
  hq.tail ((h.childList hc hq).lists_iff.mpr hx)

/-- The roots of these trees are in none of the lists. -/
theorem root_not_mem (h : a.Receives r p kept chain) (hc : c ∈ r :: chain) (hq : a.Reached c q)
    (hx : x ∈ r :: chain) : x ∉ a.children q := by
  intro hmem
  have hlists : a.Lists q x := (h.childList hc hq).lists_iff.mpr hmem
  have hreached := h.reached_of_mem hc hq hmem
  rcases List.mem_cons.mp hc with rfl | hc' <;> rcases List.mem_cons.mp hx with rfl | hx'
  · exact h.consistent.not_listed q hq hlists
  · exact h.not_mem_chain hreached hx'
  · exact h.apart c hc' x hreached .refl
  · exact h.detached.not_listed x hx' c hc' q hq hlists

section Trees

variable (h : a.Receives r p kept chain) (hb : ∀ x, b.node x = a.rechained p kept chain x)
include h hb

/-- **Every other list** of these trees has stayed as it was. -/
theorem isChildList_of_ne (hc : c ∈ r :: chain) (hq : a.Reached c q) (hqp : q ≠ p) :
    b.IsChildList q (a.children q) := by
  have hlist := h.childList hc hq
  refine hlist.congr ?_ ?_ (fun x hx => ?_) fun x hx => ?_
  · rw [hb, firstChild_rechained, if_neg hqp]
  · rw [hb, lastChild_rechained, if_neg hqp]
  · have hne : kept.getLast? ≠ some x := by
      intro hlast
      have hxp : x ∈ a.children p := h.mem_of_kept (List.mem_of_getLast? hlast)
      have hparent := (h.consistent.childList p h.reached).parent x hxp
      exact hqp (Option.some.inj ((hlist.parent x hx).symm.trans hparent))
    rw [hb, h.nextSibling_rechained, if_neg hne]
  · have hxc : x ∉ chain := fun hxc => h.root_not_mem hc hq (List.mem_cons_of_mem r hxc) hx
    rw [hb, h.parent_rechained, if_neg hxc]

/-- What is reached from `r` afterwards is in one of these trees. -/
theorem exists_reached (hx : b.Reached r x) : ∃ c ∈ r :: chain, a.Reached c x := by
  induction hx with
  | refl => exact ⟨r, List.mem_cons_self, .refl⟩
  | @tail q x _ hqx ih =>
    obtain ⟨c, hc, hq⟩ := ih
    by_cases hqp : q = p
    · subst hqp
      rcases List.mem_append.mp ((h.isChildList hb).lists_iff.mp hqx) with hx | hx
      · exact ⟨r, List.mem_cons_self, h.consistent.reached_of_mem h.reached (h.mem_of_kept hx)⟩
      · exact ⟨x, List.mem_cons_of_mem r hx, .refl⟩
    · have hmem := (h.isChildList_of_ne hb hc hq hqp).lists_iff.mp hqx
      exact ⟨c, hc, h.reached_of_mem hc hq hmem⟩

/-- **The tree that has the new list** has no violation. -/
theorem consistent_of_rechained : b.Consistent r := by
  suffices hall : ∀ q, b.Reached r q → b.IsChildList q (b.children q) ∧ r ∉ b.children q by
    refine ⟨fun q hq => (hall q hq).1, fun q hq hqr => ?_⟩
    obtain ⟨hlist, hr⟩ := hall q hq
    exact hr (hlist.lists_iff.mp hqr)
  intro q hq
  obtain ⟨c, hc, hq⟩ := h.exists_reached hb hq
  by_cases hqp : q = p
  · subst hqp
    have hlist := h.isChildList hb
    rw [hlist.eq_children, List.mem_append, not_or]
    refine ⟨hlist, fun hr => ?_, h.not_mem_chain .refl⟩
    exact h.root_not_mem List.mem_cons_self h.reached List.mem_cons_self (h.mem_of_kept hr)
  · have hlist := h.isChildList_of_ne hb hc hq hqp
    rw [hlist.eq_children]
    exact ⟨hlist, h.root_not_mem hc hq List.mem_cons_self⟩

end Trees

end Receives

/-! ## New lists -/

/-- **Node `p` has got the list `l`** in the tree at `r`, which passes the check. Other nodes of the
tree have kept their lists, and a child of `p` that is not in `l` has kept all its fields. -/
structure Relisted (a b : Arena) (r p : NodeId) (l : List NodeId) : Prop where
  children_eq : b.children p = l
  children_of_ne : ∀ q, a.Reached r q → q ≠ p → b.children q = a.children q
  checked : b.checkStructure r = .ok ()
  dropped : ∀ x ∈ a.children p, x ∉ l → b.node x = a.node x

theorem Receives.relisted (h : a.Receives r p kept chain)
    (hb : ∀ x, b.node x = a.rechained p kept chain x) : a.Relisted b r p (kept ++ chain) where
  children_eq := (h.isChildList hb).eq_children
  children_of_ne q hq hqp := (h.isChildList_of_ne hb List.mem_cons_self hq hqp).eq_children
  checked := (h.consistent_of_rechained hb).checkStructure_eq_ok
  dropped x hx hxl := by
    obtain ⟨hxk, hxc⟩ : x ∉ kept ∧ x ∉ chain := by simpa using hxl
    have hxp : x ≠ p := by
      rintro rfl
      exact h.consistent.not_mem_children h.reached hx
    have hlast : kept.getLast? ≠ some x := fun hlast => hxk (List.mem_of_getLast? hlast)
    rw [hb, rechained, if_neg hxp, if_neg hxc, if_neg hlast]

end Arena

namespace Command

open Arena

variable {a : Arena} {r p : NodeId} {chain : List NodeId}

/-- **Linking a detached chain.** Node `p` may be anywhere in a tree that passes the check, and the
chain and the trees at it are disjoint from that tree. Appending the chain puts it behind the
children of `p`, setting it as the child of `p` puts it in their place, and setting it as the
sibling of one of them puts it in the place of those behind that one. The tree passes the check
again, and the children that were dropped have kept all their fields. Without a chain, the list is
cut short accordingly, and appending does nothing. -/
theorem relisted_of_detached (hp : p < a.size) (hreached : a.Reached r p)
    (hok : a.checkStructure r = .ok ()) (hchain : a.Detached chain)
    (hapart : ∀ c ∈ chain, ∀ x, a.Reached c x → ¬ a.Reached r x) :
    a.Relisted ((Command.addChild p chain.head?).run a).arena r p (a.children p ++ chain) ∧
    a.Relisted ((Command.setChild p chain.head?).run a).arena r p chain ∧
    (∀ before n after, a.children p = before ++ n :: after →
      a.Relisted ((Command.setSibling n chain.head?).run a).arena r p (before ++ n :: chain)) ∧
    ((Command.addChild p none).run a).arena = a := by
  have hreceives {kept : List NodeId} (hkept : ∃ rest, a.children p = kept ++ rest) :
      a.Receives r p kept chain :=
    ⟨consistent_of_checkStructure hok, hreached, hp, hchain, hapart, hkept⟩
  have hall := hreceives ⟨[], (List.append_nil _).symm⟩
  have hnone := hreceives ⟨a.children p, (List.nil_append _).symm⟩
  refine ⟨?_, hnone.relisted hnone.node_setChild, fun before n after hsplit => ?_, rfl⟩
  · cases hc : chain.head? with
    | none =>
      obtain rfl : chain = [] := List.head?_eq_none_iff.mp hc
      exact ⟨(List.append_nil _).symm, fun _ _ _ => rfl, hok, fun _ _ _ => rfl⟩
    | some c => exact hall.relisted (hall.node_addChild hc)
  · have hbehind := hreceives ⟨after, hsplit.trans (List.append_cons ..)⟩
    rw [List.append_cons]
    exact hbehind.relisted hbehind.node_setSibling

/-- Node `q` with the children `u` and `w`, of which `u` has a child, and then without children.
Beside it there is node `p` with the children `x` and `y`. -/
def freed : Arena :=
  runAll [.make "r" .nonTerminal 0 0, .push 0 "p" .nonTerminal 0 0, .push 1 "x" .terminal 0 0,
    .push 1 "y" .terminal 0 0, .push 0 "q" .nonTerminal 0 0, .push 4 "u" .nonTerminal 0 0,
    .push 5 "v" .terminal 0 0, .push 4 "w" .terminal 0 0, .setChild 4 none] {}

theorem reached_freed {c x : NodeId} (hc : c ∈ [5, 7]) (hx : freed.Reached c x) :
    x ∈ [5, 6, 7] := by
  have hchecked : ∀ c ∈ [5, 7], freed.checkStructure c = .ok () := by decide
  have hmem : ∀ c ∈ [5, 7], c ∈ [5, 6, 7] := by decide
  exact (consistent_of_checkStructure (hchecked c hc)).mem_of_closed (hmem c hc) (by decide) hx

theorem detached_freed : freed.Detached [5, 7] where
  strung := by decide
  lt_size := by decide
  checked := by decide
  not_listed c hc d hd q hq hqc := by
    have hchecked : ∀ d ∈ [5, 7], freed.checkStructure d = .ok () := by decide
    have hmem := ((consistent_of_checkStructure (hchecked d hd)).mem_children hq).mpr hqc
    have hnone : ∀ q ∈ [5, 6, 7], ∀ c ∈ [5, 7], c ∉ freed.children q := by decide
    exact hnone q (reached_freed hd hq) c hc hmem

/-- The nodes `u` and `w` still name `q` as their parent, and are linked below `p`. -/
theorem relisted_freed :
    1 < freed.size ∧ freed.Reached 0 1 ∧ freed.checkStructure 0 = .ok () ∧
      freed.Detached [5, 7] ∧ (∀ c ∈ [5, 7], ∀ x, freed.Reached c x → ¬ freed.Reached 0 x) ∧
      freed.Relisted ((Command.addChild 1 (some 5)).run freed).arena 0 1 [2, 3, 5, 7] ∧
      freed.Relisted ((Command.setChild 1 (some 5)).run freed).arena 0 1 [5, 7] ∧
      freed.Relisted ((Command.setSibling 2 (some 5)).run freed).arena 0 1 [2, 5, 7] := by
  have hlt : 1 < freed.size := by decide
  have hok : freed.checkStructure 0 = .ok () := by decide
  have hreached : freed.Reached 0 1 := .single (.first (by decide))
  have hapart : ∀ c ∈ [5, 7], ∀ x, freed.Reached c x → ¬ freed.Reached 0 x := by
    intro c hc x hx hroot
    have hmem : x ∈ [0, 1, 2, 3, 4] :=
      (consistent_of_checkStructure hok).mem_of_closed (by decide) (by decide) hroot
    exact (by decide : ∀ x ∈ [5, 6, 7], x ∉ [0, 1, 2, 3, 4]) x (reached_freed hc hx) hmem
  have hchildren : freed.children 1 = [] ++ 2 :: [3] := by decide
  obtain ⟨hadd, hset, hsibling, -⟩ := relisted_of_detached hlt hreached hok detached_freed hapart
  rw [hchildren] at hadd
  exact ⟨hlt, hreached, hok, detached_freed, hapart, hadd, hset, hsibling [] 2 [3] hchildren⟩

end Command

end ParseTree
