import ParseTree.Proofs.Contents
import ParseTree.Proofs.Roses

/-!
# A clone is the same tree

A clone is made of new nodes, and each of them is the copy of an old one. `Copying` follows the work
on a clone. It knows for every new node which node it is a copy of, and which of the children of
that node are still to be copied; these are none, all of them for a node on the stack, or an end of
the list for the node that is being worked on. When the stack is empty nothing is left to be copied,
and so new nodes and old ones match level by level.

Slots are handed out in order, so that the list of the nodes that are copied, `cloneSources`, says
which node each new node is a copy of.

## Main results

* `Copying.copy`, `Copying.copyChildren`, `Copying.copyPending`: one node is copied, the children of
  a node, and all that is on the stack.
* `Linked.exists_copying`: the clone and `cloneSources` match.
* `Linked.rose_cloneSubtree`: the clone has the rose of the subtree.
-/

namespace ParseTree

theorem Node.linkFree_face : LinkFree Node.face :=
  fun _ => rfl

theorem Node.linkFree_mark : LinkFree Node.mark :=
  fun _ => rfl

namespace Arena

variable {a b : Arena} {i k p : NodeId} {here l : List NodeId} {stack : List (NodeId × NodeId)}
  {src : NodeId → NodeId} {todo : NodeId → List NodeId} {n : Nat}

/-! ## The nodes that a clone is made from -/

/-- The nodes that are copied while at most `n` nodes are taken off the stack, in order. -/
def pendingSources : Nat → List (NodeId × NodeId) → Arena → List NodeId
  | 0, _, _ => []
  | _ + 1, [], _ => []
  | n + 1, (i, c) :: stack, a =>
    let r := copyChildren c (a.children i) stack a
    a.children i ++ pendingSources n r.1 r.2

/-- The nodes that are copied when the subtree at `i` is cloned, in order. -/
def cloneSources (a : Arena) (i : NodeId) : List NodeId :=
  i :: pendingSources (a.countNodes i) [(i, a.size)] (a.copy i).2

theorem size_copyChildren (p : NodeId) (l : List NodeId) (stack : List (NodeId × NodeId))
    (a : Arena) : (Arena.copyChildren p l stack a).2.size = a.size + l.length := by
  induction l generalizing a stack with
  | nil => rfl
  | cons i l ih =>
    rw [copyChildren_cons, ih, size_addChild, size_copy, List.length_cons]
    omega

/-! ## The work on a clone -/

/-- A copy is appended to the children of `p`, and no other list changes. -/
theorem Linked.children_addChild_copy (h : b.Linked) (hp : p < b.size) (k : NodeId) :
    ((b.copy k).2.addChild p b.size).children =
      Function.update b.children p (b.children p ++ [b.size]) := by
  obtain ⟨hcopy, hkids⟩ := h.of_sameLinks (sameLinks_copy b k)
  obtain ⟨hroot, hout⟩ := h.fresh (sameLinks_copy b k) hp
  have hlt : b.size < (b.copy k).2.size := by simp
  rw [(hcopy.addChild (Nat.lt_trans hp hlt) hlt hroot hout).2, hkids]

/-- **The work on a clone** of the subtree at `i` of `a` has led to `b`. Node `src c` is the one
that the new node `c` is a copy of, and `todo c` are those of its children that have no copy yet.
The nodes of `here` and those on the stack may have some left. -/
structure Copying (a : Arena) (i : NodeId) (b : Arena) (here : List NodeId)
    (stack : List (NodeId × NodeId)) (src : NodeId → NodeId) (todo : NodeId → List NodeId) :
    Prop where
  extension : a.Extension b
  src_root : src a.size = i
  mark : ∀ c, a.size ≤ c → c < b.size →
    src c < a.size ∧ (b.node c).mark = (a.node (src c)).mark
  children_eq : ∀ c, a.size ≤ c → c < b.size →
    (b.children c).map src ++ todo c = a.children (src c)
  of_mem : ∀ e ∈ stack, a.size ≤ e.2 ∧ e.2 < b.size ∧ src e.2 = e.1 ∧ todo e.2 = a.children e.1
  mem_of_todo : ∀ c, a.size ≤ c → c < b.size → todo c ≠ [] → c ∈ here ++ stack.map Prod.snd
  nodup : (here ++ stack.map Prod.snd).Nodup

/-- The stack after the new node `c` was made a copy of `k`, which is pushed if it has children. -/
def pushCopy (k c : NodeId) (kids : List NodeId) (stack : List (NodeId × NodeId)) :
    List (NodeId × NodeId) :=
  if kids.head?.isSome then (k, c) :: stack else stack

theorem mem_map_snd_pushCopy {c x : NodeId} {kids : List NodeId} :
    x ∈ here ++ (pushCopy k c kids stack).map Prod.snd ↔
      x ∈ here ∨ kids ≠ [] ∧ x = c ∨ x ∈ stack.map Prod.snd := by
  unfold pushCopy
  cases kids <;> simp

theorem nodup_pushCopy {c : NodeId} {kids : List NodeId}
    (h : ([p] ++ stack.map Prod.snd).Nodup) (hp : p < c) (hlt : ∀ e ∈ stack, e.2 < c) :
    ([p] ++ (pushCopy k c kids stack).map Prod.snd).Nodup := by
  unfold pushCopy
  split
  · have hc : c ∉ stack.map Prod.snd := by
      intro hmem
      obtain ⟨e, he, rfl⟩ := List.mem_map.mp hmem
      exact Nat.lt_irrefl _ (hlt e he)
    have hpc : p ≠ c := Nat.ne_of_lt hp
    simp_all
  · exact h

namespace Copying

theorem ne_of_mem (h : a.Copying i b (p :: here) stack src todo) {e : NodeId × NodeId}
    (he : e ∈ stack) : e.2 ≠ p := by
  have hnd := (List.nodup_cons.mp h.nodup).1
  rintro rfl
  exact hnd (List.mem_append_right _ (List.mem_map_of_mem he))

/-- **One node is copied**, the next one that the copy `p` lacks. -/
theorem copy (ha : a.Linked) (h : a.Copying i b [p] stack src todo) (hp : a.size ≤ p)
    (hpb : p < b.size) (htodo : todo p = k :: l) :
    a.Copying i ((b.copy k).2.addChild p b.size) [p] (pushCopy k b.size (a.children k) stack)
      (Function.update src b.size k)
      (Function.update (Function.update todo p l) b.size (a.children k)) := by
  have hk : k < a.size := by
    refine ha.lt_size_of_mem (p := src p) ?_
    rw [← h.children_eq p hp hpb, htodo]
    simp
  have hext : a.Extension ((b.copy k).2.addChild p b.size) :=
    h.extension.addChild_copy ha hp hpb k
  have hkids := h.extension.linked.children_addChild_copy hpb k
  have hsize : ((b.copy k).2.addChild p b.size).size = b.size + 1 := by simp
  have hmark (c : NodeId) : (((b.copy k).2.addChild p b.size).node c).mark =
      if c = b.size then (a.node k).mark else (b.node c).mark := by
    rw [Node.linkFree_mark.eq_of_content content_addChild, node_copy, h.extension.node_eq k hk]
    split <;> rfl
  generalize (b.copy k).2.addChild p b.size = d at hext hkids hsize hmark ⊢
  have hold {c : NodeId} (hc : c < b.size) : c ≠ b.size := Nat.ne_of_lt hc
  have hsrc (c : NodeId) : (b.children c).map (Function.update src b.size k) =
      (b.children c).map src :=
    List.map_congr_left fun x hx =>
      Function.update_of_ne (hold (h.extension.linked.lt_size_of_mem hx)) ..
  have hpush {e : NodeId × NodeId} (he : e ∈ pushCopy k b.size (a.children k) stack) :
      e = (k, b.size) ∨ e ∈ stack := by
    unfold pushCopy at he
    grind
  refine ⟨hext, ?_, fun c hc hcd => ?_, fun c hc hcd => ?_, fun e he => ?_, fun c hc hcd hne => ?_,
    ?_⟩
  · rw [Function.update_of_ne (hold h.extension.size_lt), h.src_root]
  · rw [hmark]
    by_cases hcb : c = b.size
    · rw [if_pos hcb, hcb, Function.update_self]
      exact ⟨hk, rfl⟩
    · rw [if_neg hcb, Function.update_of_ne hcb]
      exact h.mark c hc (by omega)
  · by_cases hcb : c = b.size
    · rw [hcb, hkids, Function.update_of_ne (hold hpb).symm, Function.update_self,
        Function.update_self, h.extension.linked.children_eq_nil (Nat.le_refl _)]
      rfl
    · rw [hkids, Function.update_of_ne hcb, Function.update_of_ne hcb,
        ← h.children_eq c hc (by omega)]
      by_cases hcp : c = p
      · subst hcp
        rw [Function.update_self, Function.update_self, List.map_append, hsrc, htodo]
        simp
      · rw [Function.update_of_ne hcp, Function.update_of_ne hcp, hsrc]
  · rcases hpush he with rfl | he
    · exact ⟨Nat.le_of_lt h.extension.size_lt, hsize ▸ Nat.lt_succ_self _,
        Function.update_self .., Function.update_self ..⟩
    · obtain ⟨hnew, hlt, hes, het⟩ := h.of_mem e he
      refine ⟨hnew, hsize ▸ Nat.lt_succ_of_lt hlt, ?_, ?_⟩
      · rw [Function.update_of_ne (hold hlt), hes]
      · rw [Function.update_of_ne (hold hlt), Function.update_of_ne (h.ne_of_mem he), het]
  · rw [mem_map_snd_pushCopy]
    by_cases hcb : c = b.size
    · rw [hcb, Function.update_self] at hne
      exact .inr (.inl ⟨hne, hcb⟩)
    · rw [Function.update_of_ne hcb] at hne
      by_cases hcp : c = p
      · exact .inl (by simp [hcp])
      · rw [Function.update_of_ne hcp] at hne
        have hmem := h.mem_of_todo c hc (by omega) hne
        exact (List.mem_append.mp hmem).imp_right .inr
  · exact nodup_pushCopy h.nodup hpb fun e he => (h.of_mem e he).2.1

/-- **The children of a node are copied** below its copy `p`, which then lacks nothing. -/
theorem copyChildren (ha : a.Linked) (h : a.Copying i b [p] stack src todo) (hp : a.size ≤ p)
    (hpb : p < b.size) (htodo : todo p = l) :
    ∃ src' todo', a.Copying i (copyChildren p l stack b).2 [] (copyChildren p l stack b).1
      src' todo' ∧ (∀ c < b.size, src' c = src c) ∧
        ∀ n y, l[n]? = some y → src' (b.size + n) = y := by
  induction l generalizing b stack src todo with
  | nil =>
    refine ⟨src, todo, { h with mem_of_todo := fun c hc hcb hne => ?_, nodup := ?_ },
      fun _ _ => rfl, by simp⟩
    · have hcp : c ≠ p := fun hcp => hne (hcp ▸ htodo)
      have hmem := h.mem_of_todo c hc hcb hne
      exact (List.mem_cons.mp hmem).resolve_left hcp
    · exact (List.nodup_cons.mp h.nodup).2
  | cons k l ih =>
    have hstep := h.copy ha hp hpb htodo
    have hk : (((b.copy k).2.addChild p b.size).node k).firstChild = (a.children k).head? := by
      have hlt : k < a.size := by
        refine ha.lt_size_of_mem (p := src p) ?_
        rw [← h.children_eq p hp hpb, htodo]
        simp
      rw [hstep.extension.node_eq k hlt, (ha.childList k).firstChild]
    have hsize : ((b.copy k).2.addChild p b.size).size = b.size + 1 := by simp
    rw [copyChildren_cons]
    dsimp only
    rw [hk]
    have hrest : Function.update (Function.update todo p l) b.size (a.children k) p = l := by
      rw [Function.update_of_ne (Nat.ne_of_lt hpb), Function.update_self]
    obtain ⟨src', todo', hdone, hold, hnew⟩ := ih hstep (hsize ▸ Nat.lt_succ_of_lt hpb) hrest
    rw [hsize] at hold hnew
    refine ⟨src', todo', hdone, fun c hc => ?_, fun n y hy => ?_⟩
    · rw [hold c (Nat.lt_succ_of_lt hc), Function.update_of_ne (Nat.ne_of_lt hc)]
    · cases n with
      | zero =>
        obtain rfl : k = y := by simpa using hy
        exact (hold b.size (Nat.lt_succ_self _)).trans (Function.update_self ..)
      | succ n =>
        rw [← hnew n y (by simpa using hy), Nat.succ_add_eq_add_succ]

theorem copiesFromOld (h : a.Copying i b here stack src todo) : a.CopiesFromOld stack := by
  intro e he
  obtain ⟨hnew, hlt, hsrc, -⟩ := h.of_mem e he
  exact hsrc ▸ (h.mark e.2 hnew hlt).1

/-- **All that is on the stack is copied**, if there are rounds enough. -/
theorem copyPending (ha : a.Linked) (h : a.Copying i b [] stack src todo)
    (hn : a.pendingSize stack ≤ n) :
    ∃ src' todo', a.Copying i (copyPending n stack b) [] [] src' todo' ∧
      (∀ c < b.size, src' c = src c) ∧
        ∀ k y, (pendingSources n stack b)[k]? = some y → src' (b.size + k) = y := by
  induction n generalizing b stack src todo with
  | zero =>
    cases stack with
    | nil => exact ⟨src, todo, h, fun _ _ => rfl, by simp [pendingSources]⟩
    | cons e stack =>
      have hpos := ha.countNodes_eq e.1
      simp only [pendingSize, List.map_cons, List.sum_cons] at hn
      omega
  | succ n ih =>
    cases stack with
    | nil => exact ⟨src, todo, h, fun _ _ => rfl, by simp [pendingSources]⟩
    | cons e stack =>
      obtain ⟨s, c⟩ := e
      obtain ⟨hc, hcb, -, htodo⟩ := h.of_mem (s, c) List.mem_cons_self
      have hs : s < a.size := h.copiesFromOld (s, c) List.mem_cons_self
      have hkids : b.children s = a.children s := h.extension.children_eq ha hs
      have hhere : a.Copying i b [c] stack src todo :=
        { h with of_mem := fun e he => h.of_mem e (List.mem_cons_of_mem _ he) }
      obtain ⟨src₁, todo₁, hdone, hold, hnew⟩ :=
        hhere.copyChildren ha hc hcb (htodo.trans hkids.symm)
      have hslots : ∀ k ∈ b.children s, k < a.size := by
        rw [hkids]
        exact fun k hk => ha.lt_size_of_mem hk
      obtain ⟨-, hsize⟩ := copiesFromOld_copyChildren hslots hhere.copiesFromOld c b
      have hpos := ha.countNodes_eq s
      simp only [pendingSize, List.map_cons, List.sum_cons] at hn
      have hrest : a.pendingSize (Arena.copyChildren c (b.children s) stack b).1 ≤ n := by
        rw [hkids] at hsize ⊢
        unfold pendingSize at hsize ⊢
        omega
      obtain ⟨src', todo', hall, hold', hnew'⟩ := ih hdone hrest
      rw [size_copyChildren] at hold' hnew'
      refine ⟨src', todo', hall, fun x hx => ?_, fun k y hy => ?_⟩
      · rw [hold' x (Nat.lt_add_right _ hx), hold x hx]
      · rw [pendingSources] at hy
        rcases Nat.lt_or_ge k (b.children s).length with hk | hk
        · rw [List.getElem?_append_left hk] at hy
          rw [hold' _ (Nat.add_lt_add_left hk _), hnew k y hy]
        · rw [List.getElem?_append_right hk] at hy
          rw [← hnew' _ y hy, Nat.add_assoc, Nat.add_sub_cancel' hk]

end Copying

/-- In the end, every node of the clone is the copy of an old node and lacks nothing. -/
theorem Linked.exists_copying (h : a.Linked) (hi : i < a.size) :
    ∃ src, a.Copying i (a.cloneSubtree i).2 [] [] src (fun _ => []) ∧
      ∀ k y, (a.cloneSources i)[k]? = some y → src (a.size + k) = y := by
  have hcopy := h.extension_copy i
  have hstart : a.Copying i (a.copy i).2 [] [(i, a.size)] (fun _ => i) (fun _ => a.children i) := by
    have hnew {c : NodeId} (hc : a.size ≤ c) (hlt : c < (a.copy i).2.size) : c = a.size := by
      rw [size_copy] at hlt
      exact Nat.le_antisymm (Nat.lt_succ_iff.mp hlt) hc
    refine ⟨hcopy, rfl, fun c hc hlt => ?_, fun c hc hlt => ?_, fun e he => ?_,
      fun c hc hlt _ => ?_, by simp⟩
    · rw [hnew hc hlt, node_copy, if_pos rfl]
      exact ⟨hi, rfl⟩
    · rw [hnew hc hlt, (h.of_sameLinks (sameLinks_copy a i)).2, h.children_eq_nil (Nat.le_refl _)]
      rfl
    · obtain rfl : e = (i, a.size) := List.mem_singleton.mp he
      exact ⟨Nat.le_refl _, hcopy.size_lt, rfl, rfl⟩
    · rw [hnew hc hlt]
      exact List.mem_singleton_self _
  obtain ⟨src, todo, hdone, hold, hnew⟩ :=
    hstart.copyPending h (n := a.countNodes i) (by simp [pendingSize])
  refine ⟨src, { hdone with children_eq := fun c hc hlt => ?_, mem_of_todo := by simp,
                            of_mem := by simp }, fun k y hy => ?_⟩
  · have htodo : todo c = [] := by
      by_contra hne
      exact List.not_mem_nil (hdone.mem_of_todo c hc hlt hne)
    rw [← hdone.children_eq c hc hlt, htodo]
    rfl
  · rw [size_copy] at hold hnew
    cases k with
    | zero =>
      obtain rfl : i = y := by simpa [cloneSources] using hy
      exact hold a.size (Nat.lt_succ_self _)
    | succ k =>
      rw [← hnew k y (by simpa [cloneSources] using hy), Nat.succ_add_eq_add_succ]

/-- **The clone of a subtree is the same tree**: its nodes have the marks of those that they are
copies of, in the shape of the subtree. -/
theorem Linked.rose_cloneSubtree (h : a.Linked) (hi : i < a.size) :
    (a.cloneSubtree i).2.rose Node.mark a.size = a.rose Node.mark i := by
  obtain ⟨src, hdone, -⟩ := h.exists_copying hi
  generalize (a.cloneSubtree i).2 = b at hdone
  have hext := hdone.extension
  refine hext.linked.rose_eq_of_matching h (S := fun c x => a.size ≤ c ∧ c < b.size ∧ src c = x) ?_
    ?_ ⟨Nat.le_refl _, hext.size_lt, hdone.src_root⟩
  · rintro c _ ⟨hc, hlt, rfl⟩
    exact (hdone.mark c hc hlt).2
  · rintro c _ ⟨hc, hlt, rfl⟩
    rw [← hdone.children_eq c hc hlt, List.append_nil, List.forall₂_map_right_iff,
      List.forall₂_same]
    exact fun x hx => ⟨hext.size_le_of_mem h hc hx, hext.linked.lt_size_of_mem hx, rfl⟩

end Arena

end ParseTree
