import Mathlib.Data.List.Flatten
import ParseTree.Arena.Traversal
import ParseTree.Proofs.Postorder

/-!
# Pre-order lists

A traversal follows links from where it stands and keeps no stack. On a linked arena it still enters
and leaves the nodes of a subtree in the order of the recursive description, `bracket`: a node is
entered, then its subtrees are traversed one after the other, then it is left. It never gets out of
the subtree, since it stops when the start is left.

The nodes that are entered make up the pre-order list, `subtree`.

Traversals are lazy, and the bound on the visits of `descendants` comes from the number of nodes
that are asked for. That it is bound enough is a fact about brackets: of the visits in front of any
place at least every other one enters a node, since a node is not left before it was entered.

## Main results

* `Linked.bracket_eq`, `Linked.subtree_eq`: the recursive equations.
* `Linked.mem_subtree`: the list has the nodes of the subtree.
* `Linked.preorder_eq_take`, `Linked.descendants_eq_take`: traversals follow the description, for as
  long as they are followed.
-/

namespace ParseTree

namespace Arena

variable {a : Arena} {i start x : NodeId} {l : List NodeId} {m n : Nat}

/-- The visits to the nodes at most `n` levels deep in the subtree at `i`. -/
def bracketWithin (a : Arena) : Nat → NodeId → List Visit
  | 0, _ => []
  | n + 1, i => .enter i :: ((a.children i).flatMap (a.bracketWithin n) ++ [.leave i])

/-- The visits to the nodes of the subtree at `i`. -/
def bracket (a : Arena) (i : NodeId) : List Visit :=
  a.bracketWithin (a.size + 1) i

/-- The nodes of the subtree at `i`, parents before children and from left to right. -/
def subtree (a : Arena) (i : NodeId) : List NodeId :=
  (a.bracket i).filterMap Visit.entered?

/-- What a longer traversal begins with. -/
theorem take_visitsFrom {next : Option Visit} (hmn : m ≤ n) :
    (a.visitsFrom start n next).take m = a.visitsFrom start m next := by
  induction m generalizing n next with
  | zero => simp
  | succ m ih =>
    obtain ⟨n, rfl⟩ : ∃ k, n = k + 1 := ⟨n - 1, by omega⟩
    cases next with
    | none => simp
    | some v => rw [visitsFrom_some, visitsFrom_some, List.take_succ_cons, ih (by omega)]

namespace Linked

/-! ## The recursive equations -/

theorem bracketWithin_eq (h : a.Linked) (hm : a.weight i < m) (hn : a.weight i < n) :
    a.bracketWithin m i = a.bracketWithin n i := by
  induction m generalizing i n with
  | zero => exact absurd hm (Nat.not_lt_zero _)
  | succ m ih =>
    cases n with
    | zero => exact absurd hn (Nat.not_lt_zero _)
    | succ n =>
      have hkids : (a.children i).flatMap (a.bracketWithin m) =
          (a.children i).flatMap (a.bracketWithin n) := by
        refine List.flatMap_congr fun c hc => ?_
        have hlt : a.weight c < a.weight i := h.weight_lt_of_parent (h.mem_children.mp hc)
        exact ih (by omega) (by omega)
      rw [bracketWithin, bracketWithin, hkids]

open Classical in
theorem weight_le_size (a : Arena) (i : NodeId) : a.weight i ≤ a.size := by
  have hcard := Finset.card_filter_le (Finset.range a.size) fun j => a.Below j i
  rwa [Finset.card_range] at hcard

/-- **The recursive equation** of the visits. -/
theorem bracket_eq (h : a.Linked) (i : NodeId) :
    a.bracket i = .enter i :: ((a.children i).flatMap a.bracket ++ [.leave i]) := by
  have hle : a.weight i ≤ a.size := weight_le_size a i
  rw [bracket, h.bracketWithin_eq (Nat.lt_succ_of_le hle)
    (Nat.lt_succ_of_le (Nat.le_succ_of_le hle)), bracketWithin]
  rfl

/-- **The recursive equation** of the list: first the node, then the subtrees of the children. -/
theorem subtree_eq (h : a.Linked) (i : NodeId) :
    a.subtree i = i :: (a.children i).flatMap a.subtree := by
  have hkids : ((a.children i).flatMap a.bracket).filterMap Visit.entered? =
      (a.children i).flatMap a.subtree := List.filterMap_flatMap ..
  rw [subtree, h.bracket_eq, List.filterMap_cons, Visit.entered?, List.filterMap_append, hkids]
  exact congrArg _ (List.append_nil _)

theorem mem_subtree (h : a.Linked) : x ∈ a.subtree i ↔ a.Within x i := by
  induction i using h.induction_down generalizing x with
  | _ i ih =>
    rw [h.subtree_eq, List.mem_cons, List.mem_flatMap, within_iff, h.below_iff_exists_child]
    refine or_congr_right (exists_congr fun c => and_congr_right fun hc => ih c hc)

/-- Both orders list the same nodes. -/
theorem subtree_perm_postorder (h : a.Linked) (hi : i < a.size) :
    (a.subtree i).Perm (a.postorder i) := by
  induction i using h.induction_down with
  | _ i ih =>
    rw [h.subtree_eq, h.postorder_eq hi, postorderBelow]
    refine .trans ?_ (List.perm_append_singleton i _).symm
    exact .cons i (List.Perm.flatMap_left _ fun c hc => ih c hc (h.lt_size_of_mem hc))

theorem nodup_subtree (h : a.Linked) (hi : i < a.size) : (a.subtree i).Nodup :=
  (h.subtree_perm_postorder hi).nodup_iff.mpr ((h.pairwise_postorder hi).imp And.left)

theorem length_subtree_le (h : a.Linked) (hi : i < a.size) : (a.subtree i).length ≤ a.size := by
  refine length_le_size (h.nodup_subtree hi) fun x hx => ?_
  rcases within_iff.mp (h.mem_subtree.mp hx) with rfl | hx
  · exact hi
  · exact hx.lt_size

/-! ## Traversals -/

/-- Behind a child comes the next one, and behind the last one their parent is left. -/
theorem visitAfter_leave (h : a.Linked) (hs : ¬ a.Below start i) {before : List NodeId}
    {c : NodeId} (hl : a.children i = before ++ c :: l) :
    a.visitAfter start (.leave c) = some (l.head?.elim (.leave i) .enter) := by
  have hci : (a.node c).parent = some i := h.parent_eq hl
  have hne : c ≠ start := by
    rintro rfl
    exact hs (.of_parent hci)
  rw [visitAfter, if_neg hne, h.nextSibling_eq hl, hci]
  cases l.head? <;> rfl

/-- **Children are traversed one after the other** if each of them is traversed as described, and
then their parent is left. -/
theorem visitsFrom_children (h : a.Linked) (hs : ¬ a.Below start i)
    (hkids : ∀ c ∈ a.children i, ∀ n,
      a.visitsFrom start ((a.bracket c).length + n) (some (.enter c)) =
        a.bracket c ++ a.visitsFrom start n (a.visitAfter start (.leave c)))
    {before : List NodeId} {c : NodeId} (hl : a.children i = before ++ c :: l) (n : Nat) :
    a.visitsFrom start (((c :: l).flatMap a.bracket).length + (n + 1)) (some (.enter c)) =
      (c :: l).flatMap a.bracket ++
        .leave i :: a.visitsFrom start n (a.visitAfter start (.leave i)) := by
  induction l generalizing before c with
  | nil =>
    rw [List.flatMap_singleton, hkids c (by simp [hl]), h.visitAfter_leave hs hl]
    exact congrArg _ (visitsFrom_some ..)
  | cons d l ih =>
    have hlength : ((c :: d :: l).flatMap a.bracket).length + (n + 1) =
        (a.bracket c).length + (((d :: l).flatMap a.bracket).length + (n + 1)) := by
      rw [List.flatMap_cons, List.length_append, Nat.add_assoc]
    have hnext : a.children i = (before ++ [c]) ++ d :: l := by rw [hl, List.append_cons]
    have hrest := ih hnext
    rw [hlength, hkids c (by simp [hl]), h.visitAfter_leave hs hl]
    rw [List.flatMap_cons (x := c), List.append_assoc]
    exact congrArg _ hrest

/-- **A traversal follows the recursive description** of every subtree that does not contain its
start below the root. -/
theorem visitsFrom_bracket (h : a.Linked) (hs : ¬ a.Below start i) (n : Nat) :
    a.visitsFrom start ((a.bracket i).length + n) (some (.enter i)) =
      a.bracket i ++ a.visitsFrom start n (a.visitAfter start (.leave i)) := by
  induction i using h.induction_down generalizing n with
  | _ i ih =>
    have hfirst := (h.childList i).firstChild
    cases hl : a.children i with
    | nil =>
      rw [hl, List.head?_nil] at hfirst
      rw [h.bracket_eq, hl]
      show a.visitsFrom start (2 + n) _ = _
      rw [Nat.add_comm, visitsFrom_some, visitAfter, hfirst, visitsFrom_some]
      rfl
    | cons c l =>
      rw [hl, List.head?_cons] at hfirst
      have hkids := h.visitsFrom_children hs (fun c hc n => ih c hc (fun hsc => hs ?_) n)
        (show a.children i = [] ++ c :: l from hl) n
      · have hlength : (a.bracket i).length + n =
            ((c :: l).flatMap a.bracket).length + (n + 1) + 1 := by
          rw [h.bracket_eq, hl]
          simp only [List.length_cons, List.length_append, List.length_nil]
          omega
        rw [hlength, visitsFrom_some, visitAfter, hfirst, hkids, h.bracket_eq, hl]
        simp
      · exact hsc.trans (.of_parent (h.mem_children.mp hc))

theorem preorder_eq_bracket (h : a.Linked) (hn : (a.bracket i).length ≤ n) :
    a.preorder i n = a.bracket i := by
  obtain ⟨k, rfl⟩ := Nat.exists_eq_add_of_le hn
  rw [preorder, h.visitsFrom_bracket (h.acyclic i), visitAfter, if_pos rfl, visitsFrom_none,
    List.append_nil]

/-- **The first visits of a traversal** are those of the description, and when it is through, the
traversal ends. -/
theorem preorder_eq_take (h : a.Linked) (i : NodeId) (n : Nat) :
    a.preorder i n = (a.bracket i).take n := by
  rcases Nat.le_total n (a.bracket i).length with hn | hn
  · rw [← h.preorder_eq_bracket (Nat.le_refl _)]
    exact (take_visitsFrom hn).symm
  · rw [h.preorder_eq_bracket hn, List.take_of_length_le hn]

end Linked

/-! ## Nodes are entered before they are left -/

/-- In front of any place in the list, at least every other visit enters a node. -/
def EntersFirst (l : List Visit) : Prop :=
  ∀ n, min n l.length ≤ 2 * ((l.take n).filterMap Visit.entered?).length

section EntersFirst

variable {u v : List Visit} {limit : Nat}

theorem entersFirst_nil : EntersFirst [] := by
  simp [EntersFirst]

theorem EntersFirst.append (hu : EntersFirst u) (hv : EntersFirst v) : EntersFirst (u ++ v) := by
  intro n
  have hfront := hu n
  have hback := hv (n - u.length)
  rw [List.take_append, List.filterMap_append, List.length_append, List.length_append]
  omega

theorem entersFirst_flatMap {α : Type} {xs : List α} {g : α → List Visit}
    (h : ∀ x ∈ xs, EntersFirst (g x)) : EntersFirst (xs.flatMap g) := by
  induction xs with
  | nil => exact entersFirst_nil
  | cons x xs ih =>
    rw [List.flatMap_cons]
    exact (h x List.mem_cons_self).append (ih fun y hy => h y (List.mem_cons_of_mem _ hy))

/-- A node that is entered in front may be left at the end. -/
theorem EntersFirst.enclose (hv : EntersFirst v) (i : NodeId) :
    EntersFirst (.enter i :: (v ++ [.leave i])) := by
  intro n
  cases n with
  | zero => simp
  | succ n =>
    have hinner := hv n
    rw [List.take_succ_cons, List.filterMap_cons, Visit.entered?, List.take_append,
      List.filterMap_append]
    simp only [List.length_cons, List.length_append, List.length_nil]
    omega

/-- Twice as many visits as nodes are wanted are enough to enter them. -/
theorem EntersFirst.take_filterMap (hv : EntersFirst v) (hn : 2 * limit ≤ n) :
    ((v.take n).filterMap Visit.entered?).take limit =
      (v.filterMap Visit.entered?).take limit := by
  rcases Nat.le_total v.length n with hle | hle
  · rw [List.take_of_length_le hle]
  · have henough := hv n
    conv_rhs => rw [← List.take_append_drop n v, List.filterMap_append]
    rw [List.take_append_of_le_length (by omega)]

end EntersFirst

namespace Linked

theorem entersFirst_bracket (h : a.Linked) (i : NodeId) : EntersFirst (a.bracket i) := by
  induction i using h.induction_down with
  | _ i ih =>
    rw [h.bracket_eq]
    exact (entersFirst_flatMap ih).enclose i

/-- **The descendants of a node** are its pre-order list, from which as many are taken as are asked
for. -/
theorem descendants_eq_take (h : a.Linked) (hi : i < a.size) (limit : Nat) :
    a.descendants i limit = (a.subtree i).take limit := by
  have hsize : 2 ≤ a.size + 1 := Nat.succ_le_succ (Nat.zero_lt_of_lt hi)
  have hvisits : 2 * limit ≤ (limit + 1) * (a.size + 1) :=
    calc 2 * limit
      _ ≤ (limit + 1) * 2 := by omega
      _ ≤ (limit + 1) * (a.size + 1) := Nat.mul_le_mul_left _ hsize
  rw [descendants_eq, h.preorder_eq_take, (h.entersFirst_bracket i).take_filterMap hvisits, subtree]

/-- There are no more of them than slots. -/
theorem descendants_eq_subtree (h : a.Linked) (hi : i < a.size) (hn : a.size ≤ n) :
    a.descendants i n = a.subtree i := by
  rw [h.descendants_eq_take hi, List.take_of_length_le ((h.length_subtree_le hi).trans hn)]

end Linked

end Arena

end ParseTree
