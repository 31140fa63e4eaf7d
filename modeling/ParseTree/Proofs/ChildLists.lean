import Mathlib.Data.List.Nodup
import Mathlib.Data.List.Perm.Subperm
import ParseTree.Arena.Links

/-!
# Child lists as lists

A child list is spread over the arena: the parent knows its two ends, each member knows the next one
and the parent. `IsChildList` gathers these links into one statement about a list of nodes, and that
list is all that the theory of edits speaks about. Surgery on links then becomes an equation between
lists: cutting and joining are `++`, and `strung_append` is where a chain may be cut.

A chain may end at a node that does not belong to the list under discussion, so `Strung` carries the
node that comes after it.

## Main results

* `strung_append`: a chain is strung exactly if its two halves are.
* `Strung.retarget`: a chain whose last link is redirected.
* `Strung.nodup`: a chain that comes to an end meets no node twice.
* `IsChildList.eq_children`: the list is the one that `children` finds.
* `HasChildLists.eq_of_mem`: a node is in one list at most.
-/

namespace ParseTree

namespace Arena

/-! ## Chains of siblings -/

/-- The nodes of a list follow one another along next-sibling links, and the last of them is
followed by `stop`. -/
def Strung (a : Arena) (stop : Option NodeId) : List NodeId → Prop
  | [] => True
  | i :: l => (a.node i).nextSibling = l.head?.or stop ∧ a.Strung stop l

variable {a b : Arena} {stop stop' : Option NodeId} {i : NodeId} {l m : List NodeId}

@[simp] theorem strung_nil : a.Strung stop [] := trivial

@[simp] theorem strung_cons :
    a.Strung stop (i :: l) ↔ (a.node i).nextSibling = l.head?.or stop ∧ a.Strung stop l :=
  Iff.rfl

instance decidableStrung (a : Arena) (stop : Option NodeId) :
    (l : List NodeId) → Decidable (a.Strung stop l)
  | [] => .isTrue trivial
  | _ :: l =>
    have := decidableStrung a stop l
    inferInstanceAs (Decidable (_ ∧ _))

/-- **Where a chain may be cut.** The first half is followed by the head of the second. -/
theorem strung_append :
    a.Strung stop (l ++ m) ↔ a.Strung (m.head?.or stop) l ∧ a.Strung stop m := by
  induction l with
  | nil => simp
  | cons i l ih => simp [ih, List.head?_append, Option.or_assoc, and_assoc]

theorem Strung.congr (h : a.Strung stop l)
    (hl : ∀ i ∈ l, (b.node i).nextSibling = (a.node i).nextSibling) : b.Strung stop l := by
  induction l with
  | nil => trivial
  | cons i l ih =>
    exact ⟨(hl i (by simp)).trans h.1, ih h.2 fun j hj => hl j (by simp [hj])⟩

/-- A chain that keeps all links but that of its last node, which now leads to `stop'`. -/
theorem Strung.retarget (h : a.Strung stop l) (hl : l.Nodup)
    (hinner : ∀ i ∈ l, l.getLast? ≠ some i → (b.node i).nextSibling = (a.node i).nextSibling)
    (hlast : ∀ i, l.getLast? = some i → (b.node i).nextSibling = stop') : b.Strung stop' l := by
  induction l with
  | nil => trivial
  | cons i l ih =>
    obtain ⟨hil, hnd⟩ := List.nodup_cons.mp hl
    cases l with
    | nil => exact ⟨by simpa using hlast i rfl, trivial⟩
    | cons j l =>
      have hij : (j :: l).getLast? ≠ some i := fun hi => hil (List.mem_of_getLast? hi)
      refine ⟨?_, ih h.2 hnd (fun k hk hne => ?_) fun k hk => ?_⟩
      · rw [hinner i (by simp) (by rwa [List.getLast?_cons_cons]), h.1]
        simp
      · exact hinner k (by simp [hk]) (by rwa [List.getLast?_cons_cons])
      · exact hlast k (by rwa [List.getLast?_cons_cons])

/-- **Replacing the middle of a chain.** Three chains make one if the last nodes of the first two
are redirected to what comes behind them. -/
theorem Strung.replace {s t : Option NodeId} {before middle after : List NodeId}
    (hbefore : a.Strung s before) (hmiddle : a.Strung t middle) (hafter : a.Strung none after)
    (hnd : (before ++ middle ++ after).Nodup)
    (hnext : ∀ x ∈ before ++ middle ++ after, (b.node x).nextSibling =
      if before.getLast? = some x then middle.head?.or after.head?
      else if middle.getLast? = some x then after.head?
      else (a.node x).nextSibling) :
    b.Strung none (before ++ middle ++ after) := by
  obtain ⟨hbm, hand, hdisj⟩ := List.nodup_append.mp hnd
  obtain ⟨hbnd, hmnd, hbmdisj⟩ := List.nodup_append.mp hbm
  have hlast : ∀ {l : List NodeId} {x}, l.getLast? = some x → x ∈ l := List.mem_of_getLast?
  refine strung_append.mpr ⟨strung_append.mpr ⟨?_, ?_⟩, ?_⟩
  · refine hbefore.retarget hbnd (fun x hx hne => ?_) fun x hx => ?_
    · rw [hnext x (by simp [hx]), if_neg hne,
        if_neg fun h => hbmdisj x hx x (hlast h) rfl]
    · rw [hnext x (by simp [hlast hx]), if_pos hx, Option.or_none]
  · refine hmiddle.retarget hmnd (fun x hx hne => ?_) fun x hx => ?_
    · rw [hnext x (by simp [hx]), if_neg fun h => hbmdisj x (hlast h) x hx rfl, if_neg hne]
    · rw [hnext x (by simp [hlast hx]), if_neg fun h => hbmdisj x (hlast h) x (hlast hx) rfl,
        if_pos hx, Option.or_none]
  · refine hafter.congr fun x hx => ?_
    have hbefore' : before.getLast? ≠ some x := fun h =>
      hdisj x (List.mem_append_left _ (hlast h)) x hx rfl
    have hmiddle' : middle.getLast? ≠ some x := fun h =>
      hdisj x (List.mem_append_right _ (hlast h)) x hx rfl
    rw [hnext x (by simp [hx]), if_neg hbefore', if_neg hmiddle']

/-- Links lead on in one way only. -/
theorem Strung.unique (hl : a.Strung none l) (hm : a.Strung none m) (h : l.head? = m.head?) :
    l = m := by
  induction l generalizing m with
  | nil =>
    cases m with
    | nil => rfl
    | cons j m => simp at h
  | cons i l ih =>
    cases m with
    | nil => simp at h
    | cons j m =>
      obtain rfl : i = j := by simpa using h
      have hnext : l.head? = m.head? := by simpa using hl.1.symm.trans hm.1
      rw [ih hl.2 hm.2 hnext]

/-- **A chain that comes to an end** meets no node twice. A node met again would be followed by the
same chain as before, which is longer. -/
theorem Strung.nodup (h : a.Strung none l) : l.Nodup := by
  induction l with
  | nil => exact List.nodup_nil
  | cons i l ih =>
    refine List.nodup_cons.mpr ⟨fun hi => ?_, ih h.2⟩
    obtain ⟨s, t, rfl⟩ := List.append_of_mem hi
    have ht : a.Strung none (i :: t) := (strung_append.mp h.2).2
    have heq : i :: (s ++ i :: t) = i :: t := h.unique ht rfl
    have hlen := congrArg List.length heq
    simp at hlen
    omega

/-- What follows a member of a chain. -/
theorem Strung.nextSibling (h : a.Strung stop (l ++ i :: m)) :
    (a.node i).nextSibling = m.head?.or stop :=
  (strung_append.mp h).2.1

/-- Links do not lead out of a chain that comes to an end. -/
theorem Strung.mem_of_nextSibling {j : NodeId} (h : a.Strung none l) (hi : i ∈ l)
    (hnext : (a.node i).nextSibling = some j) : j ∈ l := by
  obtain ⟨s, t, rfl⟩ := List.append_of_mem hi
  rw [h.nextSibling, Option.or_none] at hnext
  simp [List.mem_of_mem_head? hnext]

/-- Following links from the head of a chain gives the chain, within a bound on its length. -/
theorem Strung.chain_eq (h : a.Strung none l) {n : Nat} (hn : l.length ≤ n) :
    a.chain n l.head? = l := by
  induction l generalizing n with
  | nil => simp
  | cons i l ih =>
    obtain ⟨k, rfl⟩ : ∃ k, n = k + 1 := ⟨n - 1, by simp at hn; omega⟩
    have hk : l.length ≤ k := by simpa using hn
    rw [List.head?_cons, chain_some, h.1, Option.or_none, ih h.2 hk]

/-- The search for a node along a chain finds the node before it, or `prev` at the head. -/
theorem Strung.predecessorFrom_eq (h : a.Strung none (l ++ i :: m)) (hi : i ∉ l) {n : Nat}
    (hn : (l ++ i :: m).length ≤ n) (prev : Option NodeId) :
    a.predecessorFrom i n prev (l ++ i :: m).head? = some (l.getLast?.or prev) := by
  induction l generalizing n prev with
  | nil =>
    obtain ⟨k, rfl⟩ : ∃ k, n = k + 1 := ⟨n - 1, by simp at hn; omega⟩
    simp [predecessorFrom]
  | cons j l ih =>
    obtain ⟨k, rfl⟩ : ∃ k, n = k + 1 := ⟨n - 1, by simp at hn; omega⟩
    obtain ⟨hji, hil⟩ : j ≠ i ∧ i ∉ l := by simpa [eq_comm] using hi
    have hk : (l ++ i :: m).length ≤ k := by simpa using hn
    have hnext : (a.node j).nextSibling = (l ++ i :: m).head? := by simpa using h.1
    rw [List.cons_append, List.head?_cons, predecessorFrom, if_neg hji, hnext, ih h.2 hil hk,
      List.getLast?_cons]
    cases l.getLast? <;> rfl

/-! ## Slots -/

theorem lt_size_of_parent {p : NodeId} (h : (a.node i).parent = some p) : i < a.size := by
  by_contra hi
  rw [node_of_size_le (Nat.not_lt.mp hi)] at h
  simp [Node.blank] at h

theorem lt_size_of_firstChild {c : NodeId} (h : (a.node i).firstChild = some c) : i < a.size := by
  by_contra hi
  rw [node_of_size_le (Nat.not_lt.mp hi)] at h
  simp [Node.blank] at h

/-- A list of different slots is no longer than the arena. -/
theorem length_le_size (hl : l.Nodup) (h : ∀ i ∈ l, i < a.size) : l.length ≤ a.size := by
  have hsub : l ⊆ List.range a.size := fun i hi => List.mem_range.mpr (h i hi)
  simpa using (hl.subperm hsub).length_le

/-! ## The list of the children of a node -/

/-- The links of `i` and of the nodes of `l` make `l` the list of the children of `i`. -/
structure IsChildList (a : Arena) (i : NodeId) (l : List NodeId) : Prop where
  /-- The parent knows where its list begins. -/
  firstChild : (a.node i).firstChild = l.head?
  /-- From there next-sibling links lead through the list, and end with it. -/
  strung : a.Strung none l
  /-- The parent knows where its list ends, and that an empty list has no end. -/
  lastChild : (a.node i).lastChild = l.getLast?
  /-- Every member knows its parent. -/
  parent : ∀ c ∈ l, (a.node c).parent = some i

namespace IsChildList

theorem nodup (h : a.IsChildList i l) : l.Nodup :=
  h.strung.nodup

theorem lt_size (h : a.IsChildList i l) {c : NodeId} (hc : c ∈ l) : c < a.size :=
  lt_size_of_parent (h.parent c hc)

/-- The list is the one that `children` finds. -/
theorem eq_children (h : a.IsChildList i l) : a.children i = l := by
  rw [children, h.firstChild]
  exact h.strung.chain_eq (length_le_size h.nodup fun _ => h.lt_size)

instance (a : Arena) (i : NodeId) (l : List NodeId) : Decidable (a.IsChildList i l) :=
  decidable_of_iff ((a.node i).firstChild = l.head? ∧ a.Strung none l ∧
    (a.node i).lastChild = l.getLast? ∧ ∀ c ∈ l, (a.node c).parent = some i)
    ⟨fun ⟨hfirst, hstrung, hlast, hparent⟩ => ⟨hfirst, hstrung, hlast, hparent⟩,
      fun h => ⟨h.firstChild, h.strung, h.lastChild, h.parent⟩⟩

theorem unique (hl : a.IsChildList i l) (hm : a.IsChildList i m) : l = m :=
  hl.eq_children.symm.trans hm.eq_children

theorem congr (h : a.IsChildList i l)
    (hfirst : (b.node i).firstChild = (a.node i).firstChild)
    (hlast : (b.node i).lastChild = (a.node i).lastChild)
    (hnext : ∀ c ∈ l, (b.node c).nextSibling = (a.node c).nextSibling)
    (hparent : ∀ c ∈ l, (b.node c).parent = (a.node c).parent) : b.IsChildList i l where
  firstChild := hfirst.trans h.firstChild
  strung := h.strung.congr hnext
  lastChild := hlast.trans h.lastChild
  parent c hc := (hparent c hc).trans (h.parent c hc)

theorem nil_of_firstChild (h : a.IsChildList i l) (hi : (a.node i).firstChild = none) :
    l = [] := by
  simpa [h.firstChild] using hi

/-- A node with a child is in the arena. -/
theorem owner_lt_size (h : a.IsChildList i l) {x : NodeId} (hx : x ∈ l) : i < a.size := by
  cases l with
  | nil => simp at hx
  | cons c l => exact lt_size_of_firstChild h.firstChild

/-- The search for a member finds the node before it. -/
theorem predecessor?_eq {c : NodeId} {before after : List NodeId}
    (h : a.IsChildList i (before ++ c :: after)) :
    a.predecessor? i c = some before.getLast? := by
  have hc : c ∉ before := fun hb =>
    (List.nodup_append.mp h.nodup).2.2 c hb c (List.mem_cons_self ..) rfl
  rw [predecessor?, h.firstChild,
    h.strung.predecessorFrom_eq hc (length_le_size h.nodup fun _ => h.lt_size), Option.or_none]

end IsChildList

/-! ## Arenas with child lists -/

/-- **Every node has a child list.** A node may still name a parent that does not list it, or be
followed by nodes that are in no list. -/
def HasChildLists (a : Arena) : Prop :=
  ∀ i, a.IsChildList i (a.children i)

namespace HasChildLists

variable {p q x : NodeId}

/-- An arena has child lists, whichever way they were found. -/
theorem of_isChildList {kids : NodeId → List NodeId} (h : ∀ i, a.IsChildList i (kids i)) :
    a.HasChildLists ∧ a.children = kids := by
  have heq : a.children = kids := funext fun i => (h i).eq_children
  refine ⟨fun i => ?_, heq⟩
  rw [heq]
  exact h i

/-- A free slot has the empty list, so that slots are all there is to look at. -/
theorem iff_forall_lt : a.HasChildLists ↔ ∀ i < a.size, a.IsChildList i (a.children i) := by
  refine ⟨fun h i _ => h i, fun h i => ?_⟩
  rcases Nat.lt_or_ge i a.size with hi | hi
  · exact h i hi
  · have hnode : a.node i = .blank := node_of_size_le hi
    have hnil : a.children i = [] := by simp [children, hnode, Node.blank]
    rw [hnil]
    exact ⟨by simp [hnode, Node.blank], trivial, by simp [hnode, Node.blank], by simp⟩

instance (a : Arena) : Decidable a.HasChildLists :=
  decidable_of_iff _ iff_forall_lt.symm

theorem parent_eq (h : a.HasChildLists) (hx : x ∈ a.children p) : (a.node x).parent = some p :=
  (h p).parent x hx

theorem lt_size_of_mem (h : a.HasChildLists) (hx : x ∈ a.children p) : x < a.size :=
  (h p).lt_size hx

/-- A node is in one list at most. -/
theorem eq_of_mem (h : a.HasChildLists) (hp : x ∈ a.children p) (hq : x ∈ a.children q) : p = q :=
  Option.some.inj ((h.parent_eq hp).symm.trans (h.parent_eq hq))

end HasChildLists

end Arena

end ParseTree
