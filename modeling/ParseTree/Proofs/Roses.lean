import ParseTree.Arena.Serial
import ParseTree.Proofs.CloneSize
import ParseTree.Proofs.Preorder

/-!
# Trees apart from their slots

The same tree may stand at different slots, of one arena or of two. The rose of a subtree is what is
left when slots are forgotten: a value for each node, in the shape of the subtree, children in their
order. Which values are taken is up to a function of nodes. `Node.face` takes what a reader of a
tree sees, and `Node.mark` takes the tear store besides.

Two subtrees with the same rose need not be compared any further. Their data and their sizes are the
same, and so are their tree strings.

## Main results

* `Linked.rose_eq`: a rose is a value and the roses of the children.
* `Linked.rose_eq_of_matching`: nodes that can be matched level by level have the same rose.
* `Linked.induction_same`: what holds of two nodes if it holds of their children pair by pair.
* `Linked.serialize_eq`, `Linked.countNodes_eq_of_rose`: what shows of a subtree shows of its rose.
-/

namespace ParseTree

/-- A value, and the trees below it in order. -/
inductive Rose (α : Type) where
  | node (value : α) (below : List (Rose α))

/-- What a node shows of itself: label, kind and extents. -/
structure Face where
  label : String
  kind : Kind
  left : Nat
  right : Nat
  deriving DecidableEq, Repr

/-- What a node shows of itself. -/
def Node.face (n : Node) : Face :=
  ⟨n.label, n.kind, n.left, n.right⟩

/-- What a copy of a node has from it: what it shows, and the tear store. -/
def Node.mark (n : Node) : Face × Nat :=
  (n.face, n.store)

namespace Arena

variable {α β : Type} {a b : Arena} {f : Node → α} {i j r : NodeId} {m n : Nat}

/-- The node at `i` and at most `n` levels below it, each node by its value. -/
def roseWithin (a : Arena) (f : Node → α) : Nat → NodeId → Rose α
  | 0, i => .node (f (a.node i)) []
  | n + 1, i => .node (f (a.node i)) ((a.children i).map (a.roseWithin f n))

/-- **The rose of a subtree**: its shape, with a value for each node. -/
def rose (a : Arena) (f : Node → α) (i : NodeId) : Rose α :=
  a.roseWithin f a.size i

/-! ## Lists of pairs -/

section Pairs

variable {S : NodeId → NodeId → Prop} {l k : List NodeId}

theorem map_eq_of_forall₂ {F G : NodeId → α} (h : l.Forall₂ S k)
    (hFG : ∀ x ∈ l, ∀ y, S x y → F x = G y) : l.map F = k.map G := by
  induction h with
  | nil => rfl
  | cons hxy _ ih =>
    rw [List.map_cons, List.map_cons, hFG _ List.mem_cons_self _ hxy,
      ih fun x hx => hFG x (List.mem_cons_of_mem _ hx)]

/-- Lists with the same values, member by member. -/
theorem forall₂_of_map_eq {F G : NodeId → α} (h : l.map F = k.map G) :
    l.Forall₂ (fun x y => x ∈ l ∧ y ∈ k ∧ F x = G y) k := by
  rw [← List.forall₂_eq_eq_eq, List.forall₂_map_left_iff, List.forall₂_map_right_iff,
    List.forall₂_iff_zip] at h
  refine List.forall₂_iff_zip.mpr ⟨h.1, fun hxy => ?_⟩
  exact ⟨(List.of_mem_zip hxy).1, (List.of_mem_zip hxy).2, h.2 hxy⟩

end Pairs

/-! ## The recursive equation -/

namespace Linked

theorem roseWithin_eq (h : a.Linked) (hm : a.weight i ≤ m) (hn : a.weight i ≤ n) :
    a.roseWithin f m i = a.roseWithin f n i := by
  induction i using h.induction_down generalizing m n with
  | _ i ih =>
    have hlt : ∀ c ∈ a.children i, a.weight c < a.weight i := fun c hc =>
      h.weight_lt_of_parent (h.mem_children.mp hc)
    by_cases hnil : a.children i = []
    · cases m <;> cases n <;> simp [roseWithin, hnil]
    · obtain ⟨c, hc⟩ := List.exists_mem_of_ne_nil _ hnil
      have hpos := hlt c hc
      obtain ⟨m, rfl⟩ : ∃ k, m = k + 1 := ⟨m - 1, by omega⟩
      obtain ⟨n, rfl⟩ : ∃ k, n = k + 1 := ⟨n - 1, by omega⟩
      have hkids : (a.children i).map (a.roseWithin f m) =
          (a.children i).map (a.roseWithin f n) := by
        refine List.map_congr_left fun c hc => ?_
        have hlt := hlt c hc
        exact ih c hc (by omega) (by omega)
      rw [roseWithin, roseWithin, hkids]

/-- **The recursive equation**: the value of the node, and the roses of its children. -/
theorem rose_eq (h : a.Linked) (f : Node → α) (i : NodeId) :
    a.rose f i = .node (f (a.node i)) ((a.children i).map (a.rose f)) := by
  have hle : a.weight i ≤ a.size := weight_le_size a i
  rw [rose, h.roseWithin_eq hle (Nat.le_succ_of_le hle), roseWithin]
  rfl

/-! ## Matching two subtrees -/

/-- **Matched nodes have the same rose**, if they have the same value and their children are matched
in order. -/
theorem rose_eq_of_matching (ha : a.Linked) (hb : b.Linked) {S : NodeId → NodeId → Prop}
    (hvalue : ∀ {i j}, S i j → f (a.node i) = f (b.node j))
    (hlist : ∀ {i j}, S i j → (a.children i).Forall₂ S (b.children j)) (h : S i j) :
    a.rose f i = b.rose f j := by
  induction i using ha.induction_down generalizing j with
  | _ i ih =>
    rw [ha.rose_eq, hb.rose_eq, hvalue h,
      map_eq_of_forall₂ (hlist h) fun x hx y hxy => ih x hx hxy]

/-- A subtree whose nodes have kept their values and their children has kept its rose. -/
theorem rose_eq_of_children_eq (ha : a.Linked) (hb : b.Linked)
    (h : ∀ x, a.Within x r → f (b.node x) = f (a.node x) ∧ b.children x = a.children x) :
    b.rose f r = a.rose f r := by
  refine (ha.rose_eq_of_matching hb (S := fun x y => x = y ∧ a.Within x r) ?_ ?_
    ⟨rfl, .refl a r⟩).symm
  · rintro x _ ⟨rfl, hx⟩
    exact (h x hx).1.symm
  · rintro x _ ⟨rfl, hx⟩
    rw [(h x hx).2, List.forall₂_same]
    exact fun c hc => ⟨rfl, (Within.of_parent (ha.mem_children.mp hc)).trans hx⟩

/-- A subtree whose nodes were left alone has kept its rose. -/
theorem rose_eq_of_node_eq (ha : a.Linked) (hb : b.Linked)
    (h : ∀ x, a.Within x r → b.node x = a.node x) : b.rose f r = a.rose f r := by
  refine ha.rose_eq_of_children_eq hb fun x hx => ⟨by rw [h x hx], ?_⟩
  have hc {c : NodeId} (hc : c ∈ a.children x) : b.node c = a.node c :=
    h c ((Within.of_parent (ha.mem_children.mp hc)).trans hx)
  refine ((ha.childList x).congr ?_ ?_ (fun c hmem => ?_) fun c hmem => ?_).eq_children
  · rw [h x hx]
  · rw [h x hx]
  · rw [hc hmem]
  · rw [hc hmem]

/-- Nodes with the same rose have the same value, and children with the same roses. -/
theorem of_rose_eq (ha : a.Linked) (hb : b.Linked) (h : a.rose f i = b.rose f j) :
    f (a.node i) = f (b.node j) ∧
      (a.children i).map (a.rose f) = (b.children j).map (b.rose f) := by
  rw [ha.rose_eq, hb.rose_eq, Rose.node.injEq] at h
  exact h

/-- **Induction on two subtrees with the same rose**, from the leaves upwards. -/
theorem induction_same (ha : a.Linked) (hb : b.Linked) {motive : NodeId → NodeId → Prop}
    (step : ∀ i j, f (a.node i) = f (b.node j) →
      (a.children i).Forall₂ (fun c d => (a.node c).parent = some i ∧ (b.node d).parent = some j ∧
        f (a.node c) = f (b.node d) ∧ motive c d) (b.children j) → motive i j)
    (h : a.rose f i = b.rose f j) : motive i j := by
  induction i using ha.induction_down generalizing j with
  | _ i ih =>
    obtain ⟨hvalue, hkids⟩ := ha.of_rose_eq hb h
    refine step i j hvalue ((forall₂_of_map_eq hkids).imp fun c d ⟨hc, hd, hcd⟩ => ?_)
    exact ⟨ha.mem_children.mp hc, hb.mem_children.mp hd, (ha.of_rose_eq hb hcd).1, ih c hc hcd⟩

/-! ## What shows of a subtree -/

theorem serializeWithin_eq_of_rose (ha : a.Linked) (hb : b.Linked)
    (h : a.rose Node.face i = b.rose Node.face j) {m n : Nat} (hm : a.weight i < m)
    (hn : b.weight j < n) : a.serializeWithin m i = b.serializeWithin n j := by
  refine ha.induction_same hb (motive := fun i j => ∀ m n, a.weight i < m → b.weight j < n →
    a.serializeWithin m i = b.serializeWithin n j) (fun i j hface hkids m n hm hn => ?_) h m n hm hn
  obtain ⟨m, rfl⟩ : ∃ k, m = k + 1 := ⟨m - 1, by omega⟩
  obtain ⟨n, rfl⟩ : ∃ k, n = k + 1 := ⟨n - 1, by omega⟩
  have hlist : (a.children i).map (a.serializeWithin m) =
      (b.children j).map (b.serializeWithin n) := by
    refine map_eq_of_forall₂ hkids fun x _ y ⟨hx, hy, _, hxy⟩ => ?_
    have hlt := ha.weight_lt_of_parent hx
    have hlt' := hb.weight_lt_of_parent hy
    exact hxy m n (by omega) (by omega)
  have hrange : a.textRange i = b.textRange j := by
    rw [textRange, textRange, show (a.node i).left = (b.node j).left from congrArg Face.left hface,
      show (a.node i).right = (b.node j).right from congrArg Face.right hface]
  rw [serializeWithin, serializeWithin, hlist, hrange,
    show (a.node i).kind = (b.node j).kind from congrArg Face.kind hface,
    show (a.node i).label = (b.node j).label from congrArg Face.label hface]

/-- **The data** of a subtree shows of its rose. -/
theorem serialize_eq (ha : a.Linked) (hb : b.Linked) (hi : i < a.size) (hj : j < b.size)
    (h : a.rose Node.face i = b.rose Node.face j) : a.serialize i = b.serialize j :=
  ha.serializeWithin_eq_of_rose hb h (ha.weight_lt_size hi) (hb.weight_lt_size hj)

/-- **The size** of a subtree shows of its rose. -/
theorem countNodes_eq_of_rose (ha : a.Linked) (hb : b.Linked) (h : a.rose f i = b.rose f j) :
    a.countNodes i = b.countNodes j := by
  refine ha.induction_same hb (motive := fun i j => a.countNodes i = b.countNodes j)
    (fun i j _ hkids => ?_) h
  have hlist : (a.children i).map a.countNodes = (b.children j).map b.countNodes :=
    map_eq_of_forall₂ hkids fun x _ y hxy => hxy.2.2.2
  rw [ha.countNodes_eq, hb.countNodes_eq, hlist]

end Linked

end Arena

end ParseTree
