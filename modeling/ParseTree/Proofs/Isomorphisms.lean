import ParseTree.Proofs.CloneTrees

/-!
# What the data of a subtree tells

A subtree is written as data without its slots. `Isomorphism` compares two subtrees in the same
way, by a function between their nodes that goes with children, labels, kinds and covered ranges.
The data of two subtrees is equal exactly if there is such a function, so that the data tells the
subtree as a tree, and nothing else of the arena.

Between the two stand roses. The value taken of a node is `Node.showing`, with the covered range
in the place of the extents: an inverted extent is written as the empty range at its left end, and
two of them with the same left end cannot be told apart.

## Main results

* `Linked.serialize_eq_obj`: the recursive equation of data.
* `Linked.serialize_eq_iff_rose`: the data and the rose of a subtree tell the same.
* `Linked.exists_isomorphism`, `Isomorphism.rose_eq`: equal roses are those of isomorphic subtrees.
* `Linked.serialize_eq_iff_isomorphism`: equal data is that of isomorphic subtrees.
-/

namespace ParseTree

/-- What the data of a node has from it: label, kind and covered range. -/
def Node.showing (n : Node) : String × Kind × Nat × Nat :=
  (n.label, n.kind, n.left, max n.left n.right)

namespace Arena

variable {α β : Type} {a b : Arena} {f : NodeId → NodeId} {i j x : NodeId}

theorem showing_eq_iff : (a.node i).showing = (b.node j).showing ↔
    (a.node i).label = (b.node j).label ∧ (a.node i).kind = (b.node j).kind ∧
      a.textRange i = b.textRange j := by
  rw [Node.showing, Node.showing, Prod.mk.injEq, Prod.mk.injEq]
  rfl

/-! ## Lists with matching members -/

section Pairs

variable {l k : List NodeId}

/-- Members that are matched one by one are matched by a function, if none is there twice. -/
theorem exists_map_eq_of_forall₂ {S : NodeId → NodeId → Prop} (h : l.Forall₂ S k)
    (hnd : l.Nodup) : ∃ g : NodeId → NodeId, l.map g = k ∧ ∀ x ∈ l, S x (g x) := by
  induction h with
  | nil => exact ⟨id, rfl, by simp⟩
  | @cons x y l k hxy _ ih =>
    obtain ⟨hx, hnd⟩ := List.nodup_cons.mp hnd
    obtain ⟨g, rfl, hg⟩ := ih hnd
    have hkeep : ∀ z ∈ l, Function.update g x y z = g z := fun z hz =>
      Function.update_of_ne (ne_of_mem_of_not_mem hz hx) ..
    refine ⟨Function.update g x y, ?_, ?_⟩
    · rw [List.map_cons, Function.update_self, List.map_congr_left hkeep]
    · rw [List.forall_mem_cons, Function.update_self]
      refine ⟨hxy, fun z hz => ?_⟩
      rw [hkeep z hz]
      exact hg z hz

/-- Values that tell members apart in the same way tell lists apart in the same way. -/
theorem map_eq_map_iff {F G : NodeId → α} {F' G' : NodeId → β}
    (h : ∀ x ∈ l, ∀ y ∈ k, F x = G y ↔ F' x = G' y) :
    l.map F = k.map G ↔ l.map F' = k.map G' := by
  constructor
  · intro heq
    exact map_eq_of_forall₂ (forall₂_of_map_eq heq) fun x _ y ⟨hx, hy, hxy⟩ => (h x hx y hy).mp hxy
  · intro heq
    exact map_eq_of_forall₂ (forall₂_of_map_eq heq) fun x _ y ⟨hx, hy, hxy⟩ => (h x hx y hy).mpr hxy

end Pairs

/-! ## Data and roses -/

namespace Linked

/-- **The recursive equation of data**: what shows of the node, and the data of its children. -/
theorem serialize_eq_obj (h : a.Linked) (hi : i < a.size) :
    a.serialize i = .obj [("children", .arr ((a.children i).map a.serialize)),
      ("kind", .str (a.node i).kind.name), ("label", .str (a.node i).label),
      ("range", .arr [.int (a.textRange i).1, .int (a.textRange i).2])] := by
  obtain ⟨n, hn⟩ : ∃ n, a.size = n + 1 := Nat.exists_eq_add_one_of_ne_zero (Nat.ne_zero_of_lt hi)
  have hkids : (a.children i).map (a.serializeWithin n) = (a.children i).map a.serialize := by
    refine List.map_congr_left fun c hc => ?_
    have hci := h.weight_lt_of_parent (h.mem_children.mp hc)
    have hsize := h.weight_lt_size hi
    have hn : a.weight c < n := by omega
    exact h.serializeWithin_eq_of_rose h rfl hn (by omega : a.weight c < a.size)
  rw [serialize, hn, serializeWithin, hkids]

/-- **What the data of two nodes tells**: what shows of them, and the data of their children. -/
theorem serialize_eq_iff (ha : a.Linked) (hb : b.Linked) (hi : i < a.size) (hj : j < b.size) :
    a.serialize i = b.serialize j ↔ (a.node i).showing = (b.node j).showing ∧
      (a.children i).map a.serialize = (b.children j).map b.serialize := by
  have hname : (a.node i).kind.name = (b.node j).kind.name ↔ (a.node i).kind = (b.node j).kind :=
    ⟨Kind.name_injective, congrArg Kind.name⟩
  rw [ha.serialize_eq_obj hi, hb.serialize_eq_obj hj, showing_eq_iff, ← hname, Prod.ext_iff]
  simp only [Json.obj.injEq, Json.arr.injEq, Json.str.injEq, Json.int.injEq, List.cons.injEq,
    Prod.mk.injEq, Int.natCast_inj]
  tauto

/-- **The data and the rose** of a subtree tell the same. -/
theorem serialize_eq_iff_rose (ha : a.Linked) (hb : b.Linked) (hi : i < a.size) (hj : j < b.size) :
    a.serialize i = b.serialize j ↔ a.rose Node.showing i = b.rose Node.showing j := by
  induction i using ha.induction_down generalizing j with
  | _ i ih =>
    have hkids : (a.children i).map a.serialize = (b.children j).map b.serialize ↔
        (a.children i).map (a.rose Node.showing) = (b.children j).map (b.rose Node.showing) :=
      map_eq_map_iff fun x hx y hy => ih x hx (ha.lt_size_of_mem hx) (hb.lt_size_of_mem hy)
    rw [ha.serialize_eq_iff hb hi hj, hkids, ha.rose_eq, hb.rose_eq, Rose.node.injEq]

end Linked

/-! ## Isomorphic subtrees -/

/-- **The subtree at `i` of `a` is that at `j` of `b`** as an ordered tree, with `f x` in the place
of `x` and the same label, kind and covered range there. -/
structure Isomorphism (a : Arena) (i : NodeId) (b : Arena) (j : NodeId) (f : NodeId → NodeId) :
    Prop where
  root_eq : f i = j
  bijOn : Set.BijOn f {x | a.Within x i} {y | b.Within y j}
  children_eq : ∀ x, a.Within x i → (a.children x).map f = b.children (f x)
  label_eq : ∀ x, a.Within x i → (a.node x).label = (b.node (f x)).label
  kind_eq : ∀ x, a.Within x i → (a.node x).kind = (b.node (f x)).kind
  textRange_eq : ∀ x, a.Within x i → a.textRange x = b.textRange (f x)

/-- **A function that goes with children**, and with what shows of nodes, is an isomorphism. -/
theorem Linked.isomorphism (ha : a.Linked) (hb : b.Linked) (hroot : f i = j)
    (h : ∀ x, a.Within x i → (a.node x).showing = (b.node (f x)).showing ∧
      (a.children x).map f = b.children (f x)) : a.Isomorphism i b j f := by
  have hkids : ∀ x, a.Within x i → (a.children x).map f = b.children (f x) := fun x hx => (h x hx).2
  have hshow : ∀ x, a.Within x i → _ := fun x hx => showing_eq_iff.mp (h x hx).1
  subst hroot
  refine ⟨rfl, ⟨fun x hx => ?_, ?_, fun y hy => ?_⟩, hkids, fun x hx => (hshow x hx).1,
    fun x hx => (hshow x hx).2.1, fun x hx => (hshow x hx).2.2⟩
  · exact ha.within_map hb hkids hx
  · exact ha.injOn_map hb hkids
  · exact ha.exists_of_within_map hb hkids hy

theorem Isomorphism.rose_eq (h : a.Isomorphism i b j f) (ha : a.Linked) (hb : b.Linked) :
    a.rose Node.showing i = b.rose Node.showing j := by
  refine ha.rose_eq_of_matching hb (S := fun x y => a.Within x i ∧ f x = y) ?_ ?_
    ⟨.refl a i, h.root_eq⟩
  · rintro x _ ⟨hx, rfl⟩
    exact showing_eq_iff.mpr ⟨h.label_eq x hx, h.kind_eq x hx, h.textRange_eq x hx⟩
  · rintro x _ ⟨hx, rfl⟩
    rw [← h.children_eq x hx, List.forall₂_map_right_iff, List.forall₂_same]
    exact fun c hc => ⟨(Within.of_parent (ha.mem_children.mp hc)).trans hx, rfl⟩

/-- Functions on the subtrees of the children of a node make one on the subtree of the node. -/
theorem Linked.exists_glued (ha : a.Linked) (i j : NodeId) (g : NodeId → NodeId → NodeId) :
    ∃ f : NodeId → NodeId, f i = j ∧ ∀ c ∈ a.children i, ∀ x, a.Within x c → f x = g c x := by
  classical
  refine ⟨fun x => if hx : ∃ c ∈ a.children i, a.Within x c then g hx.choose x else j, ?_,
    fun c hc x hx => ?_⟩
  · refine dif_neg fun ⟨c, hc, hic⟩ => ?_
    exact ha.acyclic i (hic.trans_below (.of_parent (ha.mem_children.mp hc)))
  · have hex : ∃ c ∈ a.children i, a.Within x c := ⟨c, hc, hx⟩
    obtain ⟨hd, hxd⟩ := hex.choose_spec
    have hdc : hex.choose = c :=
      ha.eq_of_within (ha.mem_children.mp hd) (ha.mem_children.mp hc) hxd hx
    simp only [dif_pos hex, hdc]

/-- **Subtrees with the same rose are isomorphic.** -/
theorem Linked.exists_isomorphism (ha : a.Linked) (hb : b.Linked)
    (h : a.rose Node.showing i = b.rose Node.showing j) : ∃ f, a.Isomorphism i b j f := by
  suffices hex : ∃ f : NodeId → NodeId, f i = j ∧ ∀ x, a.Within x i →
      (a.node x).showing = (b.node (f x)).showing ∧ (a.children x).map f = b.children (f x) by
    obtain ⟨f, hroot, hf⟩ := hex
    exact ⟨f, ha.isomorphism hb hroot hf⟩
  induction i using ha.induction_down generalizing j with
  | _ i ih =>
    obtain ⟨hshow, hkids⟩ := ha.of_rose_eq hb h
    obtain ⟨g, hg, hsame⟩ :=
      exists_map_eq_of_forall₂ (forall₂_of_map_eq hkids) (ha.nodup_children i)
    have hchild : ∀ c, ∃ f : NodeId → NodeId, c ∈ a.children i → f c = g c ∧ ∀ x, a.Within x c →
        (a.node x).showing = (b.node (f x)).showing ∧ (a.children x).map f = b.children (f x) := by
      intro c
      by_cases hc : c ∈ a.children i
      · obtain ⟨f, hf⟩ := ih c hc (hsame c hc).2.2
        exact ⟨f, fun _ => hf⟩
      · exact ⟨id, fun hmem => absurd hmem hc⟩
    choose fs hfs using hchild
    obtain ⟨f, hroot, hf⟩ := ha.exists_glued i j fs
    refine ⟨f, hroot, fun x hx => ?_⟩
    rcases Relation.ReflTransGen.cases_tail hx with rfl | ⟨c, hxc, hci⟩
    · have himage : (a.children i).map f = b.children j := by
        rw [← hg]
        exact List.map_congr_left fun c hc => (hf c hc c (.refl a c)).trans (hfs c hc).1
      rw [hroot]
      exact ⟨hshow, himage⟩
    · have hc : c ∈ a.children i := ha.mem_children.mpr hci
      obtain ⟨hx, hlist⟩ := (hfs c hc).2 x hxc
      have hbelow : (a.children x).map f = (a.children x).map (fs c) :=
        List.map_congr_left fun y hy =>
          hf c hc y ((Within.of_parent (ha.mem_children.mp hy)).trans hxc)
      rw [hf c hc x hxc, hbelow]
      exact ⟨hx, hlist⟩

/-- A copy is isomorphic to what it is a copy of. -/
theorem Corresponds.isomorphism (h : a.Corresponds i b j f) : a.Isomorphism i b j f := by
  refine ⟨h.root_eq, h.bijOn, h.children_eq, fun x hx => ?_, fun x hx => ?_, fun x hx => ?_⟩
  · exact congrArg (fun mark => mark.1.label) (h.mark_eq x hx)
  · exact congrArg (fun mark => mark.1.kind) (h.mark_eq x hx)
  · exact congrArg (fun mark => (mark.1.left, max mark.1.left mark.1.right)) (h.mark_eq x hx)

/-! ## Data is faithful -/

/-- **The data of a subtree is faithful**: it is equal to that of another one, of this arena or of
any other, exactly if the two are isomorphic. So it is equal to that of a clone. -/
theorem Linked.serialize_eq_iff_isomorphism (ha : a.Linked) (hb : b.Linked) (hi : i < a.size)
    (hj : j < b.size) :
    (a.serialize i = b.serialize j ↔ ∃ f, a.Isomorphism i b j f) ∧
      (a.cloneSubtree i).2.serialize (a.cloneSubtree i).1 = a.serialize i := by
  refine ⟨?_, ?_⟩
  · rw [ha.serialize_eq_iff_rose hb hi hj]
    exact ⟨ha.exists_isomorphism hb, fun ⟨f, hf⟩ => hf.rose_eq ha hb⟩
  · obtain ⟨f, hf⟩ := ha.exists_corresponds hi
    have hclone := ha.cloneSubtree i
    rw [cloneSubtree_fst, hclone.linked.serialize_eq_iff_rose ha hclone.size_lt hi]
    exact hf.isomorphism.rose_eq hclone.linked ha

/-- A tree with an inverted extent. -/
def inverted : Arena :=
  Command.runAll [.make "r" .nonTerminal 3 1, .push 0 "x" .terminal 1 2,
    .push 0 "y" .nonTerminal 2 3] {}

/-- The same tree with another inverted extent, made in another order, and of other slots. -/
def respread : Arena :=
  Command.runAll [.make "y" .nonTerminal 2 3, .make "z" .epsilon 0 0, .make "r" .nonTerminal 3 2,
    .push 2 "x" .terminal 1 2, .addChild 2 (some 0)] {}

/-- Two ends of inverted extents cannot be told apart, nor can slots and the order of edits. -/
theorem serialize_inverted :
    inverted.Linked ∧ respread.Linked ∧ 0 < inverted.size ∧ 2 < respread.size ∧
      (∃ f, inverted.Isomorphism 0 respread 2 f) ∧
      (inverted.cloneSubtree 0).2.serialize 3 = inverted.serialize 0 := by
  have ha : inverted.Linked := (Command.runAll_wellFormed wellFormed_empty (by decide)).linked
  have hb : respread.Linked := (Command.runAll_wellFormed wellFormed_empty (by decide)).linked
  have hi : 0 < inverted.size := by decide
  have hj : 2 < respread.size := by decide
  obtain ⟨hfaithful, hclone⟩ := ha.serialize_eq_iff_isomorphism hb hi hj
  exact ⟨ha, hb, hi, hj, hfaithful.mp (by rfl), hclone⟩

end Arena

end ParseTree
