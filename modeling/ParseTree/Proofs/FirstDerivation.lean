import ParseTree.Forest.Derivation
import ParseTree.Proofs.Joining

/-!
# The first derivation is built in order

Materializing a derivation grows one tree from its root. What is built below a node is made of new
nodes: it is put behind the children that the node has, or below nodes that are new themselves.
`Grown` says this of two arenas, and it is enough to see that every appended node is a root in
another tree when its turn comes.

## Main results

* `Forest.expand_grown`: what is built below a node grows there.
* `Forest.materialize_linked`: the arena is linked afterwards, whether building succeeds or fails.
-/

namespace ParseTree

namespace Arena

variable {a b d : Arena} {i c p x y : NodeId}

/-- Arena `b` has new nodes, and these are below `i`, or in trees of their own. -/
structure Grown (a b : Arena) (i : NodeId) : Prop where
  linked : b.Linked
  size_le : a.size ≤ b.size
  children_eq : ∀ x < a.size, x ≠ i → b.children x = a.children x
  children_new : ∀ x c, c ∈ b.children x → x = i ∨ a.size ≤ x →
    a.size ≤ c ∨ x = i ∧ c ∈ a.children i

namespace Grown

theorem refl (ha : a.Linked) (i : NodeId) : a.Grown a i := by
  refine ⟨ha, Nat.le_refl _, fun _ _ _ => rfl, fun x c hc hx => ?_⟩
  rcases hx with rfl | hx
  · exact .inr ⟨rfl, hc⟩
  · simp [ha.children_eq_nil hx] at hc

/-- Nodes that were there and have a parent had it before. -/
theorem parent_eq (h : a.Grown b i) (ha : a.Linked) (hx : x < a.size)
    (hp : (b.node x).parent = some p) : (a.node x).parent = some p := by
  have hmem : x ∈ b.children p := h.linked.mem_children_of_parent hp
  refine ha.mem_children.mp ?_
  by_cases hnew : p = i ∨ a.size ≤ p
  · rcases h.children_new p x hmem hnew with hle | ⟨rfl, hxi⟩
    · exact absurd hx (Nat.not_lt.mpr hle)
    · exact hxi
  · rw [not_or] at hnew
    rwa [← h.children_eq p (Nat.not_le.mp hnew.2) hnew.1]

theorem root (h : a.Grown b i) (ha : a.Linked) (hx : x < a.size)
    (hroot : (a.node x).parent = none) : (b.node x).parent = none := by
  cases hp : (b.node x).parent with
  | none => rfl
  | some p => simp [h.parent_eq ha hx hp] at hroot

/-- Nodes that were there are below the nodes that they were below. -/
theorem within (h : a.Grown b i) (ha : a.Linked) (hx : x < a.size) (hxy : b.Within x y) :
    a.Within x y := by
  induction hxy using Relation.ReflTransGen.head_induction_on with
  | refl => rfl
  | head hxp _ ih =>
    have hp := h.parent_eq ha hx hxp
    exact (Within.of_parent hp).trans (ih (ha.parent_lt_size hp))

theorem trans (h : a.Grown b i) (h' : b.Grown d i) : a.Grown d i where
  linked := h'.linked
  size_le := Nat.le_trans h.size_le h'.size_le
  children_eq x hx hxi := by
    rw [h'.children_eq x (Nat.lt_of_lt_of_le hx h.size_le) hxi, h.children_eq x hx hxi]
  children_new x c hc hx := by
    by_cases hnew : x = i ∨ b.size ≤ x
    · rcases h'.children_new x c hc hnew with hle | ⟨rfl, hci⟩
      · exact .inl (Nat.le_trans h.size_le hle)
      · exact h.children_new x c hci hx
    · rw [not_or] at hnew
      rw [h'.children_eq x (Nat.not_le.mp hnew.2) hnew.1] at hc
      exact h.children_new x c hc hx

/-- What grows below a new node is new. -/
theorem trans_new (h : a.Grown b i) (h' : b.Grown d c) (hc : a.size ≤ c) : a.Grown d i where
  linked := h'.linked
  size_le := Nat.le_trans h.size_le h'.size_le
  children_eq x hx hxi := by
    have hxc : x ≠ c := Nat.ne_of_lt (Nat.lt_of_lt_of_le hx hc)
    rw [h'.children_eq x (Nat.lt_of_lt_of_le hx h.size_le) hxc, h.children_eq x hx hxi]
  children_new x k hk hx := by
    by_cases hnew : x = c ∨ b.size ≤ x
    · rcases h'.children_new x k hk hnew with hle | ⟨rfl, hkc⟩
      · exact .inl (Nat.le_trans h.size_le hle)
      · exact h.children_new x k hkc hx
    · rw [not_or] at hnew
      rw [h'.children_eq x (Nat.not_le.mp hnew.2) hnew.1] at hk
      exact h.children_new x k hk hx

/-- A new root is appended. -/
theorem addChild (h : a.Grown b i) (hi : i < a.size) (hc : a.size ≤ c) (hcb : c < b.size)
    (hroot : (b.node c).parent = none) (hic : ¬ b.Within i c) : a.Grown (b.addChild i c) i := by
  have hib : i < b.size := Nat.lt_of_lt_of_le hi h.size_le
  obtain ⟨hlinked, hkids⟩ := h.linked.addChild hib hcb hroot hic
  refine ⟨hlinked, size_addChild.symm ▸ h.size_le, fun x hx hxi => ?_, fun x k hk hx => ?_⟩
  · rw [hkids, Function.update_of_ne hxi, h.children_eq x hx hxi]
  · rw [hkids] at hk
    by_cases hxi : x = i
    · subst hxi
      rw [Function.update_self, List.mem_append, List.mem_singleton] at hk
      rcases hk with hk | rfl
      · exact h.children_new x k hk hx
      · exact .inl hc
    · rw [Function.update_of_ne hxi] at hk
      exact h.children_new x k hk hx

end Grown

/-- Making a node grows nothing below any node. -/
theorem Linked.grown_make (ha : a.Linked) (i : NodeId) (label : String) (kind : Kind)
    (left right : Nat) : a.Grown (a.make label kind left right).2 i := by
  obtain ⟨hlinked, hkids⟩ := ha.of_sameLinks (sameLinks_make a label kind left right)
  have hrefl := Grown.refl ha i
  refine ⟨hlinked, by simp, fun x _ _ => by rw [hkids], fun x c hc hx => ?_⟩
  rw [hkids] at hc
  exact hrefl.children_new x c hc hx

theorem Linked.grown_makeSymbol (ha : a.Linked) (i : NodeId) (symbols : SymbolTable)
    (label left right : Nat) : a.Grown (a.makeSymbol symbols label left right).2 i ∧
      a.size < (a.makeSymbol symbols label left right).2.size := by
  refine ⟨ha.grown_make i _ _ left right, ?_⟩
  rw [makeSymbol, size_make]
  exact Nat.lt_succ_self _

/-- A node is made, something is built below it, and then it may be appended. -/
theorem Grown.part (h : a.Grown b i) (hi : i < a.size) {label : String} {kind : Kind}
    {left right : Nat} (hd : (b.make label kind left right).2.Grown d b.size) :
    a.Grown d i ∧ a.Grown (d.addChild i b.size) i := by
  have hmake : b.Grown (b.make label kind left right).2 i :=
    h.linked.grown_make i label kind left right
  have hsize : (b.make label kind left right).2.size = b.size + 1 := size_make ..
  have hlt : b.size < (b.make label kind left right).2.size := hsize ▸ Nat.lt_succ_self _
  have hib : i < b.size := Nat.lt_of_lt_of_le hi h.size_le
  have hgrown : a.Grown d i := (h.trans hmake).trans_new hd h.size_le
  obtain ⟨hroot, hout⟩ := h.linked.fresh (sameLinks_make b label kind left right) hib
  refine ⟨hgrown, hgrown.addChild hi h.size_le (Nat.lt_of_lt_of_le hlt hd.size_le) ?_ fun hin => ?_⟩
  · exact hd.root hmake.linked hlt hroot
  · exact hout (hd.within hmake.linked (Nat.lt_trans hib hlt) hin)

end Arena

namespace Forest

open Arena

variable {a b : Arena} {id : NodeId}

/-- What is built below `id` for one part, after what was built for the parts before it. -/
def expandPart (f : Forest) (symbols : SymbolTable) (n : Nat) (id : NodeId)
    (acc : Except DerivationError Unit × Arena) (part : Nat) :
    Except DerivationError Unit × Arena :=
  match acc with
  | (result, a) =>
    match result with
    | .error e => (.error e, a)
    | .ok () =>
      let part' := f.node part
      if symbols.kind part'.label = .intermediate then f.expand symbols n part id a
      else
        let (child, a) := a.makeSymbol symbols part'.label part'.left part'.right
        match f.expand symbols n part child a with
        | (.error e, a) => (.error e, a)
        | (.ok (), a) => (.ok (), a.addChild id child)

/-- The parts are built one after the other, up to the first failure. -/
theorem expand_succ (f : Forest) (symbols : SymbolTable) (n i : Nat) (id : NodeId) (a : Arena) :
    f.expand symbols (n + 1) i id a =
      if f.arity i = 0 then (.ok (), a)
      else
        match (f.activePacks i).head? with
        | none => (.error (.allSuppressed i), a)
        | some p => p.parts.foldl (f.expandPart symbols n id) (.ok (), a) := by
  rw [expand]
  split
  · rfl
  · cases (f.activePacks i).head? <;> rfl

section Part

variable {f : Forest} {symbols : SymbolTable} {n part : Nat}

theorem expandPart_of_intermediate (h : symbols.kind (f.node part).label = .intermediate) :
    f.expandPart symbols n id (.ok (), a) part = f.expand symbols n part id a :=
  if_pos h

/-- A part with a node of its own is appended when what is below it is built. -/
theorem expandPart_of_symbol (h : symbols.kind (f.node part).label ≠ .intermediate) :
    f.expandPart symbols n id (.ok (), a) part =
      let o := f.expand symbols n part a.size (a.makeSymbol symbols (f.node part).label
        (f.node part).left (f.node part).right).2
      (o.1, match o.1 with
        | .error _ => o.2
        | .ok () => o.2.addChild id a.size) := by
  rw [expandPart]
  dsimp only
  rw [if_neg h]
  have hroot : (a.makeSymbol symbols (f.node part).label (f.node part).left
      (f.node part).right).1 = a.size := rfl
  rw [hroot]
  split <;> next heq => rw [heq]

theorem expandPart_grown (result : Except DerivationError Unit) (ha : a.Linked) (hid : id < a.size)
    (ih : ∀ i {id : NodeId} {a : Arena}, a.Linked → id < a.size →
      a.Grown (f.expand symbols n i id a).2 id) :
    a.Grown (f.expandPart symbols n id (result, a) part).2 id := by
  cases result with
  | error e => exact .refl ha id
  | ok =>
    by_cases h : symbols.kind (f.node part).label = .intermediate
    · rw [expandPart_of_intermediate h]
      exact ih part ha hid
    · obtain ⟨hmake, hlt⟩ := ha.grown_makeSymbol a.size symbols (f.node part).label
        (f.node part).left (f.node part).right
      obtain ⟨hgrown, hadd⟩ := (Grown.refl ha id).part hid (ih part hmake.linked hlt)
      rw [expandPart_of_symbol h]
      dsimp only
      split
      · exact hgrown
      · exact hadd

end Part

/-- **What is built below a node grows there**, whether building succeeds or fails. -/
theorem expand_grown (f : Forest) (symbols : SymbolTable) (n i : Nat) (ha : a.Linked)
    (hid : id < a.size) : a.Grown (f.expand symbols n i id a).2 id := by
  induction n generalizing i id a with
  | zero => exact .refl ha id
  | succ n ih =>
    rw [expand_succ]
    split
    · exact .refl ha id
    split
    · exact .refl ha id
    next p _ =>
    let motive : Except DerivationError Unit × Arena → Prop := fun acc => a.Grown acc.2 id
    refine List.foldlRecOn (motive := motive) p.parts _ (.refl ha id) fun acc hacc part _ => ?_
    have hacc : a.Grown acc.2 id := hacc
    exact hacc.trans (expandPart_grown acc.1 hacc.linked
      (Nat.lt_of_lt_of_le hid hacc.size_le)
      fun i _ _ => ih i)

/-- The tree of a node is built from a new root. -/
theorem materialize_eq (f : Forest) (symbols : SymbolTable) (i : Nat) (a : Arena) :
    f.materialize symbols i a =
      let o := f.expand symbols (f.nodes.size + 1) i a.size (a.makeSymbol symbols (f.node i).label
        (f.node i).left (f.node i).right).2
      (o.1.map fun _ => a.size, o.2) :=
  rfl

theorem materialize_linked (f : Forest) (symbols : SymbolTable) (i : Nat) (ha : a.Linked) :
    (f.materialize symbols i a).2.Linked := by
  obtain ⟨hmake, hlt⟩ := ha.grown_makeSymbol a.size symbols (f.node i).label (f.node i).left
    (f.node i).right
  exact (f.expand_grown symbols (f.nodes.size + 1) i hmake.linked hlt).linked

end Forest

end ParseTree
