import ParseTree.Proofs.Repeating
import ParseTree.Proofs.Suppression

/-!
# The tree of the first derivation is one of the derivations

A count and the reduction to the first derivation go through the same forest, each in its own way:
the one sums over all active packs and remembers what it knows of a node, the other follows the
first active pack and builds what it meets again. What they have in common is `Derivation`, which a
count gives the number of, and of which a reduction that succeeds has built one.

`Derivation.tree` is the tree that a derivation stands for. A part whose symbol is an intermediate
one has no node there, and what it derives is put into the list of the node above. `Sprouts` follows
a reduction: the node at work has got further trees behind its children, and the trees that were
there are as they were.

Where links end, the links that are followed lead no further than there are inner nodes, so that a
reduction comes to its end before its bound does.

## Main results

* `Forest.Ends.expand_eq`, `Forest.Ends.expand_ne_endless`: building comes to its end.
* `Forest.expand_sprouts`: what is built below a node is what a derivation has there.
* `Forest.materialize_tree`: a tree that is built is the tree of a derivation.
* `Builder.filter_agrees_with_count`: reductions and counts agree.
-/

namespace ParseTree

open Arena

/-! ## Building comes to its end -/

namespace Forest

variable {f : Forest} {symbols : SymbolTable} {i j k m n part : Nat}

/-- Where no cycle can be reached, links end. -/
theorem ends_of_acyclic (h : ∀ j, f.Reaches i j → ¬ f.OnCycle j) : f.Ends i := by
  obtain ⟨hends, -⟩ | ⟨j, -, hj, hcycle⟩ := Counter.ends_or_exists_cycle f i
  · exact hends
  · exact absurd hcycle (h j hj)

open Classical in
/-- The number of nodes that are met from `i` on. -/
noncomputable def rank (f : Forest) (i : Nat) : Nat :=
  ((Finset.range f.nodes.size).filter fun j => f.Reaches i j).card

open Classical in
theorem rank_le_size (f : Forest) (i : Nat) : f.rank i ≤ f.nodes.size :=
  (Finset.card_filter_le ..).trans (Finset.card_range _).le

open Classical in
/-- From a part on, the node itself is not met again. -/
theorem Ends.rank_lt (h : f.Ends i) (hij : f.Leads i j) : f.rank j < f.rank i := by
  refine Finset.card_lt_card (Finset.ssubset_iff_subset_ne.mpr ⟨fun k hk => ?_, fun heq => ?_⟩)
  · obtain ⟨hk, hjk⟩ := Finset.mem_filter.mp hk
    exact Finset.mem_filter.mpr ⟨hk, .head hij hjk⟩
  · have hmem : i ∈ (Finset.range f.nodes.size).filter fun k => f.Reaches i k :=
      Finset.mem_filter.mpr ⟨Finset.mem_range.mpr (lt_size_of_arity_ne_zero hij.1), .refl⟩
    rw [← heq] at hmem
    have hji : f.Reaches j i := (Finset.mem_filter.mp hmem).2
    exact h.not_onCycle .refl (.head' hij hji)

theorem expandPart_congr (h : ∀ id a, f.expand symbols m part id a = f.expand symbols n part id a)
    (id : NodeId) (acc : Except DerivationError Unit × Arena) :
    f.expandPart symbols m id acc part = f.expandPart symbols n id acc part := by
  simp only [expandPart, h]

/-- **Building does not depend on its bound** where links end, once the bound is high enough. -/
theorem Ends.expand_eq (h : f.Ends i) (hm : f.rank i < m) (hn : f.rank i < n) (id : NodeId)
    (a : Arena) : f.expand symbols m i id a = f.expand symbols n i id a := by
  induction h generalizing m n id a with
  | intro i hacc ih =>
    have hends : f.Ends i := Acc.intro i hacc
    obtain ⟨m, rfl⟩ : ∃ m', m = m' + 1 := ⟨m - 1, by omega⟩
    obtain ⟨n, rfl⟩ : ∃ n', n = n' + 1 := ⟨n - 1, by omega⟩
    rw [expand_succ, expand_succ]
    split
    · rfl
    next hinner =>
    split
    · rfl
    next p hp =>
    refine List.foldl_ext _ _ _ fun acc part hpart => ?_
    have hlead : f.Leads i part := ⟨hinner, p, List.mem_of_mem_head? hp, hpart⟩
    have hlt := hends.rank_lt hlead
    exact expandPart_congr (ih part hlead (by omega) (by omega)) id acc

theorem expandPart_ne_endless {acc : Except DerivationError Unit × Arena}
    (h : ∀ id a, (f.expand symbols n part id a).1 ≠ .error (.endless k)) (id : NodeId)
    (hacc : acc.1 ≠ .error (.endless k)) :
    (f.expandPart symbols n id acc part).1 ≠ .error (.endless k) := by
  obtain ⟨result, a⟩ := acc
  cases result with
  | error e => exact hacc
  | ok =>
    by_cases hkind : symbols.kind (f.node part).label = .intermediate
    · rw [expandPart_of_intermediate hkind]
      exact h id a
    · rw [expandPart_of_symbol hkind]
      exact h _ _

/-- **Building ends** where links end. -/
theorem Ends.expand_ne_endless (h : f.Ends i) (hn : f.rank i < n) (id : NodeId) (a : Arena)
    (k : Nat) : (f.expand symbols n i id a).1 ≠ .error (.endless k) := by
  induction h generalizing n id a with
  | intro i hacc ih =>
    have hends : f.Ends i := Acc.intro i hacc
    obtain ⟨n, rfl⟩ : ∃ n', n = n' + 1 := ⟨n - 1, by omega⟩
    rw [expand_succ]
    split
    · exact nofun
    next hinner =>
    split
    · exact nofun
    next p hp =>
    let motive : Except DerivationError Unit × Arena → Prop := fun acc =>
      acc.1 ≠ .error (.endless k)
    refine List.foldlRecOn (motive := motive) p.parts _ (by exact nofun)
      fun acc hacc part hpart => ?_
    have hlead : f.Leads i part := ⟨hinner, p, List.mem_of_mem_head? hp, hpart⟩
    have hlt := hends.rank_lt hlead
    exact expandPart_ne_endless (ih part hlead (by omega)) id hacc

/-! ## The trees that derivations stand for -/

/-- What a tree node for forest node `i` shows. -/
def face (f : Forest) (symbols : SymbolTable) (i : Nat) : Face :=
  ⟨symbols.name (f.node i).label, symbols.kind (f.node i).label, (f.node i).left, (f.node i).right⟩

/-- What a part puts into the list of the node above it: a node with `below` underneath, or `below`
alone if its symbol is an intermediate one. -/
def listed (f : Forest) (symbols : SymbolTable) (part : Nat) (below : List (Rose Face)) :
    List (Rose Face) :=
  if symbols.kind (f.node part).label = .intermediate then below
  else [.node (f.face symbols part) below]

/-- The trees below the root of the tree that a derivation stands for. -/
def Derivation.branches (symbols : SymbolTable) : {i : Nat} → f.Derivation i → List (Rose Face)
  | _, .leaf _ => []
  | i, .inner _ k parts => (List.ofFn fun j =>
      f.listed symbols (f.activePacks i)[k].parts[j] ((parts j).branches symbols)).flatten

/-- **The tree that a derivation stands for**, with intermediate nodes flattened. -/
def Derivation.tree (symbols : SymbolTable) (d : f.Derivation i) : Rose Face :=
  .node (f.face symbols i) (d.branches symbols)

end Forest

/-! ## A tree that is being built -/

namespace Arena

variable {a b d : Arena} {id i x : NodeId} {trees trees' : List (Rose Face)}

/-- A tree that was there and that does not grow is as it was. -/
theorem Grown.rose_eq (h : a.Grown b i) (ha : a.Linked)
    (hface : ∀ y < a.size, (b.node y).face = (a.node y).face) (hx : x < a.size)
    (hix : ¬ a.Within i x) : b.rose Node.face x = a.rose Node.face x := by
  refine ha.rose_eq_of_children_eq h.linked fun y hy => ?_
  have hlt : y < a.size := lt_size_of_within hx hy
  exact ⟨hface y hlt, h.children_eq y hlt fun hyi => hix (hyi ▸ hy)⟩

/-- What is built below a new node is in a tree of its own, and adds nothing to another list. -/
theorem Grown.apart (ha : a.Linked) (hid : id < a.size) {label : String} {kind : Kind}
    {left right : Nat} (h : (a.make label kind left right).2.Grown d a.size) :
    (d.node a.size).parent = none ∧ ¬ d.Within id a.size ∧ d.children id = a.children id := by
  obtain ⟨hmake, hkids⟩ := ha.of_sameLinks (sameLinks_make a label kind left right)
  obtain ⟨hroot, hout⟩ := ha.fresh (sameLinks_make a label kind left right) hid
  have hlt : a.size < (a.make label kind left right).2.size := by simp
  have hidlt : id < (a.make label kind left right).2.size := Nat.lt_trans hid hlt
  refine ⟨h.root hmake hlt hroot, fun hin => hout (h.within hmake hidlt hin), ?_⟩
  rw [h.children_eq id hidlt (Nat.ne_of_lt hid), hkids]

/-- **Node `id` has got further trees** behind its children. -/
structure Sprouts (a b : Arena) (id : NodeId) (trees : List (Rose Face)) : Prop where
  grown : a.Grown b id
  face_eq : ∀ x < a.size, (b.node x).face = (a.node x).face
  trees_eq : (b.children id).map (b.rose Node.face) =
    (a.children id).map (a.rose Node.face) ++ trees

namespace Sprouts

theorem refl (ha : a.Linked) (id : NodeId) : a.Sprouts a id [] :=
  ⟨.refl ha id, fun _ _ => rfl, (List.append_nil _).symm⟩

theorem trans (h : a.Sprouts b id trees) (h' : b.Sprouts d id trees') :
    a.Sprouts d id (trees ++ trees') where
  grown := h.grown.trans h'.grown
  face_eq x hx := by
    rw [h'.face_eq x (Nat.lt_of_lt_of_le hx h.grown.size_le), h.face_eq x hx]
  trees_eq := by
    rw [h'.trees_eq, h.trees_eq, List.append_assoc]

/-- A node is made, and trees are put below it. -/
theorem rose_made (ha : a.Linked) {label : String} {kind : Kind} {left right : Nat}
    (h : (a.make label kind left right).2.Sprouts d a.size trees) :
    d.rose Node.face a.size = .node ⟨label, kind, left, right⟩ trees := by
  obtain ⟨-, hkids⟩ := ha.of_sameLinks (sameLinks_make a label kind left right)
  have hlt : a.size < (a.make label kind left right).2.size := by simp
  have hnil : (a.make label kind left right).2.children a.size = [] := by
    rw [hkids, ha.children_eq_nil (Nat.le_refl _)]
  rw [h.grown.linked.rose_eq, h.trees_eq, hnil, h.face_eq a.size hlt, node_make, if_pos rfl]
  rfl

/-- **A node is made, trees are put below it, and it is appended** as one tree. -/
theorem append (ha : a.Linked) (hid : id < a.size) {label : String} {kind : Kind}
    {left right : Nat} (h : (a.make label kind left right).2.Sprouts d a.size trees) :
    a.Sprouts (d.addChild id a.size) id [.node ⟨label, kind, left, right⟩ trees] := by
  have hlt : a.size < (a.make label kind left right).2.size := by simp
  have hle : (a.make label kind left right).2.size ≤ d.size := h.grown.size_le
  have hd : a.size < d.size := Nat.lt_of_lt_of_le hlt hle
  obtain ⟨hroot, hnot, hkept⟩ := h.grown.apart ha hid
  obtain ⟨hlinked, hkids⟩ := h.grown.linked.addChild (Nat.lt_trans hid hd) hd hroot hnot
  obtain ⟨-, hgrown⟩ := (Grown.refl ha id).part hid h.grown
  have hface (x : NodeId) : ((d.addChild id a.size).node x).face = (d.node x).face :=
    Node.linkFree_face.eq_of_content content_addChild
  have hold : ∀ x < a.size, ((d.addChild id a.size).node x).face = (a.node x).face := by
    intro x hx
    rw [hface, h.face_eq x (Nat.lt_trans hx hlt), node_make, if_neg (Nat.ne_of_lt hx)]
  -- node `id` is in none of the trees before the new one, which are those of its own children
  have hbefore : (a.children id).map ((d.addChild id a.size).rose Node.face) =
      (a.children id).map (a.rose Node.face) := by
    refine List.map_congr_left fun x hx => hgrown.rose_eq ha hold (ha.lt_size_of_mem hx) ?_
    exact fun hin => ha.acyclic id (hin.trans_below (.of_parent (ha.mem_children.mp hx)))
  have hlast : (d.addChild id a.size).rose Node.face a.size =
      .node ⟨label, kind, left, right⟩ trees := by
    rw [← rose_made ha h]
    refine h.grown.linked.rose_eq_of_children_eq hlinked fun y hy => ⟨hface y, ?_⟩
    have hne : y ≠ id := fun hyid => hnot (hyid ▸ hy)
    rw [hkids, Function.update_of_ne hne]
  refine ⟨hgrown, hold, ?_⟩
  rw [hkids, Function.update_self, hkept, List.map_append, hbefore, List.map_singleton, hlast]

end Sprouts

end Arena

/-! ## What is built is a derivation -/

namespace Forest

variable {f : Forest} {symbols : SymbolTable} {a : Arena} {i n part : Nat} {id : NodeId}

/-- For every node and below every tree node, building that succeeds gives what a derivation has. -/
def Chooses (f : Forest) (symbols : SymbolTable) (n : Nat) : Prop :=
  ∀ i {id : NodeId} {a : Arena}, a.Linked → id < a.size →
    (f.expand symbols n i id a).1 = .ok () →
      ∃ d : f.Derivation i, a.Sprouts (f.expand symbols n i id a).2 id (d.branches symbols)

/-- **One part** is put into the list. -/
theorem expandPart_sprouts (h : f.Chooses symbols n) (ha : a.Linked) (hid : id < a.size)
    (hok : (f.expandPart symbols n id (.ok (), a) part).1 = .ok ()) :
    ∃ d : f.Derivation part, a.Sprouts (f.expandPart symbols n id (.ok (), a) part).2 id
      (f.listed symbols part (d.branches symbols)) := by
  by_cases hkind : symbols.kind (f.node part).label = .intermediate
  · rw [expandPart_of_intermediate hkind] at hok ⊢
    obtain ⟨d, hd⟩ := h part ha hid hok
    refine ⟨d, ?_⟩
    rw [listed, if_pos hkind]
    exact hd
  · rw [expandPart_of_symbol hkind] at hok ⊢
    obtain ⟨hmake, hlt⟩ := ha.grown_makeSymbol a.size symbols (f.node part).label
      (f.node part).left (f.node part).right
    obtain ⟨d, hd⟩ := h part hmake.linked hlt hok
    dsimp only at hok ⊢
    rw [hok]
    refine ⟨d, ?_⟩
    rw [listed, if_neg hkind]
    exact Sprouts.append ha hid hd

/-- Nothing is built behind a failure. -/
theorem foldl_expandPart_error (l : List Nat) (e : DerivationError) (a : Arena) :
    l.foldl (f.expandPart symbols n id) (.error e, a) = (.error e, a) := by
  induction l with
  | nil => rfl
  | cons part l ih => exact ih

/-- **The parts of a pack** are put into the list one behind the other. -/
theorem foldl_expandPart_sprouts (h : f.Chooses symbols n) {l : List Nat} (ha : a.Linked)
    (hid : id < a.size) (hok : (l.foldl (f.expandPart symbols n id) (.ok (), a)).1 = .ok ()) :
    ∃ ds : ∀ j : Fin l.length, f.Derivation l[j],
      a.Sprouts (l.foldl (f.expandPart symbols n id) (.ok (), a)).2 id
        (List.ofFn fun j => f.listed symbols l[j] ((ds j).branches symbols)).flatten := by
  induction l generalizing a with
  | nil => exact ⟨fun j => j.elim0, .refl ha id⟩
  | cons part l ih =>
    rw [List.foldl_cons] at hok ⊢
    have hpart (hp : (f.expandPart symbols n id (.ok (), a) part).1 = .ok ()) :=
      expandPart_sprouts h ha hid hp
    generalize f.expandPart symbols n id (.ok (), a) part = o at hok hpart ⊢
    obtain ⟨result, b⟩ := o
    cases result with
    | error e =>
      rw [foldl_expandPart_error] at hok
      cases hok
    | ok =>
      obtain ⟨d, hd⟩ := hpart rfl
      have hidb : id < b.size := Nat.lt_of_lt_of_le hid hd.grown.size_le
      obtain ⟨ds, hds⟩ := ih hd.grown.linked hidb hok
      refine ⟨Fin.cases (motive := fun j => f.Derivation (part :: l)[j]) d ds, ?_⟩
      rw [List.ofFn_succ, List.flatten_cons]
      exact hd.trans hds

/-- **What is built below a node** is what a derivation has there. -/
theorem expand_sprouts (f : Forest) (symbols : SymbolTable) (n : Nat) : f.Chooses symbols n := by
  induction n with
  | zero => exact fun i id a _ _ hok => nomatch hok
  | succ n ih =>
    intro i id a ha hid hok
    rw [expand_succ] at hok ⊢
    split at hok
    · next hleaf =>
      rw [if_pos hleaf]
      exact ⟨.leaf hleaf, .refl ha id⟩
    next hinner =>
    rw [if_neg hinner]
    split at hok
    · cases hok
    next p hp =>
    have hpos : 0 < (f.activePacks i).length :=
      List.length_pos_of_mem (List.mem_of_mem_head? hp)
    have hfirst : (f.activePacks i)[0] = p := by
      rw [← Option.some.injEq, ← List.getElem?_eq_getElem hpos, ← List.head?_eq_getElem?, hp]
    subst hfirst
    obtain ⟨ds, hds⟩ := foldl_expandPart_sprouts ih ha hid hok
    exact ⟨.inner hinner ⟨0, hpos⟩ ds, hds⟩

/-- **A tree that is built** is the tree of a derivation. -/
theorem materialize_tree (f : Forest) (symbols : SymbolTable) (i : Nat) (ha : a.Linked)
    (hok : (f.materialize symbols i a).1 = .ok id) :
    id = a.size ∧ ∃ d : f.Derivation i,
      (f.materialize symbols i a).2.rose Node.face id = d.tree symbols := by
  obtain ⟨hmake, hlt⟩ := ha.grown_makeSymbol a.size symbols (f.node i).label (f.node i).left
    (f.node i).right
  have hchooses := f.expand_sprouts symbols (f.nodes.size + 1) i hmake.linked hlt
  rw [materialize_eq] at hok ⊢
  dsimp only at hok ⊢
  generalize f.expand symbols (f.nodes.size + 1) i a.size (a.makeSymbol symbols (f.node i).label
    (f.node i).left (f.node i).right).2 = o at hok hchooses ⊢
  obtain ⟨result, b⟩ := o
  cases result with
  | error e => cases hok
  | ok =>
    obtain rfl : a.size = id := Except.ok.inj hok
    obtain ⟨d, hd⟩ := hchooses rfl
    exact ⟨rfl, d, Sprouts.rose_made ha hd⟩

/-- **Reducing comes to its end** where links end. -/
theorem Ends.materialize_ne_endless (h : f.Ends i) (a : Arena) (k : Nat) :
    (f.materialize symbols i a).1 ≠ .error (.endless k) := by
  have hbound : f.rank i < f.nodes.size + 1 := Nat.lt_succ_of_le (f.rank_le_size i)
  have hend : (f.expand symbols (f.nodes.size + 1) i a.size (a.makeSymbol symbols (f.node i).label
      (f.node i).left (f.node i).right).2).1 ≠ .error (.endless k) :=
    h.expand_ne_endless hbound _ _ k
  rw [materialize_eq]
  dsimp only
  generalize (f.expand symbols (f.nodes.size + 1) i a.size (a.makeSymbol symbols (f.node i).label
    (f.node i).left (f.node i).right).2).1 = result at hend ⊢
  intro herror
  cases result with
  | error e => exact hend (by cases herror; rfl)
  | ok => cases herror

end Forest

/-! ## Builders -/

namespace Builder

variable {σ : Type} {b : Builder σ DerivationError} {symbols : SymbolTable} {root : Nat}
  {id : NodeId}

/-- **A builder reduces to a derivation**, whatever is in its arena, or fails as building the first
derivation does. -/
theorem filter_first (hroot : b.forest.accepted = some root)
    (hρ : b.reduction = firstDerivation symbols) :
    (∃ e, (b.forest.materialize symbols root b.arena).1 = .error e ∧
      b.filter.result = .error (.reduction e)) ∨
    ∃ id, b.filter.result = .ok id ∧ ∃ d : b.forest.Derivation root,
      b.filter.builder.arena.rose Node.face id = d.tree symbols := by
  have haccepted : b.forest.accepted ≠ none := by simp [hroot]
  have hreduce : b.reduction.reduce b.forest b.input b.arena =
      b.forest.materialize symbols root b.arena := by
    rw [hρ]
    show b.forest.materialize symbols (b.forest.accepted.getD 0) b.arena = _
    rw [hroot]
    rfl
  -- the tree is built as in an empty arena, behind what is there
  have happend := b.forest.materialize_append symbols root linked_empty b.arena
  rw [append_empty] at happend
  obtain ⟨haside, hlt, -⟩ := b.forest.materialize_aside symbols root linked_empty
  have htree (r : NodeId) (hr : (b.forest.materialize symbols root {}).1 = .ok r) :=
    b.forest.materialize_tree symbols root linked_empty hr
  generalize b.forest.materialize symbols root {} = o at happend haside hlt htree
  obtain ⟨result, d⟩ := o
  cases result with
  | error e =>
    rw [happend] at hreduce
    refine .inl ⟨e, ?_, (filter_of_error haccepted hreduce).1⟩
    rw [happend]
    rfl
  | ok r =>
    obtain ⟨rfl, derivation, hderivation⟩ := htree r rfl
    have hclone := haside.linked.cloneSubtree (Arena.size {})
    rw [happend] at hreduce
    obtain ⟨hresult, hbuilder⟩ := filter_of_ok haccepted hreduce
    refine .inr ⟨_, hresult, derivation, ?_⟩
    rw [hbuilder, ← hderivation]
    dsimp only
    rw [haside.linked.cloneSubtree_append b.arena hlt]
    dsimp only
    rw [hclone.linked.rose_append, hclone.aside.rose_eq haside.linked hlt]

/-- A count of the remaining derivations where links end. -/
theorem remainingDerivations_of_ends (hroot : b.forest.accepted = some root)
    (hends : b.forest.Ends root) :
    b.remainingDerivations.result = .ok (Nat.card (b.forest.Derivation root)) := by
  rw [remainingDerivations, Forest.count, Counter.count]
  dsimp only
  rw [hroot]
  exact Counter.result_of_ends hends {}

/-- **Reductions and counts agree.** If no cycle can be reached from the root of an accepted forest,
reducing to the first derivation comes to its end, and so does counting. If reducing gives a tree,
the tree is that of a derivation, and the count is not zero. If the count is zero, reducing fails at
a node without an active pack. If it is one and reducing gives a tree, the tree is that of the only
derivation. -/
theorem filter_agrees_with_count (hroot : b.forest.accepted = some root)
    (hρ : b.reduction = firstDerivation symbols)
    (hacyclic : ∀ i, b.forest.Reaches root i → ¬ b.forest.OnCycle i) :
    (∀ n id a, b.forest.nodes.size < n →
      b.forest.expand symbols n root id a =
        b.forest.expand symbols (b.forest.nodes.size + 1) root id a ∧
      ∀ i, (b.forest.expand symbols n root id a).1 ≠ .error (.endless i)) ∧
    (∀ i, b.filter.result ≠ .error (.reduction (.endless i))) ∧
    ∃ count, b.remainingDerivations.result = .ok count ∧
      (∀ id, b.filter.result = .ok id → 1 ≤ count ∧ ∃ d : b.forest.Derivation root,
        b.filter.builder.arena.rose Node.face id = d.tree symbols) ∧
      (count = 0 → ∃ i, b.filter.result = .error (.reduction (.allSuppressed i))) ∧
      (count = 1 → ∀ id, b.filter.result = .ok id → ∀ d : b.forest.Derivation root,
        b.filter.builder.arena.rose Node.face id = d.tree symbols) := by
  have hends : b.forest.Ends root := Forest.ends_of_acyclic hacyclic
  have hcount := remainingDerivations_of_ends hroot hends
  have hle := b.forest.rank_le_size root
  refine ⟨fun n id a hn => ⟨?_, ?_⟩, ?_⟩
  · exact hends.expand_eq (Nat.lt_of_le_of_lt hle hn) (Nat.lt_succ_of_le hle) id a
  · exact hends.expand_ne_endless (Nat.lt_of_le_of_lt hle hn) id a
  obtain ⟨e, he, hresult⟩ | ⟨r, hresult, d, hd⟩ := filter_first hroot hρ
  · have hno : ∀ id, b.filter.result ≠ .ok id := by simp [hresult]
    refine ⟨fun i hi => ?_, _, hcount, fun id hid => absurd hid (hno id), fun _ => ?_,
      fun _ id hid => absurd hid (hno id)⟩
    · rw [hresult] at hi
      obtain rfl : e = .endless i := BuildError.reduction.inj (Except.error.inj hi)
      exact hends.materialize_ne_endless b.arena i he
    · cases e with
      | allSuppressed i => exact ⟨i, hresult⟩
      | endless i => exact absurd he (hends.materialize_ne_endless b.arena i)
  · have hfinite : Finite (b.forest.Derivation root) := hends.finite
    have hnonempty : Nonempty (b.forest.Derivation root) := ⟨d⟩
    have hpos : 0 < Nat.card (b.forest.Derivation root) := Nat.card_pos
    have htree : ∀ id, b.filter.result = .ok id →
        b.filter.builder.arena.rose Node.face id = d.tree symbols := by
      intro id hid
      obtain rfl : r = id := Except.ok.inj (hresult.symm.trans hid)
      exact hd
    refine ⟨by simp [hresult], _, hcount, fun id hid => ⟨hpos, d, htree id hid⟩,
      fun hzero => absurd hzero hpos.ne', fun hone id hid d' => ?_⟩
    obtain ⟨hunique, -⟩ := Nat.card_eq_one_iff_unique.mp hone
    rw [htree id hid, hunique.elim d d']

/-! ### A shared leaf -/

/-- Names and kinds for `flattenedForest`. -/
def flattenedSymbols : SymbolTable where
  symbols := #[("s", .nonTerminal), ("a", .terminal), ("i", .intermediate)]

/-- A forest whose root has an intermediate part, with a leaf that both have for a part. The first
pack of the part is suppressed. But for that it would close a cycle through the root. -/
def flattenedForest : Forest where
  nodes := #[⟨1, 0, 1, true, #[]⟩, ⟨2, 0, 2, false, #[0, 1]⟩, ⟨0, 0, 3, false, #[2]⟩]
  packs := #[⟨none, 2, true⟩, ⟨some 0, 0, false⟩, ⟨some 1, 0, false⟩]
  accepted := some 2

/-- A builder for `flattenedForest`. -/
def flattening : Builder Unit DerivationError where
  forest := flattenedForest
  reduction := firstDerivation flattenedSymbols
  scheme := .ofTable (.ofEntries [])
  state := ()

theorem ends_flattenedForest : ∀ i < 3, flattenedForest.Ends i :=
  Forest.ends_of_parts_lt (by decide)

theorem card_derivation_flattenedForest : Nat.card (flattenedForest.Derivation 2) = 1 := by
  have hleaf : Nat.card (flattenedForest.Derivation 0) = 1 := Forest.card_derivation_leaf rfl
  have hpart : Nat.card (flattenedForest.Derivation 1) = 1 := by
    rw [Forest.card_derivation_inner (by decide) (ends_flattenedForest 1 (by decide)),
      show flattenedForest.activePacks 1 = [⟨some 0, 0, false⟩] by rfl]
    simp [Forest.packCard, Pack.parts, hleaf]
  rw [Forest.card_derivation_inner (by decide) (ends_flattenedForest 2 (by decide)),
    show flattenedForest.activePacks 2 = [⟨some 1, 0, false⟩] by rfl]
  simp [Forest.packCard, Pack.parts, hleaf, hpart]

/-- The only derivation of the leaf of `flattenedForest`. -/
def leafDerivation : flattenedForest.Derivation 0 :=
  .leaf rfl

/-- The only derivation of `flattenedForest`. -/
def flattenedDerivation : flattenedForest.Derivation 2 :=
  let part : flattenedForest.Derivation 1 :=
    .inner (by decide) ⟨0, by decide⟩ fun
      | ⟨0, _⟩ => leafDerivation
      | ⟨1, _⟩ => leafDerivation
  .inner (by decide) ⟨0, by decide⟩ fun
    | ⟨0, _⟩ => part
    | ⟨1, _⟩ => leafDerivation

/-- The leaf is shown three times, without a node for the intermediate part. -/
theorem filter_agrees_with_count_flattened :
    flattening.forest.accepted = some 2 ∧
      (∀ i, flattening.forest.Reaches 2 i → ¬ flattening.forest.OnCycle i) ∧
      flattening.filter.result = .ok 0 ∧
      flattening.filter.builder.arena.rose Node.face 0 =
        .node ⟨"s", .nonTerminal, 0, 3⟩
          (List.replicate 3 (.node ⟨"a", .terminal, 0, 1⟩ [])) := by
  have hacyclic : ∀ i, flattening.forest.Reaches 2 i → ¬ flattening.forest.OnCycle i :=
    fun i => (ends_flattenedForest 2 (by decide)).not_onCycle
  have hfilter : flattening.filter.result = .ok 0 := by rfl
  obtain ⟨-, -, count, hcount, -, -, hone⟩ :=
    filter_agrees_with_count (rfl : flattening.forest.accepted = some 2)
      (rfl : flattening.reduction = firstDerivation flattenedSymbols) hacyclic
  have hcard : flattening.remainingDerivations.result = _ :=
    remainingDerivations_of_ends rfl (ends_flattenedForest 2 (by decide))
  rw [show Nat.card (flattening.forest.Derivation 2) = 1 from card_derivation_flattenedForest]
    at hcard
  obtain rfl : count = 1 := Except.ok.inj (hcount.symm.trans hcard)
  exact ⟨rfl, hacyclic, hfilter, hone rfl 0 hfilter flattenedDerivation⟩

end Builder

end ParseTree
