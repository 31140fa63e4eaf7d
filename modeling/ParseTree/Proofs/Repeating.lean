import ParseTree.Proofs.BuilderTrees
import ParseTree.Proofs.TreeStrings
import ParseTree.Proofs.WalkBehind

/-!
# A builder repeats itself

Nodes and tear stores of earlier calls stay in the arena, and none of them shows. What a call makes
is put behind what is there, and it is what the call makes in an empty arena. So a builder that is
asked for the same tree again gives the same tree again, at other slots.

A call is compared with the same call in an empty arena, and not with the call before it. In an
empty arena there is nothing that an edit could find.

## Main results

* `Forest.materialize_append`: the first derivation behind an arena.
* `Builder.generateAst_append`: both stages behind an arena.
* `Builder.generateAst_repeats`: any number of calls.
-/

namespace ParseTree

open Arena

/-! ## Roses -/

theorem Arena.face_append (a b : Arena) (i : NodeId) :
    ((a ++ b).node (a.size + i)).face = (b.node i).face :=
  read_append a b i fun _ => rfl

theorem Arena.Linked.roseWithin_append {b : Arena} (hb : b.Linked) (a : Arena) (n : Nat)
    (i : NodeId) :
    (a ++ b).roseWithin Node.face n (a.size + i) = b.roseWithin Node.face n i := by
  induction n generalizing i with
  | zero => rw [roseWithin, roseWithin, face_append]
  | succ n ih =>
    rw [roseWithin, roseWithin, face_append, hb.children_append, List.map_map]
    exact congrArg _ (List.map_congr_left fun c _ => ih c)

/-- A subtree shows the same behind `a`, whatever is there. -/
theorem Arena.Linked.rose_append {b : Arena} (hb : b.Linked) (a : Arena) (i : NodeId) :
    (a ++ b).rose Node.face (a.size + i) = b.rose Node.face i := by
  have hle : b.weight i ≤ b.size := weight_le_size b i
  rw [rose, hb.roseWithin_append, size_append]
  exact hb.roseWithin_eq (Nat.le_trans hle (Nat.le_add_left ..)) hle

/-! ## The first derivation -/

theorem Arena.makeSymbol_append (a b : Arena) (symbols : SymbolTable) (label left right : Nat) :
    ((a ++ b).makeSymbol symbols label left right).2 =
      a ++ (b.makeSymbol symbols label left right).2 :=
  make_append a b _ _ left right

namespace Forest

variable {b : Arena} {id : NodeId}

theorem expandPart_append {f : Forest} {symbols : SymbolTable} {n : Nat}
    (result : Except DerivationError Unit) (part : Nat) (hb : b.Linked) (hid : id < b.size)
    (a : Arena)
    (ih : ∀ i {id : NodeId} {b : Arena}, b.Linked → id < b.size →
      f.expand symbols n i (a.size + id) (a ++ b) =
        ((f.expand symbols n i id b).1, a ++ (f.expand symbols n i id b).2)) :
    f.expandPart symbols n (a.size + id) (result, a ++ b) part =
      ((f.expandPart symbols n id (result, b) part).1,
        a ++ (f.expandPart symbols n id (result, b) part).2) := by
  cases result with
  | error e => rfl
  | ok =>
    by_cases h : symbols.kind (f.node part).label = .intermediate
    · rw [expandPart_of_intermediate h, expandPart_of_intermediate h]
      exact ih part hb hid
    · obtain ⟨hmake, hlt⟩ := hb.grown_makeSymbol b.size symbols (f.node part).label
        (f.node part).left (f.node part).right
      obtain ⟨hroot, -⟩ := hb.fresh (sameLinks_make b (symbols.name (f.node part).label)
        (symbols.kind (f.node part).label) (f.node part).left (f.node part).right) hid
      have hgrown := f.expand_grown symbols n part hmake.linked hlt
      have hbehind := ih part hmake.linked hlt
      rw [expandPart_of_symbol h, expandPart_of_symbol h]
      dsimp only
      rw [makeSymbol_append, size_append, hbehind]
      dsimp only
      cases (f.expand symbols n part b.size (b.makeSymbol symbols (f.node part).label
        (f.node part).left (f.node part).right).2).1 with
      | error e => rfl
      | ok =>
        dsimp only
        rw [hgrown.linked.addChild_append a id (Nat.lt_of_lt_of_le hlt hgrown.size_le)
          (hgrown.root hmake.linked hlt hroot)]

/-- **What is built below a node** is the same behind `a`. -/
theorem expand_append (f : Forest) (symbols : SymbolTable) (n i : Nat) (hb : b.Linked)
    (hid : id < b.size) (a : Arena) :
    f.expand symbols n i (a.size + id) (a ++ b) =
      ((f.expand symbols n i id b).1, a ++ (f.expand symbols n i id b).2) := by
  induction n generalizing i id b with
  | zero => rfl
  | succ n ih =>
    rw [expand_succ, expand_succ]
    split
    · rfl
    split
    · rfl
    next p _ =>
    generalize p.parts = parts, (.ok () : Except DerivationError Unit) = result
    induction parts generalizing result b with
    | nil => rfl
    | cons part parts ihparts =>
      have hgrown : b.Grown (f.expandPart symbols n id (result, b) part).2 id :=
        expandPart_grown result hb hid fun i _ _ => f.expand_grown symbols n i
      rw [List.foldl_cons, List.foldl_cons,
        expandPart_append result part hb hid a fun i _ _ hb hid => ih i hb hid]
      exact ihparts hgrown.linked (Nat.lt_of_lt_of_le hid hgrown.size_le) _

/-- **The first derivation** of a node is the same behind `a`. -/
theorem materialize_append (f : Forest) (symbols : SymbolTable) (i : Nat) (hb : b.Linked)
    (a : Arena) :
    f.materialize symbols i (a ++ b) =
      ((f.materialize symbols i b).1.map (a.size + ·), a ++ (f.materialize symbols i b).2) := by
  obtain ⟨hmake, hlt⟩ := hb.grown_makeSymbol b.size symbols (f.node i).label (f.node i).left
    (f.node i).right
  have hexpand := f.expand_append symbols (f.nodes.size + 1) i hmake.linked hlt a
  rw [materialize_eq, materialize_eq]
  dsimp only
  rw [makeSymbol_append, size_append, hexpand]
  dsimp only
  refine Prod.ext ?_ rfl
  dsimp only
  cases (f.expand symbols (f.nodes.size + 1) i b.size (b.makeSymbol symbols (f.node i).label
    (f.node i).left (f.node i).right).2).1 <;> rfl

theorem isStored_of_expandPart {f : Forest} {symbols : SymbolTable} {n part : Nat} {x : NodeId}
    (result : Except DerivationError Unit)
    (ih : ∀ {i : Nat} {id : NodeId} {b : Arena}, (f.expand symbols n i id b).2.IsStored x →
      b.IsStored x)
    (hx : (f.expandPart symbols n id (result, b) part).2.IsStored x) : b.IsStored x := by
  cases result with
  | error e => exact hx
  | ok =>
    by_cases h : symbols.kind (f.node part).label = .intermediate
    · rw [expandPart_of_intermediate h] at hx
      exact ih hx
    · rw [expandPart_of_symbol h] at hx
      dsimp only at hx
      split at hx
      · exact isStored_of_make (ih hx)
      · exact isStored_of_make (ih (isStored_of_stores_eq stores_addChild x hx))

/-- Building stores nothing. -/
theorem isStored_of_expand {f : Forest} {symbols : SymbolTable} {n i : Nat} {x : NodeId}
    (hx : (f.expand symbols n i id b).2.IsStored x) : b.IsStored x := by
  induction n generalizing i id b with
  | zero => exact hx
  | succ n ih =>
    rw [expand_succ] at hx
    split at hx
    · exact hx
    split at hx
    · exact hx
    next p _ =>
    generalize p.parts = parts, (.ok () : Except DerivationError Unit) = result at hx
    induction parts generalizing result b with
    | nil => exact hx
    | cons part parts ihparts =>
      rw [List.foldl_cons] at hx
      exact isStored_of_expandPart result ih (ihparts _ hx)

/-- The first derivation is built in a well-formed arena. -/
theorem materialize_wellFormed (f : Forest) (symbols : SymbolTable) (i : Nat) (hb : b.WellFormed) :
    (f.materialize symbols i b).2.WellFormed := by
  obtain ⟨haside, -⟩ := f.materialize_aside symbols i hb.linked
  refine ⟨haside.linked, fun x hx => ?_⟩
  rw [materialize_eq] at hx
  obtain ⟨hlt, hroot⟩ := hb.stored x (isStored_of_make (isStored_of_expand hx))
  exact ⟨Nat.lt_of_lt_of_le hlt haside.size_le, by rw [haside.node_eq x hlt, hroot]⟩

end Forest

namespace Builder

/-! ## Both stages -/

variable {ε : Type} {b : Builder Unit ε} {symbols : SymbolTable}

/-- The builder as it was made, with the rule table that it has now. -/
def fresh (b : Builder Unit ε) : Builder Unit ε :=
  { b with arena := {}, input := "", derivationRoot := none, astRoot := none }

theorem reduction_of_fresh {b b' : Builder Unit ε} (h : b'.fresh = b.fresh) :
    b'.reduction = b.reduction := by
  show b'.fresh.reduction = b.fresh.reduction
  rw [h]

theorem fresh_toAst (b : Builder Unit ε) : b.toAst.builder.fresh = b.fresh := by
  cases hroot : b.astRoot with
  | none => rw [(toAst_of_astRoot_none hroot).2]
  | some root =>
    obtain ⟨w, -, hbuilder⟩ := toAst_builder hroot
    rw [hbuilder]
    rfl

theorem fresh_filter (b : Builder Unit ε) : b.filter.builder.fresh = b.fresh := by
  unfold filter
  split
  · rfl
  · split <;> rfl

/-- What a call leaves behind is only in the arena, apart from input and roots. -/
theorem fresh_generateAst (b : Builder Unit ε) (input : String) :
    (b.generateAst input).builder.fresh = b.fresh := by
  cases hresult : (b.setInput input).filter.result with
  | error e =>
    rw [(generateAst_of_error hresult).2, fresh_filter]
    rfl
  | ok root =>
    rw [(generateAst_of_ok hresult).2, fresh_toAst, fresh_filter]
    rfl

/-- Two builders that differ in roots and arena at most, of which the second has `a` in front. -/
structure Behind (a : Arena) (b b' : Builder Unit ε) : Prop where
  fresh_eq : b'.fresh = b.fresh
  input_eq : b'.input = b.input
  arena_eq : b'.arena = a ++ b.arena

namespace Behind

variable {a : Arena} {b b' : Builder Unit DerivationError}

theorem forest_eq (h : Behind a b b') : b'.forest = b.forest := by
  show b'.fresh.forest = b.fresh.forest
  rw [h.fresh_eq]

theorem scheme_eq (h : Behind a b b') : b'.scheme = b.scheme := by
  show b'.fresh.scheme = b.fresh.scheme
  rw [h.fresh_eq]

/-- **Reducing** behind `a`. -/
theorem filter (h : Behind a b b') (hb : b.arena.WellFormed)
    (hρ : b.reduction = firstDerivation symbols) :
    b'.filter.result = b.filter.result.map (a.size + ·) ∧
      Behind a b.filter.builder b'.filter.builder ∧ b.filter.builder.arena.WellFormed ∧
        ∀ r, b.filter.result = .ok r → ∃ s < b.filter.builder.arena.size,
          b.filter.builder.astRoot = some s ∧ b'.filter.builder.astRoot = some (a.size + s) := by
  have hfresh : b'.filter.builder.fresh = b.filter.builder.fresh := by
    rw [fresh_filter, fresh_filter, h.fresh_eq]
  by_cases haccepted : b.forest.accepted = none
  · obtain ⟨hresult, hbuilder⟩ := filter_of_not_accepted haccepted
    obtain ⟨hresult', hbuilder'⟩ :=
      filter_of_not_accepted (b := b') (by rw [h.forest_eq, haccepted])
    rw [hresult, hresult', hbuilder, hbuilder']
    exact ⟨rfl, h, hb, fun r hr => by cases hr⟩
  · have haccepted' : b'.forest.accepted ≠ none := by rwa [h.forest_eq]
    have hreduce : b.reduction.reduce b.forest b.input b.arena =
        b.forest.materialize symbols (b.forest.accepted.getD 0) b.arena := by
      rw [hρ]
      rfl
    have hreduce' : b'.reduction.reduce b'.forest b'.input b'.arena =
        b.forest.materialize symbols (b.forest.accepted.getD 0) (a ++ b.arena) := by
      rw [reduction_of_fresh h.fresh_eq, h.forest_eq, h.arena_eq, hρ]
      rfl
    obtain ⟨-, hroot⟩ := firstDerivation_buildsAside symbols b.forest b.input hb.linked
    rw [← hρ, hreduce] at hroot
    have hwell := b.forest.materialize_wellFormed symbols (b.forest.accepted.getD 0) hb
    rw [b.forest.materialize_append symbols _ hb.linked a] at hreduce'
    match ho : b.forest.materialize symbols (b.forest.accepted.getD 0) b.arena with
    | (.error e, d) =>
      rw [ho] at hreduce hreduce' hwell
      obtain ⟨hresult, hbuilder⟩ := filter_of_error haccepted hreduce
      obtain ⟨hresult', hbuilder'⟩ := filter_of_error haccepted' hreduce'
      rw [hresult, hresult']
      refine ⟨rfl, ⟨hfresh, ?_, ?_⟩, ?_, fun r hr => by cases hr⟩
      · rw [hbuilder, hbuilder']
        exact h.input_eq
      · rw [hbuilder, hbuilder']
      · rw [hbuilder]
        exact hwell
    | (.ok r, d) =>
      rw [ho] at hreduce hreduce' hwell hroot
      obtain ⟨-, hr, -⟩ := hroot r rfl
      obtain ⟨hresult, hbuilder⟩ := filter_of_ok haccepted hreduce
      obtain ⟨hresult', hbuilder'⟩ := filter_of_ok haccepted' hreduce'
      rw [hresult, hresult']
      refine ⟨rfl, ⟨hfresh, ?_, ?_⟩, ?_, fun r' _ => ⟨d.size, ?_, ?_, ?_⟩⟩
      · rw [hbuilder, hbuilder']
        exact h.input_eq
      · rw [hbuilder, hbuilder']
        exact hwell.linked.cloneSubtree_append a hr
      · rw [hbuilder]
        exact hwell.cloneSubtree r
      · rw [hbuilder]
        exact (hwell.linked.cloneSubtree r).size_lt
      · rw [hbuilder]
      · rw [hbuilder', size_append]

/-- **Transforming** behind `a`. -/
theorem toAst (h : Behind a b b') (hb : b.arena.WellFormed) (hb' : b'.IsReady) {s : NodeId}
    (hs : s < b.arena.size) (hroot : b.astRoot = some s)
    (hroot' : b'.astRoot = some (a.size + s)) :
    b'.toAst.result = b.toAst.result.map (a.size + ·) ∧
      Behind a b.toAst.builder b'.toAst.builder := by
  obtain ⟨table, hscheme⟩ := hb'.scheme
  have hready : b.IsReady := ⟨hb.linked, table, h.scheme_eq ▸ hscheme⟩
  obtain ⟨w, hw, hbuilder⟩ := toAst_builder hroot
  obtain ⟨w', hw', hbuilder'⟩ := toAst_builder hroot'
  have harena : w'.arena = a ++ w.arena := by
    rw [hw, hw', ← h.scheme_eq, h.input_eq, h.arena_eq, hscheme]
    exact table.walk_append b.input hb hs a
  rw [hready.toAst_result hroot, hb'.toAst_result hroot']
  refine ⟨rfl, ?_, ?_, ?_⟩
  · rw [fresh_toAst, fresh_toAst, h.fresh_eq]
  · rw [hbuilder, hbuilder']
    exact h.input_eq
  · rw [hbuilder, hbuilder']
    exact harena

/-- **Both stages** behind `a`. -/
theorem generateAst {input : String} (h : Behind a (b.setInput input) (b'.setInput input))
    (hb : b.arena.WellFormed) (hb' : b'.IsSound) (hρ : b.reduction = firstDerivation symbols) :
    (b'.generateAst input).result = (b.generateAst input).result.map (a.size + ·) ∧
      Behind a (b.generateAst input).builder (b'.generateAst input).builder := by
  obtain ⟨hresult, hbehind, hwell, hroots⟩ := h.filter hb hρ
  have hready : (b'.setInput input).filter.builder.IsSound :=
    IsSound.filter ⟨⟨hb'.linked, hb'.scheme⟩, hb'.reduction⟩
  cases ho : (b.setInput input).filter.result with
  | error e =>
    rw [ho] at hresult
    obtain ⟨hr, hbuilder⟩ := generateAst_of_error ho
    obtain ⟨hr', hbuilder'⟩ := generateAst_of_error hresult
    rw [hr, hr', hbuilder, hbuilder']
    exact ⟨rfl, hbehind⟩
  | ok r =>
    obtain ⟨s, hs, hroot, hroot'⟩ := hroots r ho
    rw [ho] at hresult
    obtain ⟨hr, hbuilder⟩ := generateAst_of_ok ho
    obtain ⟨hr', hbuilder'⟩ := generateAst_of_ok hresult
    rw [hr, hr', hbuilder, hbuilder']
    exact hbehind.toAst hwell hready.toIsReady hs hroot hroot'

end Behind

/-- **A call** does what it does in an empty arena, behind what is there. -/
theorem generateAst_append {b : Builder Unit DerivationError} (hb : b.IsSound)
    (hρ : b.reduction = firstDerivation symbols) (input : String) :
    (b.generateAst input).result = (b.fresh.generateAst input).result.map (b.arena.size + ·) ∧
      (b.generateAst input).builder.arena =
        b.arena ++ (b.fresh.generateAst input).builder.arena := by
  have hbehind : Behind b.arena (b.fresh.setInput input) (b.setInput input) :=
    ⟨rfl, rfl, (append_empty b.arena).symm⟩
  obtain ⟨hresult, h⟩ := hbehind.generateAst wellFormed_empty hb hρ
  exact ⟨hresult, h.arena_eq⟩

/-! ## Any number of calls -/

/-- **The outcomes are the same**: the same error, or syntax trees of the same shape that show the
same at every node, and so look the same when they are drawn, serialized or counted. -/
structure SameOutcome (o o' : StageOutcome Unit ε) : Prop where
  error : ∀ e, o.result = .error e → o'.result = .error e
  tree : ∀ r, o.result = .ok r → ∃ r', o'.result = .ok r' ∧ o'.builder.astRoot = some r' ∧
    o'.builder.arena.rose Node.face r' = o.builder.arena.rose Node.face r ∧
    o'.builder.astString = o.builder.astString ∧
    o'.builder.arena.serialize r' = o.builder.arena.serialize r ∧
    o'.builder.arena.countNodes r' = o.builder.arena.countNodes r

theorem IsReady.toAst_astRoot {r : NodeId} (hb : b.IsReady) (h : b.toAst.result = .ok r) :
    b.toAst.builder.astRoot = some r := by
  cases hroot : b.astRoot with
  | none =>
    rw [(toAst_of_astRoot_none hroot).1] at h
    cases h
  | some root =>
    obtain rfl : root = r := Except.ok.inj ((hb.toAst_result hroot).symm.trans h)
    obtain ⟨w, -, hbuilder⟩ := toAst_builder hroot
    rw [hbuilder]
    exact hroot

theorem IsSound.generateAst_astRoot {input : String} {r : NodeId} (hb : b.IsSound)
    (h : (b.generateAst input).result = .ok r) :
    (b.generateAst input).builder.astRoot = some r := by
  have hfilter : (b.setInput input).filter.builder.IsSound :=
    IsSound.filter ⟨⟨hb.linked, hb.scheme⟩, hb.reduction⟩
  cases ho : (b.setInput input).filter.result with
  | error e =>
    rw [(generateAst_of_error ho).1] at h
    cases h
  | ok root =>
    obtain ⟨hr, hbuilder⟩ := generateAst_of_ok ho
    rw [hr] at h
    rw [hbuilder, hfilter.toAst_astRoot h]

section Calls

variable {b b' : Builder Unit DerivationError} {input : String} {r : NodeId}

/-- The syntax tree that a call makes behind what is there. -/
theorem generateAst_shows (hb : b.IsSound) (hρ : b.reduction = firstDerivation symbols)
    (h : (b.fresh.generateAst input).result = .ok r) :
    (b.generateAst input).result = .ok (b.arena.size + r) ∧
      b.arena.size + r < (b.generateAst input).builder.arena.size ∧
      (b.generateAst input).builder.arena.rose Node.face (b.arena.size + r) =
        (b.fresh.generateAst input).builder.arena.rose Node.face r := by
  have hfresh : b.fresh.IsSound := ⟨⟨linked_empty, hb.scheme⟩, hb.reduction⟩
  have htrees : b.fresh.HasTrees none := ⟨hfresh.toIsReady, .inl ⟨rfl, rfl, rfl⟩⟩
  have haside : b.fresh.reduction.BuildsAside := hρ ▸ firstDerivation_buildsAside symbols
  have hlt : r < (b.fresh.generateAst input).builder.arena.size :=
    (htrees.generateAst haside input).lt_size (.inr (hfresh.generateAst_astRoot h))
  obtain ⟨hresult, harena⟩ := generateAst_append hb hρ input
  rw [h] at hresult
  rw [harena]
  refine ⟨hresult, ?_, (hfresh.generateAst input).1.linked.rose_append b.arena r⟩
  rw [size_append]
  exact Nat.add_lt_add_left hlt _

/-- Builders that differ only in input, roots and what they have in the arena give the same. -/
theorem generateAst_same (hb : b.IsSound) (hb' : b'.IsSound)
    (hρ : b.reduction = firstDerivation symbols) (hfresh : b'.fresh = b.fresh) (input : String) :
    SameOutcome (b.generateAst input) (b'.generateAst input) := by
  have hρ' : b'.reduction = firstDerivation symbols := (reduction_of_fresh hfresh).trans hρ
  obtain ⟨hresult, -⟩ := generateAst_append hb hρ input
  obtain ⟨hresult', -⟩ := generateAst_append hb' hρ' input
  rw [hfresh] at hresult'
  cases ho : (b.fresh.generateAst input).result with
  | error e =>
    rw [ho] at hresult hresult'
    refine ⟨fun e' he => ?_, fun r hr => ?_⟩
    · rw [hresult'.trans hresult.symm, he]
    · rw [hresult] at hr
      cases hr
  | ok r =>
    obtain ⟨hok, hlt, hrose⟩ := generateAst_shows hb hρ ho
    obtain ⟨hok', hlt', hrose'⟩ := generateAst_shows hb' hρ' (hfresh.symm ▸ ho)
    rw [hfresh, ← hrose] at hrose'
    have hlinked := (hb.generateAst input).1.linked
    have hlinked' := (hb'.generateAst input).1.linked
    have hroot := hb.generateAst_astRoot hok
    have hroot' := hb'.generateAst_astRoot hok'
    refine ⟨fun e he => ?_, fun x hx => ⟨_, hok', hroot', ?_⟩⟩
    · rw [hok] at he
      cases he
    · obtain rfl : b.arena.size + r = x := Except.ok.inj (hok.symm.trans hx)
      refine ⟨hrose', ?_, hlinked'.serialize_eq hlinked hlt' hlt hrose',
        hlinked'.countNodes_eq_of_rose hlinked hrose'⟩
      rw [astString, astString, hroot, hroot']
      exact hlinked'.treeString_eq hlinked hrose'

theorem fresh_calls (b : Builder Unit DerivationError) (input : String) (k : Nat) :
    (b.calls (List.replicate k (.generateAst input))).fresh = b.fresh := by
  induction k generalizing b with
  | zero => rfl
  | succ k ih => exact (ih (b.generateAst input).builder).trans (fresh_generateAst b input)

/-- No call exchanges the reduction. -/
theorem calls_reduction (b : Builder Unit ε) (cs : List Call) :
    (b.calls cs).reduction = b.reduction := by
  induction cs generalizing b with
  | nil => rfl
  | cons c cs ih =>
    refine (ih (b.call c)).trans ?_
    cases c with
    | setInput input => rfl
    | setTable table => rfl
    | filter => exact reduction_of_fresh (fresh_filter b)
    | toAst => exact reduction_of_fresh (fresh_toAst b)
    | generateAst input => exact reduction_of_fresh (fresh_generateAst b input)

/-- **A builder repeats itself.** After any calls, let a forest be reduced to its first derivation
and transformed, over and over again with the same input. Every time the arena of before stays in
front with all its nodes and tear stores, and the same arena is put behind it. So every time gives
what the first time gave: the same error, or a syntax tree that shows the same. -/
theorem generateAst_repeats (forest : Forest) (symbols : SymbolTable) (table : RuleTable)
    (config : BuilderConfig) (cs : List Call) (input : String) :
    let start : Builder Unit DerivationError :=
      ⟨forest, firstDerivation symbols, Scheme.ofTable table, (), config, {}, "", none, none⟩
    let b := start.calls cs
    ∃ made : Arena, ∀ k,
      let before := b.calls (List.replicate k (.generateAst input))
      (before.generateAst input).builder.arena = before.arena ++ made ∧
        SameOutcome (b.generateAst input) (before.generateAst input) := by
  intro start b
  have hb : b.IsSound := (IsSound.of_empty (firstDerivation_keepsLinked symbols) table).calls cs
  have hρ : b.reduction = firstDerivation symbols := calls_reduction start cs
  refine ⟨(b.fresh.generateAst input).builder.arena, fun k => ?_⟩
  intro before
  have hbefore : before.IsSound := hb.calls _
  have hfresh : before.fresh = b.fresh := fresh_calls b input k
  have hρ' : before.reduction = firstDerivation symbols := (calls_reduction b _).trans hρ
  refine ⟨?_, generateAst_same hb hbefore hρ hfresh input⟩
  rw [(generateAst_append hbefore hρ' input).2, hfresh]

end Calls

end Builder

end ParseTree
