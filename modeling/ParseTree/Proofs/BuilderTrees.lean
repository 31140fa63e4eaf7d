import ParseTree.Proofs.CloneShape
import ParseTree.Proofs.Enclosure
import ParseTree.Proofs.Stages

/-!
# The trees of a builder

A builder keeps two roots, that of the derivation tree and that of the syntax tree, and both trees
are in one arena. What keeps them apart is that both are trees of their own: a reduction builds its
tree aside, the copy is a clone, and a walk below one root stays below it.

A reduction may keep a state, so that it need not do the same thing twice. Nothing is asked of it
but that it builds aside, and calls may each have a reduction of their own.

## Main results

* `firstDerivation_buildsAside`: the first derivation is built aside.
* `Builder.HasTrees.filter`, `Builder.HasTrees.toAst`: what the stages do to the two trees.
* `Builder.trees_of_turns`: after any calls.
-/

namespace ParseTree

namespace Arena

variable {α : Type} {a b d : Arena} {f : Node → α} {r s x : NodeId}

/-! ## Building aside -/

/-- Arena `b` has new nodes, and those that were there are as they were. -/
structure Aside (a b : Arena) : Prop where
  linked : b.Linked
  size_le : a.size ≤ b.size
  node_eq : ∀ x < a.size, b.node x = a.node x

theorem Extension.aside (h : a.Extension b) : a.Aside b :=
  ⟨h.linked, Nat.le_of_lt h.size_lt, h.node_eq⟩

theorem lt_size_of_within (hr : r < a.size) (hx : a.Within x r) : x < a.size := by
  rcases within_iff.mp hx with rfl | hx
  · exact hr
  · exact hx.lt_size

/-- Trees that were there are as they were. -/
theorem Aside.rose_eq (h : a.Aside b) (ha : a.Linked) (hr : r < a.size) :
    b.rose f r = a.rose f r :=
  ha.rose_eq_of_node_eq h.linked fun x hx => h.node_eq x (lt_size_of_within hr hx)

/-- Two trees of the arena. -/
structure Apart (a : Arena) (r s : NodeId) : Prop where
  left_lt : r < a.size
  right_lt : s < a.size
  left_root : (a.node r).parent = none
  right_root : (a.node s).parent = none
  ne : r ≠ s

namespace Apart

theorem aside (h : a.Apart r s) (hb : a.Aside b) : b.Apart r s where
  left_lt := Nat.lt_of_lt_of_le h.left_lt hb.size_le
  right_lt := Nat.lt_of_lt_of_le h.right_lt hb.size_le
  left_root := by rw [hb.node_eq r h.left_lt, h.left_root]
  right_root := by rw [hb.node_eq s h.right_lt, h.right_root]
  ne := h.ne

/-- No node is in both trees. -/
theorem not_within (h : a.Apart r s) (hr : a.Within x r) : ¬ a.Within x s := by
  intro hs
  rcases hr.total hs with hrs | hsr
  · exact h.ne (hrs.eq_of_root h.left_root)
  · exact h.ne (hsr.eq_of_root h.right_root).symm

/-- What is around the second tree includes the first one. -/
theorem mem_around (h : a.Apart r s) (hr : a.Within x r) :
    x ∈ {x | x < a.size ∧ ¬ a.Within x s} :=
  ⟨lt_size_of_within h.left_lt hr, h.not_within hr⟩

theorem around (h : a.Apart r s) (hb : a.Around b {x | x < a.size ∧ ¬ a.Within x s} s) :
    b.Apart r s where
  left_lt := Nat.lt_of_lt_of_le h.left_lt hb.size_le
  right_lt := Nat.lt_of_lt_of_le h.right_lt hb.size_le
  left_root := by rw [hb.node_eq r (h.mem_around (.refl a r)), h.left_root]
  right_root := by rw [(Node.fields_of_rim hb.rim_eq).2.2.2.1, h.right_root]
  ne := h.ne

end Apart

/-- A clone of a tree is another tree. -/
theorem Extension.apart (h : a.Extension b) (hr : r < a.size) (hroot : (a.node r).parent = none) :
    b.Apart r a.size where
  left_lt := Nat.lt_trans hr h.size_lt
  right_lt := h.size_lt
  left_root := by rw [h.node_eq r hr, hroot]
  right_root := h.root
  ne := Nat.ne_of_lt hr

end Arena

open Arena

/-- **A reduction that builds aside** makes nodes and links them. If it succeeds, it gives the root
of a tree of new nodes. -/
def Reduction.BuildsAside {ε : Type} (ρ : Reduction ε) : Prop :=
  ∀ (forest : Forest) (input : String) {a : Arena}, a.Linked →
    a.Aside (ρ.reduce forest input a).2 ∧
      ∀ root, (ρ.reduce forest input a).1 = .ok root →
        a.size ≤ root ∧ root < (ρ.reduce forest input a).2.size ∧
          ((ρ.reduce forest input a).2.node root).parent = none

/-! ## The first derivation -/

namespace Forest

variable {a : Arena} {T : Set NodeId} {id : NodeId}

/-- What is built for one part below a node outside a sealed set stays outside. -/
theorem expandPart_frames {f : Forest} {symbols : SymbolTable} {n part : Nat}
    (result : Except DerivationError Unit) (h : a.Sealed T) (hid : id ∉ T)
    (ih : ∀ i {id : NodeId} {a : Arena}, a.Sealed T → id ∉ T →
      a.Frames (f.expand symbols n i id a).2 T) :
    a.Frames (f.expandPart symbols n id (result, a) part).2 T := by
  cases result with
  | error e => exact h.refl
  | ok =>
    by_cases hkind : symbols.kind (f.node part).label = .intermediate
    · rw [expandPart_of_intermediate hkind]
      exact ih part h hid
    · have hpart : a.Frames (f.expand symbols n part a.size (a.makeSymbol symbols
          (f.node part).label (f.node part).left (f.node part).right).2).2 T :=
        (h.make _ _ _ _).bind fun hmake => ih part hmake h.size_not_mem
      rw [expandPart_of_symbol hkind]
      dsimp only
      split
      · exact hpart
      · exact hpart.bind fun hs => hs.addChild hid h.size_not_mem

/-- What is built below a node outside a sealed set stays outside. -/
theorem expand_frames (f : Forest) (symbols : SymbolTable) (n i : Nat) (h : a.Sealed T)
    (hid : id ∉ T) : a.Frames (f.expand symbols n i id a).2 T := by
  induction n generalizing i id a with
  | zero => exact h.refl
  | succ n ih =>
    rw [expand_succ]
    split
    · exact h.refl
    split
    · exact h.refl
    next p _ =>
    let motive : Except DerivationError Unit × Arena → Prop := fun acc => a.Frames acc.2 T
    refine List.foldlRecOn (motive := motive) p.parts _ h.refl fun acc hacc part _ => ?_
    have hacc : a.Frames acc.2 T := hacc
    exact hacc.bind fun hs => expandPart_frames acc.1 hs hid fun i _ _ => ih i

/-- The tree of a node is built aside, from the first new node. -/
theorem materialize_aside (f : Forest) (symbols : SymbolTable) (i : Nat) (ha : a.Linked) :
    a.Aside (f.materialize symbols i a).2 ∧ a.size < (f.materialize symbols i a).2.size ∧
      ((f.materialize symbols i a).2.node a.size).parent = none := by
  obtain ⟨hmake, hlt⟩ := ha.grown_makeSymbol a.size symbols (f.node i).label (f.node i).left
    (f.node i).right
  have hnode := node_make a (symbols.name (f.node i).label) (symbols.kind (f.node i).label)
    (f.node i).left (f.node i).right
  rw [materialize_eq]
  dsimp only
  rw [← makeSymbol] at hnode
  generalize (a.makeSymbol symbols (f.node i).label (f.node i).left (f.node i).right).2 = b
    at hmake hlt hnode ⊢
  have hroot : (b.node a.size).parent = none := by rw [hnode, if_pos rfl]
  -- New nodes have no links yet, so that the old ones are out of reach.
  have hsealed : b.Sealed {x | x < a.size} := by
    refine ⟨fun x hx => Nat.lt_trans hx hlt, fun x hx => ?_⟩
    rw [hnode]
    split
    · exact Node.avoids_of_unlinked rfl rfl rfl rfl
    · rw [node_of_size_le (Nat.le_of_not_lt hx)]
      exact Node.avoids_of_unlinked rfl rfl rfl rfl
  have hgrown := f.expand_grown symbols (f.nodes.size + 1) i hmake.linked hlt
  have hframes := f.expand_frames symbols (f.nodes.size + 1) i hsealed (Nat.lt_irrefl a.size)
  refine ⟨⟨hgrown.linked, ?_, fun x hx => ?_⟩, ?_, hgrown.root hmake.linked hlt hroot⟩
  · exact Nat.le_trans hmake.size_le hgrown.size_le
  · rw [hframes.node_eq x hx, hnode, if_neg (Nat.ne_of_lt hx)]
  · exact Nat.lt_of_lt_of_le hlt hgrown.size_le

end Forest

theorem firstDerivation_buildsAside (symbols : SymbolTable) :
    (firstDerivation symbols).BuildsAside := by
  intro f input a ha
  obtain ⟨haside, hlt, hroot⟩ := f.materialize_aside symbols (f.accepted.getD 0) ha
  refine ⟨haside, fun root hok => ?_⟩
  have hmap : ∀ {r : Except DerivationError Unit}, (r.map fun _ => a.size) = .ok root →
      root = a.size := by
    rintro (e | _) hr
    · cases hr
    · exact (Except.ok.inj hr).symm
  obtain rfl := hmap hok
  exact ⟨Nat.le_refl _, hlt, hroot⟩

namespace Builder

variable {ε : Type} {b : Builder Unit ε} {last : Option (Rose Face)} {root : NodeId}

/-! ## The stages -/

/-- The tree that the reduction makes of the forest, as it returns it, if it does. -/
def reducedTree (b : Builder Unit ε) (input : String) : Option (Rose Face) :=
  if b.forest.accepted.isNone then none
  else
    match b.reduction.reduce b.forest input b.arena with
    | (.error _, _) => none
    | (.ok root, a) => some (a.rose Node.face root)

/-- The tree that a call reduces the forest to, if it does. -/
def reducedBy (b : Builder Unit ε) : Call → Option (Rose Face)
  | .filter => b.reducedTree b.input
  | .generateAst input => b.reducedTree input
  | .setInput _ | .setTable _ | .toAst => none

/-- The roots of a builder are both set, and then belong to two trees, of which the first is `last`;
or neither is set. -/
structure HasTrees (b : Builder Unit ε) (last : Option (Rose Face)) : Prop extends b.IsReady where
  roots : b.derivationRoot = none ∧ b.astRoot = none ∧ last = none ∨
    ∃ r s, b.derivationRoot = some r ∧ b.astRoot = some s ∧ b.arena.Apart r s ∧
      last = some (b.arena.rose Node.face r)

/-- Reducing fails and leaves nodes behind at most, or it makes a new pair of trees. -/
theorem filter_cases (hb : b.arena.Linked) (hρ : b.reduction.BuildsAside) :
    (∃ e a, b.filter.result = .error e ∧ b.arena.Aside a ∧
      b.filter.builder = { b with arena := a } ∧ b.reducedTree b.input = none) ∨
    ∃ r a, b.filter.result = .ok r ∧ b.arena.Aside a ∧ r < a.size ∧ (a.node r).parent = none ∧
      b.filter.builder = { b with
        arena := (a.cloneSubtree r).2, derivationRoot := some r, astRoot := some a.size } ∧
      b.reducedTree b.input = some (a.rose Node.face r) := by
  by_cases haccepted : b.forest.accepted.isNone = true
  · have hrefl : b.arena.Aside b.arena := ⟨hb, Nat.le_refl _, fun _ _ => rfl⟩
    obtain ⟨hresult, hbuilder⟩ := filter_of_not_accepted (Option.isNone_iff_eq_none.mp haccepted)
    refine .inl ⟨_, b.arena, hresult, hrefl, hbuilder, ?_⟩
    rw [reducedTree, if_pos haccepted]
  · obtain ⟨haside, hroot⟩ := hρ b.forest b.input hb
    rw [filter, reducedTree, if_neg haccepted, if_neg haccepted]
    rcases ho : b.reduction.reduce b.forest b.input b.arena with ⟨e | r, a⟩ <;>
      rw [ho] at haside hroot
    · exact .inl ⟨_, a, rfl, haside, rfl, rfl⟩
    · obtain ⟨-, hlt, hparent⟩ := hroot r rfl
      exact .inr ⟨r, a, rfl, haside, hlt, hparent, rfl, rfl⟩

/-- The builders have the same roots, and the same trees below them. -/
structure SameTrees (b b' : Builder Unit ε) : Prop where
  derivationRoot : b'.derivationRoot = b.derivationRoot
  astRoot : b'.astRoot = b.astRoot
  rose_eq : ∀ r, b.derivationRoot = some r ∨ b.astRoot = some r →
    b'.arena.rose Node.mark r = b.arena.rose Node.mark r

namespace HasTrees

/-- Both roots are nodes. -/
theorem lt_size (h : b.HasTrees last) (hr : b.derivationRoot = some root ∨ b.astRoot = some root) :
    root < b.arena.size := by
  rcases h.roots with ⟨hr', hs', -⟩ | ⟨r, s, hr', hs', hapart, -⟩
  · simp [hr', hs'] at hr
  · rw [hr', hs', Option.some.injEq, Option.some.injEq] at hr
    rcases hr with rfl | rfl
    · exact hapart.left_lt
    · exact hapart.right_lt

/-- **Reducing** makes a new pair of trees, or leaves the pair that is there. -/
theorem filter (h : b.HasTrees last) (hρ : b.reduction.BuildsAside) :
    b.filter.builder.HasTrees ((b.reducedTree b.input).or last) := by
  rcases filter_cases h.linked hρ with
    ⟨e, a, -, haside, hbuilder, hnone⟩ | ⟨r, a, -, haside, hlt, hroot, hbuilder, hsome⟩
  · rw [hbuilder, hnone, Option.none_or]
    refine ⟨⟨haside.linked, h.scheme⟩, ?_⟩
    rcases h.roots with hnone | ⟨r, s, hr, hs, hapart, hlast⟩
    · exact .inl hnone
    · exact .inr ⟨r, s, hr, hs, hapart.aside haside, by
        rw [haside.rose_eq h.linked hapart.left_lt, hlast]⟩
  · have hclone : a.Extension (a.cloneSubtree r).2 := haside.linked.cloneSubtree r
    rw [hbuilder, hsome, Option.some_or]
    refine ⟨⟨hclone.linked, h.scheme⟩, .inr ⟨r, a.size, rfl, rfl, hclone.apart hlt hroot, ?_⟩⟩
    rw [hclone.aside.rose_eq haside.linked hlt]

/-- **Transforming** works on the second tree only. -/
theorem toAst (h : b.HasTrees last) : b.toAst.builder.HasTrees last := by
  obtain ⟨table, hscheme⟩ := h.scheme
  rcases h.roots with ⟨hr, hs, hlast⟩ | ⟨r, s, hr, hs, hapart, hlast⟩
  · rw [(toAst_of_astRoot_none hs).2]
    exact ⟨h.toIsReady, .inl ⟨hr, hs, hlast⟩⟩
  · have haround : b.arena.Around (walk b.scheme b.input b.arena s b.state).arena
        {x | x < b.arena.size ∧ ¬ b.arena.Within x s} s := by
      rw [hscheme]
      exact table.around_walk b.input h.linked hapart.right_lt
    obtain ⟨w, hw, hbuilder⟩ := toAst_builder hs
    rw [← hw] at haround
    rw [hbuilder]
    refine ⟨⟨haround.linked, table, hscheme⟩, .inr ⟨r, s, hr, hs, hapart.around haround, ?_⟩⟩
    rw [hlast]
    refine congrArg some (h.linked.rose_eq_of_node_eq haround.linked fun x hx => ?_).symm
    exact haround.node_eq x (hapart.mem_around hx)

theorem generateAst (h : b.HasTrees last) (hρ : b.reduction.BuildsAside) (input : String) :
    (b.generateAst input).builder.HasTrees ((b.reducedTree input).or last) := by
  have hinput : (b.setInput input).HasTrees last := ⟨⟨h.linked, h.scheme⟩, h.roots⟩
  have hfilter := hinput.filter hρ
  cases hresult : (b.setInput input).filter.result with
  | error e =>
    rw [(generateAst_of_error hresult).2]
    exact hfilter
  | ok root =>
    rw [(generateAst_of_ok hresult).2]
    exact hfilter.toAst

/-- After a reduction, the second tree is a copy of the first. -/
theorem filter_copies (h : b.HasTrees last) (hρ : b.reduction.BuildsAside)
    (hok : b.filter.result = .ok root) :
    ∃ s, b.filter.builder.derivationRoot = some root ∧ b.filter.builder.astRoot = some s ∧
      root ≠ s ∧
      b.filter.builder.arena.rose Node.mark s = b.filter.builder.arena.rose Node.mark root := by
  rcases filter_cases h.linked hρ with
    ⟨e, a, hresult, -⟩ | ⟨r, a, hresult, haside, hlt, -, hbuilder, -⟩
  · rw [hresult] at hok
    cases hok
  · obtain rfl : r = root := Except.ok.inj (hresult.symm.trans hok)
    have hclone : a.Extension (a.cloneSubtree r).2 := haside.linked.cloneSubtree r
    rw [hbuilder]
    refine ⟨a.size, rfl, rfl, Nat.ne_of_lt hlt, ?_⟩
    rw [haside.linked.rose_cloneSubtree hlt, hclone.aside.rose_eq haside.linked hlt]

/-- A reduction that fails leaves both trees. -/
theorem filter_sameTrees (h : b.HasTrees last) (hρ : b.reduction.BuildsAside)
    {e : BuildError ε} (hno : b.filter.result = .error e) : b.SameTrees b.filter.builder := by
  rcases filter_cases h.linked hρ with
    ⟨-, a, -, haside, hbuilder, -⟩ | ⟨r, a, hresult, -⟩
  · rw [hbuilder]
    exact ⟨rfl, rfl, fun r hr => haside.rose_eq h.linked (h.lt_size hr)⟩
  · rw [hresult] at hno
    cases hno

/-- Reducing and transforming at once fails only where reducing does. -/
theorem generateAst_sameTrees (h : b.HasTrees last) (hρ : b.reduction.BuildsAside)
    {input : String} {e : BuildError ε} (hno : (b.generateAst input).result = .error e) :
    b.SameTrees (b.generateAst input).builder := by
  have hinput : (b.setInput input).HasTrees last := ⟨⟨h.linked, h.scheme⟩, h.roots⟩
  rcases filter_cases hinput.linked hρ with
    ⟨e', -, hresult, -⟩ | ⟨r, a, hresult, -, -, -, hbuilder, -⟩
  · rw [(generateAst_of_error hresult).2]
    have hsame := hinput.filter_sameTrees hρ hresult
    exact ⟨hsame.derivationRoot, hsame.astRoot, hsame.rose_eq⟩
  · have hready : (b.setInput input).filter.builder.IsReady := (hinput.filter hρ).toIsReady
    have hroot : (b.setInput input).filter.builder.astRoot = some a.size := by rw [hbuilder]
    rw [(generateAst_of_ok hresult).1, hready.toAst_result hroot] at hno
    cases hno

/-- **Every call** keeps the two trees apart, and the first as it was reduced. -/
theorem call (h : b.HasTrees last) (hρ : b.reduction.BuildsAside) (c : Call) :
    (b.call c).HasTrees ((b.reducedBy c).or last) := by
  cases c with
  | setInput input => exact ⟨⟨h.linked, h.scheme⟩, h.roots⟩
  | setTable table => exact ⟨⟨h.linked, table, rfl⟩, h.roots⟩
  | filter => exact h.filter hρ
  | toAst => exact h.toAst
  | generateAst input => exact h.generateAst hρ input

end HasTrees

/-! ## Any calls -/

/-- A call for which the reduction is as given. -/
def turn (b : Builder Unit ε) (t : Reduction ε × Call) : Builder Unit ε :=
  { b with reduction := t.1 }.call t.2

/-- The builder after a list of calls. -/
def turns (b : Builder Unit ε) (ts : List (Reduction ε × Call)) : Builder Unit ε :=
  ts.foldl turn b

/-- The tree that the last successful reduction of a list of calls returned, as it returned it;
`last` if there is none. -/
def lastReduced (b : Builder Unit ε) (last : Option (Rose Face)) :
    List (Reduction ε × Call) → Option (Rose Face)
  | [] => last
  | t :: ts =>
    (b.turn t).lastReduced (({ b with reduction := t.1 }.reducedBy t.2).or last) ts

theorem HasTrees.turns (h : b.HasTrees last) {ts : List (Reduction ε × Call)}
    (hts : ∀ t ∈ ts, t.1.BuildsAside) : (b.turns ts).HasTrees (b.lastReduced last ts) := by
  induction ts generalizing b last with
  | nil => exact h
  | cons t ts ih =>
    have hturn : (b.turn t).HasTrees (({ b with reduction := t.1 }.reducedBy t.2).or last) :=
      call (b := { b with reduction := t.1 }) ⟨⟨h.linked, h.scheme⟩, h.roots⟩
        (hts t List.mem_cons_self) t.2
    exact ih hturn fun t ht => hts t (List.mem_cons_of_mem _ ht)

/-- **The two trees of a builder.** After any calls, failing ones among them, with rule tables and
with reductions that build aside, there is a derivation tree exactly if there is a syntax tree. They
have different roots and no node in common. The derivation tree is the tree that the last successful
reduction returned, as it returned it. If the forest is reduced now, the syntax tree is a copy of
the derivation tree; if that fails, both trees stay. -/
theorem trees_of_turns (forest : Forest) (ρ : Reduction ε) (table : RuleTable)
    (config : BuilderConfig) {ts : List (Reduction ε × Call)} (hts : ∀ t ∈ ts, t.1.BuildsAside) :
    let start : Builder Unit ε :=
      ⟨forest, ρ, Scheme.ofTable table, (), config, {}, "", none, none⟩
    let b := start.turns ts
    (b.derivationRoot.isSome = b.astRoot.isSome ∧
      ∀ r s, b.derivationRoot = some r → b.astRoot = some s →
        r ≠ s ∧ ∀ x, b.arena.Within x r → ¬ b.arena.Within x s) ∧
    b.derivationRoot.map (b.arena.rose Node.face) = start.lastReduced none ts ∧
    ∀ ρ' : Reduction ε, ρ'.BuildsAside →
      let now : Builder Unit ε := { b with reduction := ρ' }
      (∀ r, now.filter.result = .ok r → ∃ s, now.filter.builder.derivationRoot = some r ∧
        now.filter.builder.astRoot = some s ∧ r ≠ s ∧
          now.filter.builder.arena.rose Node.mark s = now.filter.builder.arena.rose Node.mark r) ∧
      (∀ e, now.filter.result = .error e → b.SameTrees now.filter.builder) ∧
      ∀ input e, (now.generateAst input).result = .error e →
        b.SameTrees (now.generateAst input).builder := by
  intro start b
  have hb : b.HasTrees (start.lastReduced none ts) :=
    HasTrees.turns ⟨⟨linked_empty, table, rfl⟩, .inl ⟨rfl, rfl, rfl⟩⟩ hts
  refine ⟨?_, ?_, fun ρ' hρ' => ?_⟩
  · rcases hb.roots with ⟨hr, hs, -⟩ | ⟨r, s, hr, hs, hapart, -⟩
    · simp [hr, hs]
    · rw [hr, hs]
      refine ⟨rfl, fun r' s' hr' hs' => ?_⟩
      obtain rfl : r = r' := Option.some.inj hr'
      obtain rfl : s = s' := Option.some.inj hs'
      exact ⟨hapart.ne, fun x => hapart.not_within⟩
  · rcases hb.roots with ⟨hr, -, hlast⟩ | ⟨r, s, hr, -, -, hlast⟩
    · rw [hr, hlast]
      rfl
    · rw [hr, hlast]
      rfl
  · intro now
    have hnow : now.HasTrees (start.lastReduced none ts) := ⟨⟨hb.linked, hb.scheme⟩, hb.roots⟩
    refine ⟨fun r hok => hnow.filter_copies hρ' hok, fun e hno => ?_, fun input e hno => ?_⟩
    · have hsame := hnow.filter_sameTrees hρ' hno
      exact ⟨hsame.derivationRoot, hsame.astRoot, hsame.rose_eq⟩
    · have hsame := hnow.generateAst_sameTrees hρ' hno
      exact ⟨hsame.derivationRoot, hsame.astRoot, hsame.rose_eq⟩

/-- A reduction that makes a node and then fails. -/
def halfway : Reduction DerivationError where
  reduce _ _ a := (.error (.endless 0), (a.make "half" .nonTerminal 0 0).2)
  message := DerivationError.message

theorem halfway_buildsAside : halfway.BuildsAside := by
  intro forest input a ha
  have hmake := ha.grown_make a.size "half" .nonTerminal 0 0
  refine ⟨⟨hmake.linked, hmake.size_le, fun x hx => ?_⟩, fun root hok => by cases hok⟩
  rw [show (halfway.reduce forest input a).2 = (a.make "half" .nonTerminal 0 0).2 from rfl,
    node_make, if_neg (Nat.ne_of_lt hx)]

/-- Transforming twice, a reduction that fails, and both stages at once. -/
def mixedTurns : List (Reduction DerivationError × Call) :=
  [(firstDerivation {}, .filter), (firstDerivation {}, .toAst), (firstDerivation {}, .toAst),
    (halfway, .filter), (firstDerivation {}, .generateAst "ab"), (halfway, .generateAst "c")]

theorem trees_of_mixedTurns :
    (pairBuilder.turns mixedTurns).derivationRoot.map
        ((pairBuilder.turns mixedTurns).arena.rose Node.face) =
      pairBuilder.lastReduced none mixedTurns ∧
    ∀ e, ({ pairBuilder.turns mixedTurns with reduction := halfway }).filter.result = .error e →
      (pairBuilder.turns mixedTurns).SameTrees
        ({ pairBuilder.turns mixedTurns with reduction := halfway }).filter.builder := by
  have hts : ∀ t ∈ mixedTurns, t.1.BuildsAside := by
    simp [mixedTurns, firstDerivation_buildsAside, halfway_buildsAside]
  have h := trees_of_turns pairBuilder.forest (firstDerivation {}) RuleTable.gatherTable
    { verifyStructure := true } hts
  exact ⟨h.2.1, (h.2.2 halfway halfway_buildsAside).2.1⟩

end Builder

end ParseTree
