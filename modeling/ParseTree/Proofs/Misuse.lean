import ParseTree.Proofs.EditCommands

/-!
# Misuse

An operator looks for all that may be wrong before it writes. So an edit that fails leaves the arena
alone, whatever the links are like, and this is not so for a sequence of actions only because the
actions before the one that fails are kept.

Where links are in order, a node that has a parent is in its list. The list is then never searched
in vain, and the operators that move a node out of its list fail at roots only. That a child was not
found is said only to those who name a parent and a child themselves.

## Main results

* `deleteChild_eq_error_iff`, `insert_eq_error_iff`: when these fail, in any arena.
* `Linked.foldOver_eq_error_iff`, `Linked.foldUnder_eq_error_iff`, `Linked.tear_eq_error_iff`,
  `Linked.tearInto_eq_error_iff`: when these fail, if links are in order.
* `Command.misuse_atomic_and_exact`: what a command that fails leaves, and why it fails.
-/

namespace ParseTree

namespace Arena

variable {a : Arena} {i p c : NodeId} {e : EditError} {key label : String} {position : Nat}
  {siblings : List NodeId}

/-! ## Operators -/

/-- **A child is not deleted** exactly if it is not in the list, whatever the links are like. -/
theorem deleteChild_eq_error_iff :
    (a.deleteChild p c).result = .error e ↔
      c ∉ a.children p ∧ e = .childNotFound (a.node p).identity (a.node c).identity := by
  rw [← isSome_predecessor?, deleteChild, withPredecessor]
  cases a.predecessor? p c with
  | none =>
    show Except.error _ = Except.error e ↔ _
    simp [eq_comm]
  | some prev => simp [Outcome.ok]

/-- Gathering siblings fails for one reason only. -/
theorem error_of_gatherWithSiblings
    (h : (a.gatherWithSiblings i label siblings).result = .error e) :
    e = .siblingMismatch (a.node i).identity := by
  unfold gatherWithSiblings at h
  split at h
  · exact (Except.error.inj h).symm
  · cases h

/-- **An insert fails** if nothing is stored under the key. If something is, then it fails exactly
if the position is out of range. -/
theorem insert_eq_error_iff :
    (a.insert i position key).result = .error e ↔
      (a.torn? i key = none ∧ e = .unknownTearId (a.node i).identity key) ∨
      ((a.torn? i key).isSome ∧ (a.children i).length < position ∧
        e = .positionOutOfRange (a.node i).identity position (a.children i).length) := by
  unfold insert
  split
  · next hnone =>
    rw [hnone]
    show Except.error _ = Except.error e ↔ _
    simp [eq_comm]
  next stored hstored =>
  rw [hstored]
  dsimp only
  split
  · next hlt =>
    show Except.error _ = Except.error e ↔ _
    simp [hlt, eq_comm]
  · next hle => simp [Outcome.ok, hle]

/-- What needs a parent, and can be done where there is one, fails at roots. -/
theorem withParent_eq_error_iff {edit : ParentEdit} {next : Arena → NodeId → Outcome Unit}
    (hnext : ∀ p, (a.node i).parent = some p → ∃ b x, a.withParent edit i next = .ok b x) :
    (a.withParent edit i next).result = .error e ↔
      (a.node i).parent = none ∧ e = .rootNode edit (a.node i).identity := by
  cases hi : (a.node i).parent with
  | none =>
    rw [withParent, hi]
    show Except.error _ = Except.error e ↔ _
    simp [eq_comm]
  | some p =>
    obtain ⟨b, x, hok⟩ := hnext p hi
    simp [hok, Outcome.ok]

theorem Linked.foldOver_eq_error_iff (h : a.Linked) :
    (a.foldOver i).result = .error e ↔
      (a.node i).parent = none ∧ e = .rootNode .foldOver (a.node i).identity := by
  refine withParent_eq_error_iff fun p hp => ?_
  obtain ⟨before, after, hsplit⟩ := h.exists_children_eq hp
  exact ⟨_, _, h.foldOver_eq hsplit⟩

theorem Linked.foldUnder_eq_error_iff (h : a.Linked) :
    (a.foldUnder i).result = .error e ↔
      (a.node i).parent = none ∧ e = .rootNode .foldUnder (a.node i).identity := by
  refine withParent_eq_error_iff fun p hp => ?_
  obtain ⟨before, after, hsplit⟩ := h.exists_children_eq hp
  exact ⟨_, _, h.foldUnder_eq hsplit⟩

theorem Linked.tear_eq_error_iff (h : a.Linked) :
    (a.tear i).result = .error e ↔
      (a.node i).parent = none ∧ e = .rootNode .tear (a.node i).identity := by
  refine withParent_eq_error_iff fun p hp => ?_
  obtain ⟨before, after, hsplit⟩ := h.exists_children_eq hp
  exact ⟨_, _, h.tear_eq hsplit⟩

theorem Linked.tearInto_eq_error_iff (h : a.Linked) (key : String) :
    (a.tearInto i key).result = .error e ↔
      (a.node i).parent = none ∧ e = .rootNode .tear (a.node i).identity := by
  refine withParent_eq_error_iff fun p hp => ?_
  obtain ⟨before, after, hsplit⟩ := h.exists_children_eq hp
  exact ⟨_, _, h.tearInto_eq hsplit key⟩

end Arena

/-! ## Commands that edit by themselves -/

namespace Command

open Arena

variable {a : Arena} {c : Command}

/-- **Only deleting a child misses one**, if links are in order. -/
theorem eq_deleteChild_of_childNotFound (h : a.Linked) (hedit : c.isEdit = true) {n m : Nat}
    (hno : (c.run a).result = .error (.childNotFound n m)) :
    ∃ parent child, c = .deleteChild parent child := by
  cases c with
  | deleteChild parent child => exact ⟨parent, child, rfl⟩
  | foldOver i =>
    rw [run, Outcome.result_map_eq_error, h.foldOver_eq_error_iff] at hno
    cases hno.2
  | foldUnder i =>
    rw [run, Outcome.result_map_eq_error, h.foldUnder_eq_error_iff] at hno
    cases hno.2
  | tear i =>
    rw [run, Outcome.result_map_eq_error, h.tear_eq_error_iff] at hno
    cases hno.2
  | tearInto i key =>
    rw [run, Outcome.result_map_eq_error, h.tearInto_eq_error_iff] at hno
    cases hno.2
  | gatherWithSiblings i label siblings =>
    rw [run, Outcome.result_map_eq_error] at hno
    cases error_of_gatherWithSiblings hno
  | insert i position key =>
    rw [run, Outcome.result_map_eq_error, insert_eq_error_iff] at hno
    rcases hno with ⟨-, he⟩ | ⟨-, -, he⟩ <;> cases he
  | addChild p child => cases child <;> cases hno
  | make | makeSymbol | push | setChild | setSibling | setParent | setLabel | setKind | setLeft
  | setRight | gather | clone => cases hno
  | apply | transform | toAst => cases hedit

end Command

/-! ## Edits -/

namespace Edit

open Arena

variable {a : Arena} {i : NodeId} {c : Command} {e : Edit} {input : String} {error : EditError}

/-- **An edit fails as its command does.** -/
theorem result_eq_error_iff (hc : e.command? input a i = some c) :
    (e.apply input a i).result = .error error ↔ (c.run a).result = .error error := by
  have hok {b d : Arena} {j : NodeId} {x : Option NodeId} :
      (Outcome.ok b j).result = .error error ↔ (Outcome.ok d x).result = .error error :=
    ⟨nofun, nofun⟩
  have hmap {α : Type} {o : Outcome α} {f : α → NodeId} {g : α → Option NodeId} :
      (o.map f).result = .error error ↔ (o.map g).result = .error error := by
    rw [Outcome.result_map_eq_error, Outcome.result_map_eq_error]
  have hgather {o : Outcome NodeId} :
      o.result = .error error ↔ (o.map some).result = .error error :=
    (o.result_map_eq_error some).symm
  cases e with
  | literal =>
    obtain ⟨text, htext, rfl⟩ := Option.map_eq_some_iff.mp hc
    unfold apply
    dsimp only
    rw [htext]
    exact hok
  | gatherWithNext label count =>
    unfold command? at hc
    unfold apply
    dsimp only at hc ⊢
    split at hc
    · cases hc
    · next hcount =>
      obtain rfl := Option.some.inj hc
      rw [if_neg hcount]
      exact hgather
  | gatherChildren label =>
    obtain ⟨first, hfirst, rfl⟩ := Option.map_eq_some_iff.mp hc
    unfold apply
    dsimp only
    rw [hfirst]
    exact hmap
  | gatherFirstChild label =>
    obtain ⟨first, hfirst, rfl⟩ := Option.map_eq_some_iff.mp hc
    unfold apply
    dsimp only
    rw [hfirst]
    exact hok
  | gather label =>
    obtain rfl := Option.some.inj hc
    exact hok
  | gatherWithSiblings label =>
    obtain rfl := Option.some.inj hc
    exact hgather
  | foldUnder | foldOver | tear | tearAs key | insert position key =>
    obtain rfl := Option.some.inj hc
    exact hmap

/-- **An edit without a command** fails for two reasons at most: the focus covers no text, or it has
not as many siblings as are to be gathered. -/
theorem error_of_command?_eq_none (hc : e.command? input a i = none)
    (hno : (e.apply input a i).result = .error error) :
    error = .extentOutOfInput (a.node i).identity (a.textRange i).1 (a.textRange i).2 ∨
      error = .siblingMismatch (a.node i).identity := by
  cases e with
  | literal =>
    unfold apply at hno
    dsimp only at hno
    rw [Option.map_eq_none_iff.mp hc] at hno
    exact .inl (Except.error.inj hno).symm
  | gatherWithNext label count =>
    unfold command? at hc
    unfold apply at hno
    dsimp only at hc hno
    split at hc
    · next hcount =>
      rw [if_pos hcount] at hno
      exact .inr (Except.error.inj hno).symm
    · cases hc
  | gatherChildren label =>
    unfold apply at hno
    dsimp only at hno
    rw [Option.map_eq_none_iff.mp hc] at hno
    cases hno
  | gatherFirstChild label =>
    unfold apply at hno
    dsimp only at hno
    rw [Option.map_eq_none_iff.mp hc] at hno
    cases hno
  | gather | gatherWithSiblings | foldUnder | foldOver | tear | tearAs | insert => cases hc

/-- **An edit that fails leaves the arena alone**, whatever the links are like. -/
theorem arena_of_error (hno : (e.apply input a i).result = .error error) :
    (e.apply input a i).arena = a := by
  rw [arena_apply]
  cases hc : e.command? input a i with
  | none => rfl
  | some c => exact Command.arena_of_error (isEdit_of_command? hc) ((result_eq_error_iff hc).mp hno)

/-- **No edit misses a child** if links are in order: none of them names a child to be deleted. -/
theorem result_ne_childNotFound (h : a.Linked) {n m : Nat} :
    (e.apply input a i).result ≠ .error (.childNotFound n m) := by
  intro hno
  cases hc : e.command? input a i with
  | none => rcases error_of_command?_eq_none hc hno with he | he <;> cases he
  | some c =>
    obtain ⟨parent, child, rfl⟩ := Command.eq_deleteChild_of_childNotFound h
      (isEdit_of_command? hc) ((result_eq_error_iff hc).mp hno)
    cases e <;> simp only [command?, Option.map_eq_some_iff] at hc <;> grind

/-- **Edits in turn** miss no child either, since links stay in order. -/
theorem result_applyAll_ne_childNotFound (h : a.Linked) (hi : i < a.size) {es : List Edit}
    {n m : Nat} : (applyAll input es a i).result ≠ .error (.childNotFound n m) := by
  induction es generalizing a i with
  | nil => nofun
  | cons e es ih =>
    have hne : (e.apply input a i).result ≠ .error (.childNotFound n m) :=
      result_ne_childNotFound h
    have hlinked : (e.apply input a i).arena.Linked :=
      (apply_keeps (I := fun _ => True) (fun _ _ _ => trivial) h trivial hi).1
    have hfocus {j : NodeId} := @focus_lt a i j input e hi
    rw [applyAll]
    generalize e.apply input a i = o at hne hlinked hfocus
    obtain ⟨_ | j, b, log⟩ := o
    · exact hne
    · exact ih hlinked (hfocus rfl)

end Edit

/-! ## All commands -/

namespace Command

open Arena

variable {a : Arena} {c : Command} {e : EditError}

/-- A command that fails leaves the arena alone, unless it applies a sequence. -/
theorem arena_of_error_of_ne_sequence
    (hc : ∀ actions i input, c ≠ .apply (.sequence actions) i input)
    (hno : (c.run a).result = .error e) : (c.run a).arena = a := by
  cases c with
  | apply action i input =>
    cases action with
    | sequence actions => exact absurd rfl (hc actions i input)
    | edit e =>
      rw [run, Outcome.result_map_eq_error] at hno
      rw [run, Outcome.arena_map]
      exact Edit.arena_of_error hno
  | transform | toAst => cases hno
  | _ => exact arena_of_error rfl hno

/-- **Misuse is atomic**: a command that fails leaves the whole arena as it was, whatever its links
are like, unless it applies a sequence of actions. **It is exact**: where links are in order, a node
is not folded or torn exactly if it has no parent, and there is no other reason for which this
fails. So no command that is given slots misses a child but the one that deletes a child by its
name, and it is then not in the list. -/
theorem misuse_atomic_and_exact (a : Arena) :
    (∀ (c : Command) (e : EditError),
      (∀ actions i input, c ≠ .apply (.sequence actions) i input) →
      (c.run a).result = .error e → (c.run a).arena = a) ∧
    (a.Linked →
      (∀ i e, (a.foldOver i).result = .error e ↔
        (a.node i).parent = none ∧ e = .rootNode .foldOver (a.node i).identity) ∧
      (∀ i e, (a.foldUnder i).result = .error e ↔
        (a.node i).parent = none ∧ e = .rootNode .foldUnder (a.node i).identity) ∧
      (∀ i e, (a.tear i).result = .error e ↔
        (a.node i).parent = none ∧ e = .rootNode .tear (a.node i).identity) ∧
      (∀ i key e, (a.tearInto i key).result = .error e ↔
        (a.node i).parent = none ∧ e = .rootNode .tear (a.node i).identity) ∧
      ∀ c : Command, c.InRange a → ∀ n m, (c.run a).result = .error (.childNotFound n m) →
        ∃ parent child, c = .deleteChild parent child ∧ child ∉ a.children parent) := by
  refine ⟨fun c e => arena_of_error_of_ne_sequence, fun h => ⟨fun i e => h.foldOver_eq_error_iff,
    fun i e => h.foldUnder_eq_error_iff, fun i e => h.tear_eq_error_iff,
    fun i key e => h.tearInto_eq_error_iff key, fun c hc n m hno => ?_⟩⟩
  cases c with
  | apply action i input =>
    rw [run, Outcome.result_map_eq_error, Action.apply_eq_applyEdits] at hno
    exact absurd hno (Edit.result_applyAll_ne_childNotFound h (hc i List.mem_cons_self))
  | transform | toAst => cases hno
  | _ =>
    obtain ⟨parent, child, hdelete⟩ := eq_deleteChild_of_childNotFound h rfl hno
    rw [hdelete, run, Outcome.result_map_eq_error] at hno
    exact ⟨parent, child, hdelete, (deleteChild_eq_error_iff.mp hno).1⟩

/-- A node that names a parent which does not list it. -/
def strayChild : Arena :=
  runAll [.make "p" .nonTerminal 0 2, .make "c" .nonTerminal 0 1, .setParent 1 (some 0)] {}

/-- The stray child can not be folded, and nothing is written; a root can not be torn. -/
theorem misuse_atomic_and_exact_strayChild :
    ((Command.foldOver 1).run strayChild).result = .error (.childNotFound 0 1) ∧
      ((Command.foldOver 1).run strayChild).arena = strayChild ∧
      RuleTable.bushy.Linked ∧ (RuleTable.bushy.tear 0).result = .error (.rootNode .tear 0) ∧
      ∀ e, (RuleTable.bushy.tear 1).result ≠ .error e := by
  have hno : ((Command.foldOver 1).run strayChild).result = .error (.childNotFound 0 1) := by decide
  have hlinked := RuleTable.linked_bushy
  obtain ⟨hatomic, -⟩ := misuse_atomic_and_exact strayChild
  obtain ⟨-, -, htear, -⟩ := (misuse_atomic_and_exact RuleTable.bushy).2 hlinked
  refine ⟨hno, hatomic _ _ nofun hno, hlinked, (htear 0 _).mpr ⟨by decide, by decide⟩,
    fun e he => ?_⟩
  exact absurd ((htear 1 e).mp he).1 (by decide)

end Command

end ParseTree
