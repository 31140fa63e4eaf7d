import ParseTree.Proofs.Enclosure
import ParseTree.Proofs.Stores

/-!
# Invariants of runs and of walks

What a run of commands keeps is proved by looking at one command. A walk with a rule table is in no
other case: each edit of a rule carries out one operator, at the focus or at its first child, or
none at all. So whatever the operators of a table keep is kept when the table is applied to a node,
and when it is walked with. That the arena is linked is kept by all of them and need not be said.

## Main results

* `Command.InTurn.runAll`: from one command to runs.
* `Command.linked_run`: every operator that appends no tree keeps an arena linked.
* `Edit.arena_apply`: an edit leaves the arena that its command leaves.
* `RuleTable.walk_keeps`: from the commands of the edits of a table to its walks.
-/

namespace ParseTree

open Arena

/-! ## Runs -/

namespace Command

variable {P : Arena → Command → Prop} {I : Arena → Prop} {a : Arena} {c : Command}
  {cs : List Command}

/-- Every command of the list has the property `P` in the arena that it is carried out in. -/
def InTurn (P : Arena → Command → Prop) : Arena → List Command → Prop
  | _, [] => True
  | a, c :: cs => P a c ∧ InTurn P (c.run a).arena cs

instance decidableInTurn [∀ a c, Decidable (P a c)] :
    (a : Arena) → (cs : List Command) → Decidable (InTurn P a cs)
  | _, [] => .isTrue trivial
  | a, c :: cs =>
    have := decidableInTurn (c.run a).arena cs
    inferInstanceAs (Decidable (_ ∧ _))

/-- **An invariant of commands is one of runs.** -/
theorem InTurn.runAll (hstep : ∀ a c, I a → P a c → I (c.run a).arena) (ha : I a)
    (h : InTurn P a cs) : I (runAll cs a) := by
  induction cs generalizing a with
  | nil => exact ha
  | cons c cs ih => exact ih (hstep a c ha h.1) h.2

/-- An operator that puts no tree of the arena below a node. -/
def Rearranges (c : Command) : Prop :=
  c.isOperator = true ∧ c.joins = none

/-- **Such an operator keeps an arena linked.** -/
theorem linked_run (ha : a.Linked) (hc : c.Rearranges) (hrange : c.InRange a) :
    (c.run a).arena.Linked := by
  obtain ⟨hop, hjoins⟩ := hc
  have hset {b : Arena} (hb : a.SameLinks b) : b.Linked := (ha.of_sameLinks hb).1
  have hrefused {α : Type} {o : Outcome α} (h : a.Refused o) : o.arena.Linked :=
    h.arena_eq ▸ ha
  cases c with
  | make label kind left right => exact (ha.make_relinked label kind left right).linked
  | makeSymbol symbols label left right => exact (ha.make_relinked _ _ left right).linked
  | push p label kind left right =>
    exact (ha.push_relinked (hrange p List.mem_cons_self) label kind left right).linked
  | addChild p child =>
    cases child with
    | none => exact ha
    | some child => cases hjoins
  | deleteChild p child =>
    rw [run, Outcome.arena_map]
    rcases ha.deleteChild_cases p child with ⟨-, hno⟩ | ⟨_, _, b, -, hok, hb, -⟩
    · exact hrefused hno
    · exact hok ▸ hb.linked
  | setLabel i label => exact hset (sameLinks_setLabel a i label)
  | setKind i kind => exact hset (sameLinks_setKind a i kind)
  | setLeft i left => exact hset (sameLinks_setLeft a i left)
  | setRight i right => exact hset (sameLinks_setRight a i right)
  | foldOver i =>
    rw [run, Outcome.arena_map]
    rcases ha.foldOver_cases i with ⟨-, hno⟩ | ⟨_, _, _, b, -, hok, hb, -⟩
    · exact hrefused hno
    · exact hok ▸ hb.linked
  | foldUnder i =>
    rw [run, Outcome.arena_map]
    rcases ha.foldUnder_cases i with ⟨-, hno⟩ | ⟨_, _, _, b, -, hok, hb, -⟩
    · exact hrefused hno
    · exact hok ▸ hb.linked
  | gather i label => exact (ha.gather_relinked (hrange i List.mem_cons_self) label).linked
  | gatherWithSiblings i label siblings =>
    rw [run, Outcome.arena_map]
    rcases ha.gatherWithSiblings_cases (hrange i List.mem_cons_self) label siblings with
      hno | ⟨-, b, hok, hb, -⟩ | ⟨_, _, _, b, -, hok, hb, -⟩
    · exact hrefused hno
    · exact hok ▸ hb.linked
    · exact hok ▸ hb.linked
  | tear i =>
    rw [run, Outcome.arena_map]
    rcases ha.tear_cases i with ⟨-, hno⟩ | ⟨_, _, _, b, -, hok, hb, -⟩
    · exact hrefused hno
    · exact hok ▸ hb.linked
  | tearInto i key =>
    rw [run, Outcome.arena_map]
    rcases ha.tearInto_cases i key with ⟨-, hno⟩ | ⟨_, _, _, b, -, hok, hb, -⟩
    · exact hrefused hno
    · exact hok ▸ hb.linked
  | insert i position key =>
    rw [run, Outcome.arena_map]
    rcases ha.insert_cases (hrange i List.mem_cons_self) position key with
      hno | ⟨_, _, b, -, hok, hb, -⟩
    · exact hrefused hno
    · exact hok ▸ hb.linked
  | clone i => exact (ha.cloneSubtree i).linked
  | setChild p child => cases hop
  | setSibling i sibling => cases hop
  | setParent i parent => cases hop
  | apply action i input => cases hop
  | transform rules i input => cases hop
  | toAst rules root input => cases hop

end Command

/-! ## Edits -/

namespace Edit

variable {I : Arena → Prop} {a b : Arena} {i j : NodeId} {c : Command} {input : String}

/-- The command that an edit carries out at the focus `i`, if it carries one out. -/
def command? (input : String) (a : Arena) (i : NodeId) : Edit → Option Command
  | literal => (a.underlyingText? i input).map (.setLabel i ·)
  | foldUnder => some (.foldUnder i)
  | foldOver => some (.foldOver i)
  | gather label => some (.gather i label)
  | gatherWithSiblings label => some (.gatherWithSiblings i label (a.rightSiblings i))
  | gatherWithNext label count =>
    let siblings := a.chain count.toNat (a.node i).nextSibling
    if siblings.length < count.toNat then none else some (.gatherWithSiblings i label siblings)
  | gatherChildren label =>
    (a.node i).firstChild.map fun first =>
      .gatherWithSiblings first label (a.rightSiblings first)
  | gatherFirstChild label => (a.node i).firstChild.map fun first => .gather first label
  | tear => some (.tear i)
  | tearAs key => some (.tearInto i key)
  | insert position key => some (.insert i position.toNat key)

/-- **An edit leaves what its command leaves**, and the arena as it was if there is none. -/
theorem arena_apply (input : String) (e : Edit) (a : Arena) (i : NodeId) :
    (e.apply input a i).arena = (e.command? input a i).elim a fun c => (c.run a).arena := by
  cases e with
  | literal =>
    unfold apply command?
    dsimp only
    cases a.underlyingText? i input <;> rfl
  | gatherWithNext label count =>
    unfold apply command?
    dsimp only
    split
    · rfl
    · exact (Outcome.arena_map ..).symm
  | gatherChildren label =>
    unfold apply command?
    cases (a.node i).firstChild with
    | none => rfl
    | some first => exact (Outcome.arena_map ..).trans (Outcome.arena_map ..).symm
  | gatherFirstChild label =>
    unfold apply command?
    cases (a.node i).firstChild <;> rfl
  | gather label => rfl
  | gatherWithSiblings label => exact (Outcome.arena_map ..).symm
  | foldUnder => exact (Outcome.arena_map ..).trans (Outcome.arena_map ..).symm
  | foldOver => exact (Outcome.arena_map ..).trans (Outcome.arena_map ..).symm
  | tear => exact (Outcome.arena_map ..).trans (Outcome.arena_map ..).symm
  | tearAs key => exact (Outcome.arena_map ..).trans (Outcome.arena_map ..).symm
  | insert position key => exact (Outcome.arena_map ..).trans (Outcome.arena_map ..).symm

/-- The command of an edit is an operator, which appends no tree. -/
theorem rearranges_of_command? {e : Edit} (h : e.command? input a i = some c) : c.Rearranges := by
  cases e <;> simp only [command?, Option.map_eq_some_iff, Option.some.injEq] at h <;>
    grind [Command.Rearranges, Command.isOperator, Command.joins]

theorem isEdit_of_command? {e : Edit} (h : e.command? input a i = some c) : c.isEdit = true :=
  Command.isEdit_of_isOperator (rearranges_of_command? h).1

theorem size_le_arena_apply (input : String) (e : Edit) (a : Arena) (i : NodeId) :
    a.size ≤ (e.apply input a i).arena.size := by
  rw [arena_apply]
  cases hc : e.command? input a i with
  | none => exact Nat.le_refl _
  | some c => exact (Command.origin_run (isEdit_of_command? hc)).size_le

/-- **The command of an edit finds its nodes**, at the focus or below it. -/
theorem inRange_of_command? {e : Edit} (hfirst : ∀ x ∈ (a.node i).firstChild, x < a.size)
    (hi : i < a.size) (h : e.command? input a i = some c) : c.InRange a := by
  cases e <;> simp only [command?, Option.map_eq_some_iff, Option.some.injEq] at h <;>
    grind [Command.InRange, Command.slots]

/-- A gathering that succeeds gives the copy that it made. -/
theorem lt_size_of_gatherWithSiblings {siblings : List NodeId} {label : String}
    (h : (a.gatherWithSiblings i label siblings).result = .ok j) :
    j < (a.gatherWithSiblings i label siblings).arena.size := by
  rcases a.gatherWithSiblings_outcome i label siblings with ⟨e, log, hno⟩ | ⟨after, -, hok⟩
  · rw [hno] at h
    cases h
  · rw [hok] at h ⊢
    obtain rfl : a.size = j := Except.ok.inj h
    show a.size < ((a.gather i label).2.gatherRest i a.size siblings after).size
    rw [size_gatherRest, size_gather]
    exact Nat.lt_succ_self _

/-- **The focus stays in the arena.** It is the node that it was, or the copy of it. -/
theorem focus_lt {e : Edit} (hi : i < a.size) (hj : (e.apply input a i).result = .ok j) :
    j < (e.apply input a i).arena.size := by
  have hstay (h : i = j) : j < (e.apply input a i).arena.size :=
    h ▸ Nat.lt_of_lt_of_le hi (size_le_arena_apply ..)
  have hmap {α : Type} {o : Outcome α} (h : (o.map fun _ => i).result = .ok j) : i = j := by
    obtain ⟨_ | _, b, log⟩ := o
    · cases h
    · exact Except.ok.inj h
  cases e with
  | literal =>
    refine hstay ?_
    unfold apply at hj
    dsimp only at hj
    split at hj
    · exact Except.ok.inj hj
    · cases hj
  | foldUnder => exact hstay (hmap hj)
  | foldOver => exact hstay (hmap hj)
  | gather label =>
    obtain rfl : a.size = j := Except.ok.inj hj
    show a.size < (a.gather i label).2.size
    simp
  | gatherWithSiblings label => exact lt_size_of_gatherWithSiblings hj
  | gatherWithNext label count =>
    unfold apply at hj ⊢
    dsimp only at hj ⊢
    split at hj
    · cases hj
    · next hcount =>
      rw [if_neg hcount]
      exact lt_size_of_gatherWithSiblings hj
  | gatherChildren label =>
    refine hstay ?_
    unfold apply at hj
    dsimp only at hj
    split at hj
    · exact hmap hj
    · exact Except.ok.inj hj
  | gatherFirstChild label =>
    refine hstay ?_
    unfold apply at hj
    dsimp only at hj
    split at hj <;> exact Except.ok.inj hj
  | tear => exact hstay (hmap hj)
  | tearAs key => exact hstay (hmap hj)
  | insert position key => exact hstay (hmap hj)

/-- **An edit** keeps what its command keeps. -/
theorem apply_keeps {e : Edit}
    (hedit : ∀ c ∈ e.command? input a i, c.InRange a → I (c.run a).arena)
    (ha : a.Linked) (hI : I a) (hi : i < a.size) :
    (e.apply input a i).arena.Linked ∧ I (e.apply input a i).arena := by
  rw [arena_apply]
  cases hc : e.command? input a i with
  | none => exact ⟨ha, hI⟩
  | some c =>
    have hrange := inRange_of_command? (ha.linksBelow i).1 hi hc
    exact ⟨Command.linked_run ha (rearranges_of_command? hc) hrange, hedit c hc hrange⟩

/-- **Edits in turn** keep what the command of each of them keeps at every focus. -/
theorem applyAll_keeps {es : List Edit}
    (hedits : ∀ e ∈ es, ∀ a i, a.Linked → I a → i < a.size → ∀ c ∈ e.command? input a i,
      c.InRange a → I (c.run a).arena)
    (ha : a.Linked) (hI : I a) (hi : i < a.size) :
    (applyAll input es a i).arena.Linked ∧ I (applyAll input es a i).arena := by
  induction es generalizing a i with
  | nil => exact ⟨ha, hI⟩
  | cons e es ih =>
    have hstep := apply_keeps (hedits e List.mem_cons_self a i ha hI hi) ha hI hi
    have hfocus {j : NodeId} := @focus_lt a i j input e hi
    rw [applyAll]
    generalize e.apply input a i = o at hstep hfocus
    obtain ⟨_ | j, b, log⟩ := o
    · exact hstep
    · exact ih (fun e he => hedits e (List.mem_cons_of_mem _ he)) hstep.1 hstep.2 (hfocus rfl)

end Edit

/-! ## Rule tables -/

namespace RuleTable

variable {I : Arena → Prop} {t : RuleTable} {a : Arena} {i r : NodeId} {input : String}

/-- The edits of all rules of a table. -/
def edits (t : RuleTable) : List Edit :=
  t.entries.flatMap fun e => e.2.flatMap fun rule => rule.action.edits

/-- The rule that a node matches is in the table. -/
theorem mem_edits_of_match? {rule : Rule} {e : Edit} (hrule : t.match? a i = some rule)
    (he : e ∈ rule.action.edits) : e ∈ t.edits := by
  obtain ⟨entry, hentry, hmem⟩ := exists_mem_entries (List.mem_of_find?_eq_some hrule)
  exact List.mem_flatMap.mpr ⟨entry, hentry, List.mem_flatMap.mpr ⟨rule, hmem, he⟩⟩

/-- `I` is kept by the commands of the edits of a table, at any node of any linked arena. -/
def EditsKeep (t : RuleTable) (input : String) (I : Arena → Prop) : Prop :=
  ∀ e ∈ t.edits, ∀ a i, a.Linked → I a → i < a.size → ∀ c ∈ e.command? input a i,
    c.InRange a → I (c.run a).arena

/-- One node is transformed. -/
theorem transform_keeps (ht : t.EditsKeep input I) (ha : a.Linked) (hI : I a) (hi : i < a.size) :
    (t.transform input a i).1.Linked ∧ I (t.transform input a i).1 := by
  rw [transform_fst]
  cases hrule : t.match? a i with
  | none => exact ⟨ha, hI⟩
  | some rule =>
    dsimp only
    rw [Action.apply_eq_applyEdits]
    exact Edit.applyAll_keeps (fun e he => ht e (mem_edits_of_match? hrule he)) ha hI hi

/-- No command loses a node. -/
theorem EditsKeep.le_size (ht : t.EditsKeep input I) (n : Nat) :
    t.EditsKeep input fun b => I b ∧ n ≤ b.size :=
  fun e he b i hb hI hi c hc hrange => ⟨ht e he b i hb hI.1 hi c hc hrange,
    Nat.le_trans hI.2 (Command.origin_run (Edit.isEdit_of_command? hc)).size_le⟩

/-- **What the commands of a table keep is kept by its walks.** -/
theorem walk_keeps (ht : t.EditsKeep input I) (ha : a.Linked) (hI : I a) (r : NodeId) :
    (walk (Scheme.ofTable t) input a r ()).arena.Linked ∧
      I (walk (Scheme.ofTable t) input a r ()).arena := by
  have hvisited : ∀ i ∈ t.visited input a r, i < a.size := by
    obtain ⟨hsub, -⟩ := t.showings_spec input ha r
    exact fun i hi => (ha.mem_postorderBelow.mp (hsub.subset hi)).lt_size
  -- The nodes to be visited were in range at the start, and the arena only grows.
  have hall {l : List NodeId} {b : Arena} (hl : ∀ i ∈ l, i < a.size) (hb : b.Linked)
      (hIb : I b ∧ a.size ≤ b.size) :
      (t.transformAll input l b).Linked ∧ I (t.transformAll input l b) := by
    induction l generalizing b with
    | nil => exact ⟨hb, hIb.1⟩
    | cons i l ih =>
      obtain ⟨hi, hrest⟩ := List.forall_mem_cons.mp hl
      obtain ⟨hstep, hIstep⟩ :=
        transform_keeps (ht.le_size a.size) hb hIb (Nat.lt_of_lt_of_le hi hIb.2)
      exact ih hrest hstep hIstep
  rw [walk_arena_eq]
  exact hall hvisited ha ⟨hI, Nat.le_refl _⟩

end RuleTable

/-- What is left of a walk that is a command. The walk is named before it is rewritten, so that
nothing tries to evaluate it. -/
theorem Command.arena_run_toAst (t : RuleTable) (r : NodeId) (input : String) (a : Arena) :
    ((Command.toAst t r input).run a).arena = (walk (Scheme.ofTable t) input a r ()).arena := by
  obtain ⟨w, hw⟩ : ∃ w, walk (Scheme.ofTable t) input a r () = w := ⟨_, rfl⟩
  rw [Command.run_toAst, hw]

end ParseTree
