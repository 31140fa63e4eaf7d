import ParseTree.Proofs.EditCommands

/-!
# The steps of a run

An action carries out the commands of its edits until one of them fails, and a walk with a rule
table carries out those of the nodes that it shows. So whatever a run of commands does is done by
its *steps*, commands that edit the arena by themselves. If the commands are given slots of the
arena, so are the steps.

`history` collects what is to be told of each command of a run, in the arena that it is carried out
in. The steps of a run are a first instance of it.

## Main results

* `Edit.runAll_commands`, `Command.runAll_steps`: the steps leave what the run leaves.
* `Walk.inTurn_showings`: a walk shows slots.
* `Command.inTurn_steps`: the steps of a run are given slots.
-/

namespace ParseTree

open Arena

/-! ## Histories -/

namespace Command

variable {α : Type} {P : Arena → Command → Prop} {a : Arena} {c : Command} {cs ds : List Command}

/-- What `f` tells of each command of a list, in the arena that the command is carried out in. -/
def history (f : Arena → Command → List α) : Arena → List Command → List α
  | _, [] => []
  | a, c :: cs => f a c ++ history f (c.run a).arena cs

theorem history_append (f : Arena → Command → List α) (a : Arena) (cs ds : List Command) :
    history f a (cs ++ ds) = history f a cs ++ history f (runAll cs a) ds := by
  induction cs generalizing a with
  | nil => rfl
  | cons c cs ih => simp only [List.cons_append, history, ih, runAll_cons, List.append_assoc]

theorem runAll_snoc (cs : List Command) (c : Command) (a : Arena) :
    runAll (cs ++ [c]) a = (c.run (runAll cs a)).arena :=
  runAll_append ..

theorem history_snoc {α : Type} (f : Arena → Command → List α) (a : Arena) (cs : List Command)
    (c : Command) : history f a (cs ++ [c]) = history f a cs ++ f (runAll cs a) c := by
  rw [history_append, history, history, List.append_nil]

theorem inTurn_append :
    InTurn P a (cs ++ ds) ↔ InTurn P a cs ∧ InTurn P (runAll cs a) ds := by
  induction cs generalizing a with
  | nil => simp [InTurn]
  | cons c cs ih => simp only [List.cons_append, InTurn, ih, runAll_cons, and_assoc]

/-- Steps keep links that lead to slots. -/
theorem linksBelow_runAll (ha : a.LinksBelow a.size) (h : InTurn IsStep a cs) :
    (runAll cs a).LinksBelow (runAll cs a).size :=
  InTurn.runAll (I := fun a => a.LinksBelow a.size)
    (fun _ _ => linksBelow_run) ha h

/-- Steps lose no node. -/
theorem size_le_runAll (h : InTurn IsStep a cs) : a.size ≤ (runAll cs a).size :=
  InTurn.runAll (I := fun b => a.size ≤ b.size)
    (fun _ _ hb hc => Nat.le_trans hb (origin_run hc.1).size_le) (Nat.le_refl _) h

end Command

/-! ## Edits -/

namespace Edit

variable {a : Arena} {i : NodeId} {input : String}

/-- The commands that edits carry out in turn. -/
def commands (input : String) : List Edit → Arena → NodeId → List Command
  | [], _, _ => []
  | e :: es, a, i =>
    (e.command? input a i).toList ++
      match e.apply input a i with
      | ⟨.ok j, b, _⟩ => commands input es b j
      | ⟨.error _, _, _⟩ => []

theorem runAll_command? (input : String) (e : Edit) (a : Arena) (i : NodeId) :
    Command.runAll (e.command? input a i).toList a = (e.apply input a i).arena := by
  rw [arena_apply]
  cases e.command? input a i <;> rfl

/-- Edits leave what their commands leave. -/
theorem runAll_commands (input : String) (es : List Edit) (a : Arena) (i : NodeId) :
    Command.runAll (commands input es a i) a = (applyAll input es a i).arena := by
  induction es generalizing a i with
  | nil => rfl
  | cons e es ih =>
    rw [commands, applyAll, Command.runAll_append, runAll_command?]
    generalize e.apply input a i = o
    obtain ⟨_ | j, b, log⟩ := o
    · rfl
    · exact ih b j

/-- The commands of edits are given slots if the focus is a slot. -/
theorem inTurn_commands (ha : a.LinksBelow a.size) (hi : i < a.size) (es : List Edit) :
    Command.InTurn Command.IsStep a (commands input es a i) := by
  induction es generalizing a i with
  | nil => trivial
  | cons e es ih =>
    have hstep : Command.InTurn Command.IsStep a (e.command? input a i).toList := by
      cases hc : e.command? input a i with
      | none => trivial
      | some c => exact ⟨⟨isEdit_of_command? hc, inRange_of_command? (ha i).1 hi hc⟩, trivial⟩
    have hlinks := Command.linksBelow_runAll ha hstep
    have hfocus {j : NodeId} := @focus_lt a i j input e hi
    rw [commands, Command.inTurn_append]
    refine ⟨hstep, ?_⟩
    rw [runAll_command?] at hlinks ⊢
    generalize e.apply input a i = o at hlinks hfocus
    obtain ⟨_ | j, b, log⟩ := o
    · trivial
    · exact ih hlinks (hfocus rfl)

end Edit

/-! ## Rule tables -/

namespace RuleTable

variable {t : RuleTable} {a : Arena} {i : NodeId} {input : String}

/-- The commands that the matching rule carries out at node `i`. -/
def commands (t : RuleTable) (input : String) (a : Arena) (i : NodeId) : List Command :=
  match t.match? a i with
  | none => []
  | some rule => Edit.commands input rule.action.edits a i

/-- The commands that are carried out at nodes shown one after the other. -/
def commandsAll (t : RuleTable) (input : String) : List NodeId → Arena → List Command
  | [], _ => []
  | i :: l, a => t.commands input a i ++ commandsAll t input l (t.transform input a i).1

theorem runAll_commands (t : RuleTable) (input : String) (a : Arena) (i : NodeId) :
    Command.runAll (t.commands input a i) a = (t.transform input a i).1 := by
  rw [commands, transform_fst]
  cases t.match? a i with
  | none => rfl
  | some rule =>
    dsimp only
    rw [Edit.runAll_commands, Action.apply_eq_applyEdits]

theorem runAll_commandsAll (t : RuleTable) (input : String) (l : List NodeId) (a : Arena) :
    Command.runAll (t.commandsAll input l a) a = t.transformAll input l a := by
  induction l generalizing a with
  | nil => rfl
  | cons i l ih => rw [commandsAll, Command.runAll_append, runAll_commands, ih]; rfl

theorem inTurn_commands (ha : a.LinksBelow a.size) (hi : i < a.size) :
    Command.InTurn Command.IsStep a (t.commands input a i) := by
  unfold commands
  split
  · trivial
  · exact Edit.inTurn_commands ha hi _

end RuleTable

/-! ## Walks -/

namespace Walk

variable {t : RuleTable} {input : String} {w : Walk Unit}

/-- The nodes on the stack of a walk are slots of the arena. -/
def InRange (w : Walk Unit) : Prop :=
  ∀ e ∈ w.stack, e.1 < w.arena.size ∧ ∀ i ∈ e.2, i < w.arena.size

/-- A walk shows a slot. -/
theorem InRange.shown_lt (hw : w.InRange) {i : NodeId} (h : w.shown? = some i) :
    i < w.arena.size := by
  obtain ⟨stack, state, a, log⟩ := w
  match stack with
  | [] => cases h
  | (q, some j) :: rest =>
    have hj := (hw (q, some j) List.mem_cons_self).2 j rfl
    simp only [shown?] at h
    split at h
    · exact Option.some.inj h ▸ hj
    · cases h
  | [(q, none)] => cases h
  | (j, none) :: (q, next) :: rest =>
    exact Option.some.inj h ▸ (hw (j, none) List.mem_cons_self).1

/-- After a slot was shown, what stands on the stack are slots, if what was made of the arena has
links to slots as well. -/
theorem inRange_visit {a : Arena} {i q : NodeId} {rest : List (NodeId × Option NodeId)}
    {log : Array Event} (ha : a.LinksBelow a.size) (hq : q < a.size)
    (hrest : ∀ e ∈ rest, e.1 < a.size ∧ ∀ i ∈ e.2, i < a.size)
    (hlinks : (visit (Scheme.ofTable t) input i q rest () a log).arena.LinksBelow
      (visit (Scheme.ofTable t) input i q rest () a log).arena.size)
    (hle : a.size ≤ (visit (Scheme.ofTable t) input i q rest () a log).arena.size) :
    (visit (Scheme.ofTable t) input i q rest () a log).InRange := by
  have hstack : (visit (Scheme.ofTable t) input i q rest () a log).stack =
      (q, if ((visit (Scheme.ofTable t) input i q rest () a log).arena.node i).parent = some q
        then ((visit (Scheme.ofTable t) input i q rest () a log).arena.node i).nextSibling
        else (a.node i).nextSibling) :: rest := rfl
  generalize visit (Scheme.ofTable t) input i q rest () a log = w at hlinks hle hstack
  have hup {x : NodeId} (hx : x < a.size) : x < w.arena.size := Nat.lt_of_lt_of_le hx hle
  rw [InRange, hstack]
  refine List.forall_mem_cons.mpr ⟨⟨hup hq, fun x hx => ?_⟩, fun e he =>
    ⟨hup (hrest e he).1, fun x hx => hup ((hrest e he).2 x hx)⟩⟩
  dsimp only at hx
  split at hx
  · exact (hlinks i).2 x hx
  · exact hup ((ha i).2 x hx)

/-- A step from slots leads to slots. -/
theorem InRange.step (hw : w.InRange) (ha : w.arena.LinksBelow w.arena.size)
    (hnext : (Walk.step (Scheme.ofTable t) input w).arena.LinksBelow
      (Walk.step (Scheme.ofTable t) input w).arena.size)
    (hle : w.arena.size ≤ (Walk.step (Scheme.ofTable t) input w).arena.size) :
    (Walk.step (Scheme.ofTable t) input w).InRange := by
  obtain ⟨stack, state, a, log⟩ := w
  match stack with
  | [] => exact hw
  | (q, some i) :: rest =>
    obtain ⟨⟨hq, hi⟩, hrest⟩ := List.forall_mem_cons.mp hw
    cases hfirst : (a.node i).firstChild with
    | some first =>
      rw [step_descend _ _ hfirst]
      refine List.forall_mem_cons.mpr ⟨⟨hi i rfl, fun x hx => ?_⟩, hw⟩
      exact (ha i).1 x (hfirst.trans hx)
    | none =>
      rw [step_leaf _ _ hfirst] at hnext hle ⊢
      exact inRange_visit ha hq hrest hnext hle
  | [(q, none)] => exact fun e he => by cases he
  | (i, none) :: (q, next) :: rest =>
    obtain ⟨-, hrest⟩ := List.forall_mem_cons.mp hw
    obtain ⟨⟨hq, -⟩, hrest⟩ := List.forall_mem_cons.mp hrest
    exact inRange_visit ha hq hrest hnext hle

/-- **A walk shows slots**: what is carried out at the nodes shown is given slots. -/
theorem inTurn_showings (ha : w.arena.LinksBelow w.arena.size) (hw : w.InRange) (n : Nat) :
    Command.InTurn Command.IsStep w.arena
      (t.commandsAll input ((showings (Scheme.ofTable t) input n w).map Showing.node) w.arena) := by
  induction n generalizing w with
  | zero => trivial
  | succ n ih =>
    cases hshown : w.shown? with
    | none =>
      have harena := (step_of_not_shown (Scheme.ofTable t) input hshown).2
      have hlinks : (Walk.step (Scheme.ofTable t) input w).arena.LinksBelow
          (Walk.step (Scheme.ofTable t) input w).arena.size := by
        rwa [harena]
      have hrest := ih hlinks (hw.step ha hlinks (by rw [harena]))
      rw [showings_of_not_shown hshown]
      rwa [harena] at hrest
    | some i =>
      have harena : (Walk.step (Scheme.ofTable t) input w).arena =
          (t.transform input w.arena i).1 :=
        (step_of_shown (Scheme.ofTable t) input hshown).2
      have hstep : Command.InTurn Command.IsStep w.arena (t.commands input w.arena i) :=
        t.inTurn_commands ha (hw.shown_lt hshown)
      have hlinks := Command.linksBelow_runAll ha hstep
      have hle := Command.size_le_runAll hstep
      rw [RuleTable.runAll_commands, ← harena] at hlinks hle
      rw [showings_of_shown hshown, List.map_cons, RuleTable.commandsAll, Command.inTurn_append,
        RuleTable.runAll_commands, ← harena]
      exact ⟨hstep, ih hlinks (hw.step ha hlinks hle)⟩

end Walk

/-! ## Commands -/

namespace Command

variable {a : Arena} {c : Command} {cs : List Command}

/-- The steps that a command takes: itself, if it edits the arena by itself. -/
def steps (a : Arena) : Command → List Command
  | .apply action i input => Edit.commands input action.edits a i
  | .transform t i input => t.commands input a i
  | .toAst t r input => t.commandsAll input (t.visited input a r) a
  | c => [c]

/-- **The steps of a command** leave what the command leaves. -/
theorem runAll_steps (c : Command) (a : Arena) : runAll (c.steps a) a = (c.run a).arena := by
  cases c with
  | apply action i input =>
    rw [run, Outcome.arena_map, Action.apply_eq_applyEdits]
    exact Edit.runAll_commands input action.edits a i
  | transform t i input => exact t.runAll_commands input a i
  | toAst t r input =>
    rw [arena_run_toAst, RuleTable.walk_arena_eq]
    exact t.runAll_commandsAll input (t.visited input a r) a
  | _ => rfl

/-- **The steps of a command** that is given slots are given slots. -/
theorem inTurn_steps (ha : a.LinksBelow a.size) (hc : c.InRange a) :
    InTurn IsStep a (c.steps a) := by
  cases c with
  | apply action i input => exact Edit.inTurn_commands ha (hc i List.mem_cons_self) _
  | transform t i input => exact RuleTable.inTurn_commands ha (hc i List.mem_cons_self)
  | toAst t r input =>
    have hstart : (Walk.start a r ()).InRange := fun e he => by
      obtain rfl := List.mem_singleton.mp he
      exact ⟨hc r List.mem_cons_self, (ha r).1⟩
    rw [steps, RuleTable.visited_eq]
    exact Walk.inTurn_showings (w := Walk.start a r ()) ha hstart _
  | _ => exact ⟨⟨rfl, hc⟩, trivial⟩

/-- **The steps of a run** leave what the run leaves. -/
theorem runAll_history_steps (cs : List Command) (a : Arena) :
    runAll (history steps a cs) a = runAll cs a := by
  induction cs generalizing a with
  | nil => rfl
  | cons c cs ih => rw [history, runAll_append, runAll_steps, ih, runAll_cons]

/-- **The steps of a run** whose commands are given slots are given slots. -/
theorem inTurn_history_steps (ha : a.LinksBelow a.size) (h : InTurn InRange a cs) :
    InTurn IsStep a (history steps a cs) := by
  induction cs generalizing a with
  | nil => trivial
  | cons c cs ih =>
    have hstep := inTurn_steps ha h.1
    have hlinks := linksBelow_runAll ha hstep
    rw [history, inTurn_append]
    rw [runAll_steps] at hlinks ⊢
    exact ⟨hstep, ih hlinks h.2⟩

end Command

end ParseTree
