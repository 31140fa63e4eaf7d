import ParseTree.Proofs.Enclosure

/-!
# Failures are reported once

An edit that fails says so twice over, in its result and as a warning, and the two must agree.
`Outcome.Reports` asks that there is one warning for a failure, with the text of the error, and
nothing for a success. Every failure begins as an `Outcome.fail`, which reports it, and sequencing
adds no events of its own, so that what holds of the parts of an edit holds of the edit.

A walk with a rule table collects what was reported at the nodes it shows. The table adds one event
to each warning, for the rule that failed.

## Main results

* `Outcome.Reports.bind`, `Outcome.Reports.map`: sequencing reports what its parts report.
* `Edit.reports_apply`, `Action.reports_apply`: edits and actions report their failures.
* `Walk.log_run`: a run logs what its showings log, in their order.
* `RuleTable.failures_reported`: the log of a whole walk.
-/

namespace ParseTree

/-! ## Outcomes -/

namespace Outcome

variable {α β : Type} {o : Outcome α}

/-- **A failure is reported once and truthfully**: by one warning, whose error field is the text of
the error. A success is not reported at all. -/
inductive Reports (o : Outcome α) : Prop
  | succeeded (x : α) (hresult : o.result = .ok x) (hlog : o.log = [])
  | failed (e : EditError) (w : Event) (hresult : o.result = .error e) (hlog : o.log = [w])
    (hlevel : w.level = .warn) (hfield : w.field? "error" = some e.message)

theorem reports_ok (a : Arena) (x : α) : (ok a x).Reports :=
  .succeeded x rfl rfl

theorem reports_fail (a : Arena) (e : EditError) (message : String)
    (fields : List (String × String)) : (fail a e message fields : Outcome α).Reports :=
  .failed e ⟨.warn, message, ("error", e.message) :: fields⟩ rfl rfl rfl (by simp [Event.field?])

theorem Reports.map (h : o.Reports) (f : α → β) : (o.map f).Reports := by
  obtain ⟨result, a, log⟩ := o
  cases h with
  | succeeded x hresult hlog =>
    obtain rfl : result = .ok x := hresult
    exact .succeeded (f x) rfl hlog
  | failed e w hresult hlog hlevel hfield =>
    obtain rfl : result = .error e := hresult
    exact .failed e w rfl hlog hlevel hfield

/-- Sequencing adds no events: the second edit runs if the first one had nothing to report. -/
theorem Reports.bind (h : o.Reports) {next : Arena → α → Outcome β}
    (hnext : ∀ a x, (next a x).Reports) : (o.bind next).Reports := by
  obtain ⟨result, a, log⟩ := o
  cases h with
  | succeeded x hresult hlog =>
    obtain rfl : result = .ok x := hresult
    obtain rfl : log = [] := hlog
    exact hnext a x
  | failed e w hresult hlog hlevel hfield =>
    obtain rfl : result = .error e := hresult
    exact .failed e w rfl hlog hlevel hfield

end Outcome

/-! ## Edits -/

namespace Arena

open Outcome

theorem reports_withParent (a : Arena) (edit : ParentEdit) (i : NodeId)
    {next : Arena → NodeId → Outcome Unit} (hnext : ∀ b p, (next b p).Reports) :
    (a.withParent edit i next).Reports := by
  rw [withParent]
  split
  · exact hnext ..
  · exact reports_fail ..

theorem reports_withPredecessor (a : Arena) (p i : NodeId)
    {next : Arena → Option NodeId → Outcome Unit} (hnext : ∀ b prev, (next b prev).Reports) :
    (a.withPredecessor p i next).Reports := by
  rw [withPredecessor]
  split
  · exact hnext ..
  · exact reports_fail ..

theorem reports_deleteChild (a : Arena) (p i : NodeId) : (a.deleteChild p i).Reports :=
  a.reports_withPredecessor p i fun _ _ => reports_ok ..

theorem reports_foldOver (a : Arena) (i : NodeId) : (a.foldOver i).Reports :=
  a.reports_withParent .foldOver i fun b p =>
    (b.reports_deleteChild p i).bind fun _ _ => reports_ok ..

theorem reports_foldUnder (a : Arena) (i : NodeId) : (a.foldUnder i).Reports :=
  a.reports_withParent .foldUnder i fun b p => b.reports_deleteChild p i

theorem reports_gatherWithSiblings (a : Arena) (i : NodeId) (label : String)
    (siblings : List NodeId) : (a.gatherWithSiblings i label siblings).Reports := by
  rw [gatherWithSiblings]
  split
  · exact reports_fail ..
  · exact reports_ok ..

theorem reports_tear (a : Arena) (i : NodeId) : (a.tear i).Reports :=
  a.reports_withParent .tear i fun b p => b.reports_withPredecessor p i fun _ _ => reports_ok ..

theorem reports_tearInto (a : Arena) (i : NodeId) (key : String) : (a.tearInto i key).Reports :=
  a.reports_withParent .tear i fun b p => b.reports_withPredecessor p i fun _ _ => reports_ok ..

theorem reports_insert (a : Arena) (i : NodeId) (position : Nat) (key : String) :
    (a.insert i position key).Reports := by
  rw [insert]
  split
  · exact reports_fail ..
  · dsimp only
    split
    · exact reports_fail ..
    · exact reports_ok ..

end Arena

/-! ## Actions -/

open Outcome

/-- **Every edit reports its failure.** -/
theorem Edit.reports_apply (input : String) (e : Edit) (a : Arena) (i : NodeId) :
    (e.apply input a i).Reports := by
  cases e with
  | literal =>
    rw [Edit.apply]
    split
    · exact reports_ok ..
    · exact reports_fail ..
  | foldUnder => exact (a.reports_foldUnder i).map _
  | foldOver => exact (a.reports_foldOver i).map _
  | gather label => exact reports_ok ..
  | gatherWithSiblings label => exact a.reports_gatherWithSiblings i label _
  | gatherWithNext label count =>
    rw [Edit.apply]
    split
    · exact reports_fail ..
    · exact a.reports_gatherWithSiblings i label _
  | gatherChildren label =>
    rw [Edit.apply]
    split
    · exact (a.reports_gatherWithSiblings _ label _).map _
    · exact reports_ok ..
  | gatherFirstChild label =>
    rw [Edit.apply]
    split <;> exact reports_ok ..
  | tear => exact (a.reports_tear i).map _
  | tearAs key => exact (a.reports_tearInto i key).map _
  | insert position key => exact (a.reports_insert i position.toNat key).map _

theorem Edit.reports_applyAll (input : String) (es : List Edit) (a : Arena) (i : NodeId) :
    (Edit.applyAll input es a i).Reports := by
  induction es generalizing a i with
  | nil => exact reports_ok ..
  | cons e es ih => exact (e.reports_apply input a i).bind ih

/-- **Every action reports its failure**, however its sequences are nested. -/
theorem Action.reports_apply (input : String) (x : Action) (a : Arena) (i : NodeId) :
    (x.apply input a i).Reports := by
  rw [Action.apply_eq_applyEdits]
  exact Edit.reports_applyAll input x.edits a i

/-! ## Walks -/

namespace Walk

/-- **A run logs what its showings log**, in their order. -/
theorem log_run (s : Scheme Unit) (input : String) (n : Nat) (w : Walk Unit) :
    (run s input n w).log.toList = w.log.toList ++
      (showings s input n w).flatMap fun v => (s.transform input () v.before v.node).2.2 := by
  induction n generalizing w with
  | zero => simp [run, showings]
  | succ n ih =>
    by_cases hw : w.stack = []
    · rw [run_of_stack_nil _ _ _ hw, showings_of_stack_nil hw]
      simp
    rw [run, if_neg (by simpa using hw), ih]
    cases hshown : w.shown? with
    | none =>
      obtain ⟨stack, hstep⟩ := exists_step_of_not_shown s input hshown
      rw [showings_of_not_shown hshown, hstep]
    | some i =>
      obtain ⟨owner, rest, hstep⟩ := exists_step_eq_visit s input hshown
      have hlog : (step s input w).log = w.log ++ (s.transform input () w.arena i).2.2 := by
        rw [hstep]
        rfl
      rw [showings_of_shown hshown, hlog, List.flatMap_cons, Array.toList_appendList,
        List.append_assoc]

end Walk

namespace RuleTable

variable {t : RuleTable} {input : String} {v : Walk.Showing}

/-- **What is logged for a node that was shown**: nothing, unless the first rule that matches fails;
then the warning of its action, and the failure of the rule with the same text. -/
inductive Reported (t : RuleTable) (input : String) (v : Walk.Showing) : List Event → Prop
  | unmatched (hmatch : t.match? v.before v.node = none) : Reported t input v []
  | succeeded {rule : Rule} {focus : NodeId} (hmatch : t.match? v.before v.node = some rule)
    (hok : (rule.action.apply input v.before v.node).result = .ok focus) : Reported t input v []
  | failed {rule : Rule} {e : EditError} {w : Event}
    (hmatch : t.match? v.before v.node = some rule)
    (herror : (rule.action.apply input v.before v.node).result = .error e)
    (hlog : (rule.action.apply input v.before v.node).log = [w])
    (hlevel : w.level = .warn) (hfield : w.field? "error" = some e.message) :
    Reported t input v
      [w, ⟨.debug, "rule left the node unchanged",
        [("error", e.message),
          ("node", (rule.action.apply input v.before v.node).arena.describe v.node)]⟩]

/-- A node is transformed with these events. -/
theorem reported_transform (t : RuleTable) (input : String) (v : Walk.Showing) :
    t.Reported input v (t.transform input v.before v.node).2 := by
  rw [transform]
  cases hmatch : t.match? v.before v.node with
  | none => exact .unmatched hmatch
  | some rule =>
    have hreports := rule.action.reports_apply input v.before v.node
    dsimp only
    generalize ho : rule.action.apply input v.before v.node = o at hreports
    obtain ⟨result, b, log⟩ := o
    cases hreports with
    | succeeded focus hresult hlog =>
      obtain rfl : result = .ok focus := hresult
      obtain rfl : log = [] := hlog
      exact .succeeded hmatch (by rw [ho])
    | failed e w hresult hlog hlevel hfield =>
      obtain rfl : result = .error e := hresult
      obtain rfl : log = [w] := hlog
      have hfailed : t.Reported input v [w, _] :=
        .failed hmatch (by rw [ho]) (by rw [ho]) hlevel hfield
      rwa [ho] at hfailed

/-- **The log of a walk** is made up of what is logged for the nodes that are shown, in their order.
-/
theorem exists_reports (t : RuleTable) (input : String) (a : Arena) (r : NodeId) :
    ∃ reports, (t.showings input a r).Forall₂ (t.Reported input) reports ∧
      ((Command.toAst t r input).run a).log = reports.flatten := by
  have hwalk : walk (.ofTable t) input a r () =
      Walk.run (.ofTable t) input (Walk.bound a) (Walk.start a r ()) := rfl
  have hrun : ((Command.toAst t r input).run a).log =
      (walk (.ofTable t) input a r ()).log.toList := by
    -- the walk is named before the command is opened, so that nothing tries to evaluate it
    obtain ⟨w, hw⟩ : ∃ w, walk (.ofTable t) input a r () = w := ⟨_, rfl⟩
    rw [Command.run_toAst, hw]
  refine ⟨(t.showings input a r).map fun v => (t.transform input v.before v.node).2, ?_, ?_⟩
  · rw [List.forall₂_map_right_iff, List.forall₂_same]
    exact fun v _ => t.reported_transform input v
  · have hstart : (Walk.start a r ()).log.toList = [] := rfl
    have hevents : (fun v : Walk.Showing =>
        ((Scheme.ofTable t).transform input () v.before v.node).2.2) =
        fun v => (t.transform input v.before v.node).2 := rfl
    rw [hrun, hwalk, Walk.log_run, hstart, hevents, List.nil_append, List.flatMap_def, showings]

/-- **Every failure is reported once and truthfully.** An action gives one warning if it fails, with
the text of its error, and no event if it succeeds. A walk comes to its end. For each node that was
visited and whose matching rule failed, in the order of the visits, its log has that warning, then
the failure of the rule with the same text. It has nothing else. -/
theorem failures_reported (t : RuleTable) (input : String) {a : Arena} (ha : a.Linked)
    (r : NodeId) :
    (∀ (x : Action) (i : NodeId), (x.apply input a i).Reports) ∧
    (walk (.ofTable t) input a r ()).stack = [] ∧
    t.visited input a r = (t.showings input a r).map Walk.Showing.node ∧
    ∃ reports, (t.showings input a r).Forall₂ (t.Reported input) reports ∧
      ((Command.toAst t r input).run a).log = reports.flatten :=
  ⟨fun x i => x.reports_apply input a i, (t.walk_ends input ha r).1, t.visited_eq input a r,
    t.exists_reports input a r⟩

/-- An action that fails behind edits that do not, in a sequence within a sequence. -/
def lateFailure : Action :=
  .sequence [.edit .literal, .sequence [.edit (.gather "z"), .edit (.insert 0 "k")]]

/-- A table with a rule that fails wherever it matches. -/
def lateTable : RuleTable :=
  .ofEntries [("y", [⟨.always, lateFailure⟩])]

/-- Nodes labelled `y` are relabelled before their rule fails. -/
theorem failures_reported_bushy :
    bushy.Linked ∧ (lateFailure.apply "abcd" bushy 3).Reports ∧
      (lateFailure.apply "abcd" bushy 3).result = .error (.unknownTearId 6 "k") ∧
      ∃ reports,
        (lateTable.showings "abcd" bushy 0).Forall₂ (lateTable.Reported "abcd") reports ∧
        ((Command.toAst lateTable 0 "abcd").run bushy).log = reports.flatten := by
  obtain ⟨hactions, -, -, hreports⟩ := lateTable.failures_reported "abcd" linked_bushy 0
  exact ⟨linked_bushy, hactions lateFailure 3, by rfl, hreports⟩

end RuleTable

end ParseTree
