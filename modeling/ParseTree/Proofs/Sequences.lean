import ParseTree.Proofs.Misuse

/-!
# Sequences of actions

An action may be a sequence, and so may the actions in it. What it does is settled by its edits
alone, from left to right. Either all of them succeed, each at the focus that the one before it
gave. Or some first ones do, the next one fails, and the arena is what those first ones have made of
it: the edit that fails writes nothing, and nothing is taken up again further out.

`Leads` says of a list of edits that all of them succeed, and where they lead. It knows of no
nesting, of no failure and of no events.

## Main results

* `Edit.Leads.unique`, `Edit.leads_append`: edits lead to one place, and can be cut anywhere.
* `Edit.applyAll_ok_iff`, `Edit.applyAll_error_iff`: a list of edits succeeds or stops.
* `Action.apply_flattens`: an action, however it is nested.
-/

namespace ParseTree

open Arena

variable {input : String} {a b d : Arena} {i j k : NodeId} {e : Edit} {es fs done : List Edit}
  {error : EditError}

namespace Edit

/-! ## Edits that all succeed -/

/-- The edits of a list succeed one after the other, each at the focus that the one before it gave.
They lead from focus `i` in arena `a` to focus `j` in arena `b`. -/
inductive Leads (input : String) : List Edit → Arena → NodeId → Arena → NodeId → Prop
  | nil (a : Arena) (i : NodeId) : Leads input [] a i a i
  | cons {e : Edit} {es : List Edit} {a b : Arena} {i j k : NodeId}
      (hstep : (e.apply input a i).result = .ok j)
      (hrest : Leads input es (e.apply input a i).arena j b k) : Leads input (e :: es) a i b k

theorem leads_nil_iff : Leads input [] a i b j ↔ a = b ∧ i = j :=
  ⟨fun | .nil _ _ => ⟨rfl, rfl⟩, fun ⟨ha, hi⟩ => ha ▸ hi ▸ .nil a i⟩

theorem leads_cons_iff : Leads input (e :: es) a i b k ↔
    ∃ j, (e.apply input a i).result = .ok j ∧
      Leads input es (e.apply input a i).arena j b k :=
  ⟨fun | .cons hstep hrest => ⟨_, hstep, hrest⟩, fun ⟨_, hstep, hrest⟩ => .cons hstep hrest⟩

/-- **Edits lead to one place.** -/
theorem Leads.unique (h : Leads input es a i b j) (h' : Leads input es a i d k) :
    b = d ∧ j = k := by
  induction h with
  | nil a i => exact leads_nil_iff.mp h'
  | cons hstep _ ih =>
    obtain ⟨j', hstep', hrest'⟩ := leads_cons_iff.mp h'
    rw [hstep] at hstep'
    cases hstep'
    exact ih hrest'

/-- **A list of edits may be cut anywhere.** -/
theorem leads_append : Leads input (es ++ fs) a i b k ↔
    ∃ d j, Leads input es a i d j ∧ Leads input fs d j b k := by
  induction es generalizing a i with
  | nil => simp [leads_nil_iff]
  | cons e es ih =>
    simp only [List.cons_append, leads_cons_iff, ih]
    constructor
    · rintro ⟨j, hstep, d, j', hes, hfs⟩
      exact ⟨d, j', ⟨j, hstep, hes⟩, hfs⟩
    · rintro ⟨d, j', ⟨j, hstep, hes⟩, hfs⟩
      exact ⟨j, hstep, d, j', hes, hfs⟩

/-! ## Edits that stop -/

/-- The edits of `done` succeed, and the next one of the list fails where they lead. -/
def StopsAfter (input : String) (es : List Edit) (a : Arena) (i : NodeId) (done : List Edit)
    (error : EditError) (b : Arena) : Prop :=
  ∃ failing rest j, es = done ++ failing :: rest ∧ Leads input done a i b j ∧
    (failing.apply input b j).result = .error error

/-- **Nothing longer succeeds.** What was done is the longest front of the list that succeeds. -/
theorem StopsAfter.prefix_of_leads (h : StopsAfter input es a i done error b)
    (hfs : fs <+: es) (hleads : Leads input fs a i d k) : fs <+: done := by
  obtain ⟨failing, rest, j, rfl, hdone, hno⟩ := h
  rcases List.prefix_or_prefix_of_prefix hfs (List.prefix_append ..) with hle | ⟨more, rfl⟩
  · exact hle
  cases more with
  | nil => exact (List.append_nil done).symm ▸ List.prefix_refl done
  | cons e more =>
    -- the edit behind `done` would be the one that fails
    obtain ⟨rfl, -⟩ := List.cons_prefix_cons.mp ((List.prefix_append_right_inj done).mp hfs)
    obtain ⟨b', j', hdone', hmore⟩ := leads_append.mp hleads
    obtain ⟨rfl, rfl⟩ := hdone.unique hdone'
    obtain ⟨_, hyes, -⟩ := leads_cons_iff.mp hmore
    rw [hno] at hyes
    cases hyes

/-- A list stops at once if its first edit fails. -/
theorem exists_stopsAfter_of_error {error' : EditError}
    (hno : (e.apply input a i).result = .error error') :
    (∃ done, StopsAfter input (e :: es) a i done error b) ↔ error' = error ∧ a = b := by
  constructor
  · rintro ⟨done, failing, rest, j, hsplit, hdone, hfail⟩
    cases done with
    | nil =>
      obtain ⟨rfl, rfl⟩ := List.cons.inj hsplit
      obtain ⟨rfl, rfl⟩ := leads_nil_iff.mp hdone
      exact ⟨Except.error.inj (hno.symm.trans hfail), rfl⟩
    | cons e' done =>
      obtain ⟨rfl, -⟩ := List.cons.inj hsplit
      obtain ⟨j', hyes, -⟩ := leads_cons_iff.mp hdone
      rw [hno] at hyes
      cases hyes
  · rintro ⟨rfl, rfl⟩
    exact ⟨[], e, es, i, rfl, .nil a i, hno⟩

/-- If its first edit succeeds, it stops where the rest of it does. -/
theorem exists_stopsAfter_of_ok (hstep : (e.apply input a i).result = .ok j) :
    (∃ done, StopsAfter input (e :: es) a i done error b) ↔
      ∃ done, StopsAfter input es (e.apply input a i).arena j done error b := by
  constructor
  · rintro ⟨done, failing, rest, k, hsplit, hdone, hfail⟩
    cases done with
    | nil =>
      obtain ⟨rfl, rfl⟩ := List.cons.inj hsplit
      obtain ⟨rfl, rfl⟩ := leads_nil_iff.mp hdone
      rw [hstep] at hfail
      cases hfail
    | cons e' done =>
      obtain ⟨rfl, hrest⟩ := List.cons.inj hsplit
      obtain ⟨j', hstep', hdone⟩ := leads_cons_iff.mp hdone
      obtain rfl : j = j' := Except.ok.inj (hstep.symm.trans hstep')
      exact ⟨done, failing, rest, k, hrest, hdone, hfail⟩
  · rintro ⟨done, failing, rest, k, rfl, hdone, hfail⟩
    exact ⟨e :: done, failing, rest, k, rfl, .cons hstep hdone, hfail⟩

/-! ## Applying edits in turn -/

theorem applyAll_cons_of_ok (es : List Edit) (hstep : (e.apply input a i).result = .ok j) :
    (applyAll input (e :: es) a i).result =
        (applyAll input es (e.apply input a i).arena j).result ∧
      (applyAll input (e :: es) a i).arena =
        (applyAll input es (e.apply input a i).arena j).arena := by
  rw [applyAll]
  generalize e.apply input a i = o at hstep
  obtain ⟨result, b, log⟩ := o
  obtain rfl : result = .ok j := hstep
  exact ⟨rfl, rfl⟩

theorem applyAll_cons_of_error (es : List Edit)
    (hno : (e.apply input a i).result = .error error) :
    (applyAll input (e :: es) a i).result = .error error ∧
      (applyAll input (e :: es) a i).arena = a := by
  have hatomic := arena_of_error hno
  rw [applyAll]
  generalize e.apply input a i = o at hno hatomic
  obtain ⟨result, b, log⟩ := o
  obtain rfl : result = .error error := hno
  exact ⟨rfl, hatomic⟩

/-- **Edits in turn succeed** if all of them do. -/
theorem applyAll_ok_iff :
    (applyAll input es a i).result = .ok k ∧ (applyAll input es a i).arena = b ↔
      Leads input es a i b k := by
  induction es generalizing a i with
  | nil =>
    rw [leads_nil_iff, applyAll]
    exact ⟨fun ⟨hk, hb⟩ => ⟨hb, Except.ok.inj hk⟩, fun ⟨hb, hk⟩ => ⟨congrArg _ hk, hb⟩⟩
  | cons e es ih =>
    rw [leads_cons_iff]
    cases hstep : (e.apply input a i).result with
    | ok j =>
      obtain ⟨hresult, harena⟩ := applyAll_cons_of_ok es hstep
      rw [hresult, harena, ih]
      simp
    | error error =>
      rw [(applyAll_cons_of_error es hstep).1]
      simp

/-- **Edits in turn fail** if one of them does, and they leave what those before it have left. -/
theorem applyAll_error_iff :
    (applyAll input es a i).result = .error error ∧ (applyAll input es a i).arena = b ↔
      ∃ done, StopsAfter input es a i done error b := by
  induction es generalizing a i with
  | nil =>
    constructor
    · rintro ⟨hno, -⟩
      cases hno
    · rintro ⟨done, failing, rest, j, hsplit, -⟩
      simp at hsplit
  | cons e es ih =>
    cases hstep : (e.apply input a i).result with
    | ok j =>
      obtain ⟨hresult, harena⟩ := applyAll_cons_of_ok es hstep
      rw [hresult, harena, ih, exists_stopsAfter_of_ok hstep]
    | error error' =>
      obtain ⟨hresult, harena⟩ := applyAll_cons_of_error es hstep
      rw [hresult, harena, exists_stopsAfter_of_error hstep, Except.error.injEq]

end Edit

/-! ## Actions -/

namespace Action

theorem editsAll_map_edit (es : List Edit) : editsAll (es.map .edit) = es := by
  induction es with
  | nil => rfl
  | cons e es ih => rw [List.map_cons, editsAll, edits, ih, List.singleton_append]

/-- **An action means the list of its edits**, however its sequences are nested. It does what the
flat sequence of them does. It succeeds if all of them succeed in turn, and gives the arena and the
focus that they lead to. It fails if one of them fails, with the error of the first that does, and
then the arena is the one that the edits before that one lead to, of which there is no longer front
that succeeds. -/
theorem apply_flattens (input : String) (x : Action) (a : Arena) (i : NodeId) :
    x.apply input a i = (Action.sequence (x.edits.map .edit)).apply input a i ∧
    (∀ b j, (x.apply input a i).result = .ok j ∧ (x.apply input a i).arena = b ↔
      Edit.Leads input x.edits a i b j) ∧
    (∀ error b, (x.apply input a i).result = .error error ∧ (x.apply input a i).arena = b ↔
      ∃ done, Edit.StopsAfter input x.edits a i done error b) ∧
    ∀ done error b, Edit.StopsAfter input x.edits a i done error b →
      ∀ front, front <+: x.edits → (∃ d k, Edit.Leads input front a i d k) → front <+: done := by
  have hflat : (Action.sequence (x.edits.map .edit)).edits = x.edits := editsAll_map_edit x.edits
  rw [apply_eq_applyEdits, apply_eq_applyEdits, hflat]
  exact ⟨rfl, fun b j => Edit.applyAll_ok_iff, fun error b => Edit.applyAll_error_iff,
    fun done error b hstops front hfront ⟨d, k, hleads⟩ => hstops.prefix_of_leads hfront hleads⟩

end Action

end ParseTree
