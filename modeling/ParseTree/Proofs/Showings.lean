import ParseTree.Proofs.Agenda

/-!
# What a walk shows

`showings` lists what a walk shows to its scheme, each node with the arenas before and after. A
recording scheme notes the same nodes and changes nothing else. For a scheme that is confined to the
node it is shown, the agenda of the walk then says which nodes these are: a step either goes down,
or shows the front of the agenda, or ends the walk. By induction on the steps, what was shown and
what is still on the agenda make up the agenda of the beginning, but for the subtrees that were
moved away from behind a node that was being shown.

## Main results

* `run_recording`: a recorded run is the run, and records what it shows.
* `run_eq_foldl`: a run transforms what it shows.
* `Follows.step`, `Follows.run`: one step, and any number of them.
* `RuleTable.visited_eq`: a recording of a walk notes the nodes that are shown.
-/

namespace ParseTree

open Arena

namespace Walk

variable {σ : Type} {s : Scheme σ} {input : String} {a b : Arena} {agenda : List NodeId}
  {gathers : Bool} {n : Nat}

/-! ## Showings -/

/-- A node that was shown to a scheme, and the arenas before and after. -/
structure Showing where
  node : NodeId
  before : Arena
  after : Arena

/-- The right siblings of the node that have lost their parent or have got another one. -/
def Showing.moved (v : Showing) : List NodeId :=
  (v.before.rightSiblings v.node).filter fun x => (v.after.node x).parent ≠ (v.before.node x).parent

/-- The node that the next step shows, if it shows one. -/
def shown? (w : Walk σ) : Option NodeId :=
  match w.stack with
  | (_, some i) :: _ => if (w.arena.node i).firstChild = none then some i else none
  | (i, none) :: _ :: _ => some i
  | _ => none

/-- What the next `n` steps show. -/
def showings (s : Scheme σ) (input : String) : Nat → Walk σ → List Showing
  | 0, _ => []
  | n + 1, w =>
    let next := step s input w
    match w.shown? with
    | some i => ⟨i, w.arena, next.arena⟩ :: showings s input n next
    | none => showings s input n next

theorem showings_of_shown {w : Walk σ} {i : NodeId} (h : w.shown? = some i) :
    showings s input (n + 1) w =
      ⟨i, w.arena, (step s input w).arena⟩ :: showings s input n (step s input w) := by
  rw [showings, h]

theorem showings_of_not_shown {w : Walk σ} (h : w.shown? = none) :
    showings s input (n + 1) w = showings s input n (step s input w) := by
  rw [showings, h]

/-- A walk that is over shows nothing. -/
theorem showings_of_stack_nil {w : Walk σ} (h : w.stack = []) : showings s input n w = [] := by
  obtain ⟨stack, state, b, log⟩ := w
  obtain rfl : stack = [] := h
  induction n with
  | zero => rfl
  | succ n ih =>
    rw [showings_of_not_shown rfl]
    exact ih

/-! ## Recording -/

/-- The walk without what was recorded. -/
def withoutRecords (w : Walk (Array VisitRecord × σ)) : Walk σ :=
  ⟨w.stack, w.state.2, w.arena, w.log⟩

/-- A node as it is recorded. -/
def Showing.record (v : Showing) : VisitRecord :=
  (v.node, (v.before.node v.node).label)

/-- A step of a recorded walk is a step of the walk, and records what it shows. -/
theorem step_recording (s : Scheme σ) (input : String) (w : Walk (Array VisitRecord × σ)) :
    (step s.recording input w).withoutRecords = step s input w.withoutRecords ∧
      (step s.recording input w).state.1.toList = w.state.1.toList ++
        (w.withoutRecords.shown?.toList.map fun i => (i, (w.arena.node i).label)) := by
  obtain ⟨stack, ⟨records, state⟩, b, log⟩ := w
  match stack with
  | [] => exact ⟨rfl, (List.append_nil _).symm⟩
  | (q, some i) :: rest =>
    cases hi : (b.node i).firstChild with
    | some first =>
      rw [step_descend _ _ hi]
      refine ⟨?_, ?_⟩
      · rw [withoutRecords, withoutRecords, step_descend _ _ hi]
      · simp [withoutRecords, shown?, hi]
    | none =>
      rw [step_leaf _ _ hi]
      refine ⟨?_, ?_⟩
      · rw [withoutRecords, withoutRecords, step_leaf _ _ hi]
        rfl
      · simp [withoutRecords, shown?, hi, visit, Scheme.recording]
  | [(q, none)] => exact ⟨rfl, (List.append_nil _).symm⟩
  | (i, none) :: (q, next) :: rest =>
    refine ⟨rfl, ?_⟩
    simp [withoutRecords, shown?, step_ascend, visit, Scheme.recording]

/-- A recorded run is the run, and its records are those of its showings. -/
theorem run_recording (n : Nat) (w : Walk (Array VisitRecord × σ)) :
    (run s.recording input n w).withoutRecords = run s input n w.withoutRecords ∧
      (run s.recording input n w).state.1.toList = w.state.1.toList ++
        (showings s input n w.withoutRecords).map Showing.record := by
  induction n generalizing w with
  | zero => exact ⟨rfl, (List.append_nil _).symm⟩
  | succ n ih =>
    by_cases hw : w.stack = []
    · rw [run_of_stack_nil _ _ _ hw, run_of_stack_nil _ _ _ (by exact hw),
        showings_of_stack_nil (by exact hw)]
      exact ⟨rfl, (List.append_nil _).symm⟩
    obtain ⟨hstep, hrecords⟩ := step_recording s input w
    obtain ⟨hrun, hstate⟩ := ih (step s.recording input w)
    have hne : w.stack.isEmpty = false := by simpa using hw
    rw [run, run, hne, if_neg (by simp), show w.withoutRecords.stack.isEmpty = false from hne,
      if_neg (by simp), hrun, hstep, hstate, hrecords, hstep]
    refine ⟨rfl, ?_⟩
    cases hshown : w.withoutRecords.shown? with
    | none => rw [showings_of_not_shown hshown]; simp
    | some i =>
      rw [showings_of_shown hshown]
      simp [Showing.record, withoutRecords]

theorem recorded_eq (n : Nat) (a : Arena) (r : NodeId) (state : σ) :
    (run s.recording input n (start a r (#[], state))).state.1.toList.map Prod.fst =
      (showings s input n (start a r state)).map Showing.node := by
  rw [(run_recording n _).2, List.map_append, List.map_map]
  rfl

/-! ## What a walk makes of an arena -/

/-- A step that shows a node visits it. -/
theorem exists_step_eq_visit (s : Scheme σ) (input : String) {w : Walk σ} {i : NodeId}
    (h : w.shown? = some i) :
    ∃ owner rest, step s input w = visit s input i owner rest w.state w.arena w.log := by
  obtain ⟨stack, state, b, log⟩ := w
  match stack with
  | [] => cases h
  | (q, some j) :: rest =>
    cases hj : (b.node j).firstChild with
    | some first => simp [shown?, hj] at h
    | none =>
      obtain rfl : j = i := by simpa [shown?, hj] using h
      exact ⟨q, rest, step_leaf _ _ hj⟩
  | [(q, none)] => cases h
  | (j, none) :: (q, next) :: rest =>
    obtain rfl : j = i := by simpa [shown?] using h
    exact ⟨q, rest, rfl⟩

/-- A step that shows a node transforms it. -/
theorem step_of_shown (s : Scheme σ) (input : String) {w : Walk σ} {i : NodeId}
    (h : w.shown? = some i) :
    (step s input w).state = (s.transform input w.state w.arena i).1 ∧
      (step s input w).arena = (s.transform input w.state w.arena i).2.1 := by
  obtain ⟨owner, rest, hstep⟩ := exists_step_eq_visit s input h
  rw [hstep]
  exact ⟨rfl, rfl⟩

/-- Any other step changes nothing but the stack. -/
theorem exists_step_of_not_shown (s : Scheme σ) (input : String) {w : Walk σ}
    (h : w.shown? = none) : ∃ stack, step s input w = { w with stack } := by
  obtain ⟨stack, state, b, log⟩ := w
  match stack with
  | [] => exact ⟨[], rfl⟩
  | (q, some j) :: rest =>
    cases hj : (b.node j).firstChild with
    | some first => exact ⟨_, step_descend _ _ hj⟩
    | none => simp [shown?, hj] at h
  | [(q, none)] => exact ⟨[], rfl⟩
  | (j, none) :: (q, next) :: rest => cases h

/-- Any other step leaves the arena alone. -/
theorem step_of_not_shown (s : Scheme σ) (input : String) {w : Walk σ} (h : w.shown? = none) :
    (step s input w).state = w.state ∧ (step s input w).arena = w.arena := by
  obtain ⟨stack, hstep⟩ := exists_step_of_not_shown s input h
  rw [hstep]
  exact ⟨rfl, rfl⟩

/-- **A run transforms the nodes that it shows**, one after the other. -/
theorem run_eq_foldl (s : Scheme σ) (input : String) (n : Nat) (w : Walk σ) :
    ((run s input n w).state, (run s input n w).arena) =
      ((showings s input n w).map Showing.node).foldl
        (fun x i => ((s.transform input x.1 x.2 i).1, (s.transform input x.1 x.2 i).2.1))
        (w.state, w.arena) := by
  induction n generalizing w with
  | zero => rfl
  | succ n ih =>
    by_cases hw : w.stack = []
    · rw [run_of_stack_nil _ _ _ hw, showings_of_stack_nil hw]
      rfl
    rw [run, if_neg (by simpa using hw), ih]
    cases hshown : w.shown? with
    | none =>
      obtain ⟨hstate, harena⟩ := step_of_not_shown s input hshown
      rw [showings_of_not_shown hshown, hstate, harena]
    | some i =>
      obtain ⟨hstate, harena⟩ := step_of_shown s input hshown
      rw [showings_of_shown hshown, hstate, harena]
      rfl

end Walk

/-! ## Confined schemes -/

/-- What the scheme does at a node is confined to the site of the node. Unless it `gathers`, nothing
that stands behind the node is moved. -/
def Scheme.IsConfined {σ : Type} (s : Scheme σ) (gathers : Bool) : Prop :=
  ∀ (input : String) (state : σ) {a : Arena}, a.Linked → ∀ site : a.Site,
    ∃ left g, site.Confined left (s.transform input state a site.node).2.1 g ∧
      left <:+ site.after ∧ (gathers = false → left = site.after)

theorem RuleTable.isConfined (t : RuleTable) : (Scheme.ofTable t).IsConfined t.gathersSiblings :=
  fun input _ _ ha site => t.transform_confined input ha site

namespace Walk

variable {σ : Type} {s : Scheme σ} {input : String} {a b : Arena} {agenda : List NodeId}
  {gathers : Bool} {n : Nat}

/-! ## Following an agenda -/

/-- A walk that began in arena `a` has the nodes of `agenda` ahead. -/
structure Follows (a : Arena) (w : Walk σ) (agenda : List NodeId) : Prop where
  linked : w.arena.Linked
  onAgenda : OnAgenda a w.arena w.stack agenda

theorem follows_start (ha : a.Linked) (r : NodeId) (state : σ) :
    Follows a (start a r state) (a.postorderBelow r) :=
  ⟨ha, onAgenda_start ha r⟩

/-- The nodes in the subtrees that were moved away. -/
def Showing.lost (a : Arena) (v : Showing) : List NodeId :=
  v.moved.flatMap a.postorder

/-- Showing a node of a list whose later members are intact. -/
theorem follows_visit (hs : s.IsConfined gathers) (input : String) (ha : a.Linked) (hb : b.Linked)
    {i q : NodeId} {before after ahead : List NodeId} {rest : List (NodeId × Option NodeId)}
    (hq : b.children q = before ++ i :: after) (hafter : a.Intact b after)
    (houter : Outer a b q rest ahead) (state : σ) (log : Array Event) :
    let w := visit s input i q rest state b log
    let v : Showing := ⟨i, b, w.arena⟩
    w.stack.length = rest.length + 1 ∧ (gathers = false → v.moved = []) ∧
      ∃ tail, Follows a w tail ∧ after.flatMap a.postorder ++ ahead = v.lost a ++ tail := by
  let site : Site b := ⟨i, q, before, after, hq⟩
  obtain ⟨left, g, hd, hleft, hkeep⟩ := hs input state hb site
  obtain ⟨gone, hgone⟩ := hleft
  have hmoved : (Showing.mk i b (visit s input i q rest state b log).arena).moved = gone :=
    hd.filter_rightSiblings hb hgone.symm
  have hstack : (visit s input i q rest state b log).stack = (q, left.head?) :: rest := by
    rw [← hd.next_eq hb]
    rfl
  dsimp only
  refine ⟨by rw [hstack]; rfl, fun hno => ?_, left.flatMap a.postorder ++ ahead,
    ⟨hd.linked, ?_⟩, ?_⟩
  · rw [hmoved]
    have hsame : gone ++ left = left := hgone.trans (hkeep hno).symm
    simpa using hsame
  · rw [hstack]
    exact OnAgenda.visit ha hb site hafter houter hd ⟨gone, hgone⟩
  · rw [Showing.lost, hmoved, show after = gone ++ left from hgone.symm, List.flatMap_append,
      List.append_assoc]

/-- **One step** of a walk that is not over. It goes down, which leaves the agenda as it is, or it
ends the walk, or it shows the node at the front of the agenda. -/
theorem Follows.step (hs : s.IsConfined gathers) (input : String) (ha : a.Linked) {w : Walk σ}
    (h : Follows a w agenda) (hw : w.stack ≠ []) :
    (w.shown? = none ∧ Follows a (step s input w) agenda ∧
      ((step s input w).stack = [] ∨ (step s input w).stack.length = w.stack.length + 1)) ∨
    ∃ i tail, w.shown? = some i ∧ Follows a (step s input w) tail ∧
      agenda = i :: (Showing.lost a ⟨i, w.arena, (step s input w).arena⟩ ++ tail) ∧
      (gathers = false → (Showing.mk i w.arena (step s input w).arena).moved = []) ∧
      w.stack.length ≤ (step s input w).stack.length + 1 := by
  obtain ⟨stack, state, b, log⟩ := w
  obtain ⟨hb, hagenda⟩ := h
  match stack with
  | [] => exact absurd rfl hw
  | (q, some i) :: rest =>
    have hlist := (hb : b.Linked).childList i
    cases hi : (b.node i).firstChild with
    | some first =>
      rw [step_descend _ _ hi]
      refine .inl ⟨by simp [shown?, hi], ⟨hb, ?_⟩, .inr rfl⟩
      have hdown := OnAgenda.descend ha hagenda
      rwa [← hlist.firstChild, hi] at hdown
    | none =>
      rw [step_leaf _ _ hi]
      obtain ⟨before, after, ahead, hq, hnext, hafter, houter, rfl⟩ := hagenda
      obtain ⟨after, rfl⟩ : ∃ after', after = i :: after' := List.head?_eq_some_iff.mp hnext.symm
      have hmem : i ∈ i :: after := List.mem_cons_self ..
      have hleaf : a.postorder i = [i] := by
        have hnil : a.children i = [] := by
          rw [← hafter.children_eq hmem, hlist.nil_of_firstChild hi]
        rw [ha.postorder_eq (hafter i hmem).1, postorderBelow, hnil]
        rfl
      obtain ⟨hlen, hmoved, tail, htail, htake⟩ := follows_visit hs input ha hb hq
        (hafter.subset (List.subset_cons_self ..)) houter state log
      refine .inr ⟨i, tail, by simp [shown?, hi], htail, ?_, hmoved, ?_⟩
      · rw [List.flatMap_cons, hleaf, ← htake]
        rfl
      · rw [hlen]
        exact Nat.le_succ _
  | [(q, none)] =>
    refine .inl ⟨rfl, ⟨hb, ?_⟩, .inl rfl⟩
    obtain ⟨before, after, ahead, -, hnext, -, houter, rfl⟩ := hagenda
    obtain rfl : after = [] := List.head?_eq_none_iff.mp hnext.symm
    exact houter
  | (i, none) :: (q, next) :: rest =>
    obtain ⟨before, after, ahead, -, hnext, -, houter, rfl⟩ := hagenda
    obtain rfl : after = [] := List.head?_eq_none_iff.mp hnext.symm
    obtain ⟨-, before', after', ahead', hq, hafter, houter', rfl⟩ := houter
    obtain ⟨hlen, hmoved, tail, htail, htake⟩ :=
      follows_visit hs input ha hb hq hafter houter' state log
    refine .inr ⟨i, tail, rfl, htail, ?_, hmoved, ?_⟩
    · rw [List.flatMap_nil, List.nil_append]
      exact congrArg _ htake
    · rw [step_ascend, hlen]
      exact Nat.le_refl _

/-- **Any number of steps.** What was shown, what is ahead and what was lost make up the agenda of
the beginning. What was shown comes in the order of the agenda and before what is ahead. -/
theorem Follows.run (hs : s.IsConfined gathers) (input : String) (ha : a.Linked) {w : Walk σ}
    (h : Follows a w agenda) (n : Nat) :
    ∃ tail, Follows a (run s input n w) tail ∧
      ((showings s input n w).map Showing.node ++ tail).Sublist agenda ∧
      agenda.Perm ((showings s input n w).map Showing.node ++ tail ++
        (showings s input n w).flatMap (Showing.lost a)) ∧
      (gathers = false → (showings s input n w).flatMap (Showing.lost a) = []) ∧
      (2 * agenda.length + 2 ≤ n + w.stack.length → (run s input n w).stack = []) := by
  induction n generalizing w agenda with
  | zero =>
    refine ⟨agenda, h, List.Sublist.refl _, by simp [showings], fun _ => rfl, fun hn => ?_⟩
    have hle : w.stack.length ≤ agenda.length + 1 := h.onAgenda.length_stack_le
    omega
  | succ n ih =>
    by_cases hw : w.stack = []
    · rw [run_of_stack_nil _ _ _ hw, showings_of_stack_nil hw]
      exact ⟨agenda, h, List.Sublist.refl _, by simp, fun _ => rfl, fun _ => hw⟩
    have hrun : run s input (n + 1) w = run s input n (Walk.step s input w) := by
      rw [run, if_neg (by simpa using hw)]
    rw [hrun]
    rcases h.step hs input ha hw with
      ⟨hshown, hnext, hstack⟩ | ⟨i, rest, hshown, hnext, rfl, hmoved, hstack⟩
    · rw [showings_of_not_shown hshown]
      obtain ⟨tail, htail, hsub, hperm, hlost, hend⟩ := ih hnext
      refine ⟨tail, htail, hsub, hperm, hlost, fun hn => ?_⟩
      rcases hstack with hnil | hlen
      · rw [run_of_stack_nil _ _ _ hnil, hnil]
      · exact hend (by omega)
    · rw [showings_of_shown hshown]
      obtain ⟨tail, htail, hsub, hperm, hlost, hend⟩ := ih hnext
      generalize hv : Showing.mk i w.arena (Walk.step s input w).arena = v
      rw [hv] at hmoved
      refine ⟨tail, htail, ?_, ?_, fun hno => ?_, fun hn => hend ?_⟩
      · rw [List.map_cons, List.cons_append, ← hv]
        exact (hsub.trans (List.sublist_append_right _ _)).cons_cons i
      · rw [List.map_cons, List.flatMap_cons, ← hv]
        exact ((hperm.append_left _).trans (List.perm_append_comm_assoc ..)).cons i
      · rw [List.flatMap_cons, hlost hno, Showing.lost, hmoved hno]
        rfl
      · simp only [List.length_cons, List.length_append] at hn
        omega

end Walk

/-- The nodes that a walk with a rule table shows to the table, in order, as a recording of the walk
notes them. -/
def RuleTable.visited (t : RuleTable) (input : String) (a : Arena) (r : NodeId) : List NodeId :=
  (walk (Scheme.ofTable t).recording input a r (#[], ())).state.1.toList.map Prod.fst

/-- What a walk with a rule table shows. -/
def RuleTable.showings (t : RuleTable) (input : String) (a : Arena) (r : NodeId) :
    List Walk.Showing :=
  Walk.showings (Scheme.ofTable t) input (Walk.bound a) (Walk.start a r ())

/-- A recording notes the nodes that are shown. -/
theorem RuleTable.visited_eq (t : RuleTable) (input : String) (a : Arena) (r : NodeId) :
    t.visited input a r = (t.showings input a r).map Walk.Showing.node :=
  Walk.recorded_eq (Walk.bound a) a r ()

end ParseTree
