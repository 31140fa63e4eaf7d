import ParseTree.Proofs.CloneShape
import ParseTree.Proofs.Sequences

/-!
# The focus keeps its content

A sequence of edits goes on with what a rule matched, although the node that holds it may change.
Gathering relabels the focus, makes it a non-terminal and may widen it, but it has put all that the
focus was into a copy before, and the copy is the focus from then on. Every other edit leaves the
focus where it is and writes elsewhere: to the first child, which gathering may relabel, or to the
parent, to which a fold hands its label on. Relabelling by the input is the one edit that writes to
the focus, and it writes no more than the label.

So the extents of the focus are those of the node that was matched, whatever comes before, and the
text below it is the text below that node.

## Main results

* `Edit.keeps_apply`: an edit writes to the contents of the nodes in `Edit.writes` only.
* `Edit.field_focus`, `Edit.Leads.field_focus`: a field that copies share is handed on from focus to
  focus.
* `Edit.Leads.underlyingText?_focus`, `Edit.Leads.label_focus`: the text below the focus of edits in
  turn, and its label.
* `Action.focus_keeps_content`: what an action hands on, and what relabelling writes.
-/

namespace ParseTree

/-- The kind, the extents and the tear store of a node. A copy has them from the node, whatever
label it gets. -/
def Node.footing (n : Node) : Kind × Nat × Nat × Nat :=
  (n.kind, n.left, n.right, n.store)

/-- A field that a copy of a node has from it. -/
def Node.Inherited {β : Type} (field : Node → β) : Prop :=
  ∀ (n : Node) (identity : Nat), field (n.detached identity) = field n

theorem Node.Inherited.linkFree {β : Type} {field : Node → β} (h : Inherited field) :
    LinkFree field :=
  fun n => h n n.identity

open Arena

variable {β : Type} {field : Node → β} {K : Set NodeId} {a b : Arena} {i j : NodeId} {e : Edit}
  {es : List Edit} {input : String}

namespace Edit

/-! ## Where an edit writes -/

/-- The nodes to whose contents an edit at the focus `i` may write. -/
def writes (a : Arena) (i : NodeId) : Edit → List NodeId
  | literal | gather _ | gatherWithSiblings _ | gatherWithNext .. => [i]
  | foldOver => (a.node i).parent.toList
  | gatherChildren _ | gatherFirstChild _ => (a.node i).firstChild.toList
  | foldUnder | tear | tearAs _ | insert .. => []

/-- **Nothing else is written to.** Besides links an edit changes the nodes in `writes` at most. -/
theorem keeps_apply (hf : Node.LinkFree field) (input : String) (e : Edit)
    (h : ∀ x ∈ e.writes a i, x ∉ K) : Keeps field K a (e.apply input a i).arena := by
  cases e with
  | literal =>
    have hi : i ∉ K := h i List.mem_cons_self
    unfold apply
    dsimp only
    split
    · exact keeps_update (.inl hi)
    · exact .refl field K a
  | foldUnder => simpa only [apply, Outcome.arena_map] using hf.keeps_foldUnder i
  | foldOver =>
    have hp : ∀ p ∈ (a.node i).parent, p ∉ K := fun p hp => h p (Option.mem_toList.mpr hp)
    simpa only [apply, Outcome.arena_map] using hf.keeps_foldOver (.inl hp)
  | gather label => exact hf.keeps_gather (.inl (h i List.mem_cons_self)) label
  | gatherWithSiblings label =>
    exact hf.keeps_gatherWithSiblings (.inl (h i List.mem_cons_self)) label _
  | gatherWithNext label count =>
    unfold apply
    dsimp only
    split
    · exact .refl field K a
    · exact hf.keeps_gatherWithSiblings (.inl (h i List.mem_cons_self)) label _
  | gatherChildren label =>
    rw [apply]
    cases hfirst : (a.node i).firstChild with
    | none => exact .refl field K a
    | some first =>
      have hmem : first ∉ K := h first (Option.mem_toList.mpr hfirst)
      simpa only [Outcome.arena_map] using hf.keeps_gatherWithSiblings (.inl hmem) label _
  | gatherFirstChild label =>
    rw [apply]
    cases hfirst : (a.node i).firstChild with
    | none => exact .refl field K a
    | some first =>
      exact hf.keeps_gather (.inl (h first (Option.mem_toList.mpr hfirst))) label
  | tear => simpa only [apply, Outcome.arena_map] using hf.keeps_tear i
  | tearAs key => simpa only [apply, Outcome.arena_map] using hf.keeps_tearInto i key
  | insert position key =>
    simpa only [apply, Outcome.arena_map] using hf.keeps_insert i position.toNat key

/-! ## From focus to focus -/

/-- Relabelling by the input succeeds if there is text, and then it writes that text. -/
theorem apply_literal_ok_iff : (literal.apply input a i).result = .ok j ↔
    i = j ∧ ∃ text, a.underlyingText? i input = some text ∧
      literal.apply input a i = .ok (a.setLabel i text) i := by
  unfold apply
  dsimp only
  cases htext : a.underlyingText? i input with
  | none => simp [Outcome.fail]
  | some text => simp [Outcome.ok]

/-- Gathering hands a field on to the copy that it gives. -/
theorem field_gatherWithSiblings (hf : Node.Inherited field) (hi : i < a.size) {label : String}
    {siblings : List NodeId} (hj : (a.gatherWithSiblings i label siblings).result = .ok j) :
    j = a.size ∧
      field ((a.gatherWithSiblings i label siblings).arena.node j) = field (a.node i) := by
  have hne : i ∉ ({a.size} : Set NodeId) := Nat.ne_of_lt hi
  rcases a.gatherWithSiblings_outcome i label siblings with ⟨error, log, hno⟩ | ⟨after, -, hok⟩
  · rw [hno] at hj
    cases hj
  · rw [hok] at hj ⊢
    obtain rfl : a.size = j := Except.ok.inj hj
    refine ⟨rfl, ?_⟩
    rw [← hf.linkFree.field_gather_copy (.inl hne) hf rfl label]
    exact (hf.linkFree.keeps_gatherRest (.inl hne)).eq a.size rfl (by simp)

/-- An edit that does not write to the focus, and gives it back, hands a field on. -/
theorem field_of_not_mem_writes (hf : Node.LinkFree field) (hi : i < a.size)
    (hwrites : i ∉ e.writes a i) (hj : j = i) :
    (j = i ∨ j = a.size) ∧ field ((e.apply input a i).arena.node j) = field (a.node i) := by
  have hkeeps : Keeps field {i} a (e.apply input a i).arena :=
    keeps_apply hf input e fun x hx hxi => hwrites (hxi ▸ hx)
  exact ⟨.inl hj, hj ▸ hkeeps.eq i rfl hi⟩

/-- **From focus to focus.** The focus that an edit gives is the one that it was given, or a new
node. It has every field that copies share; relabelling by the input may write the label. -/
theorem field_focus (ha : a.Linked) (hi : i < a.size) (hf : Node.Inherited field)
    (hlabel : e = .literal → ∀ (n : Node) label, field { n with label } = field n)
    (hj : (e.apply input a i).result = .ok j) :
    (j = i ∨ j = a.size) ∧ field ((e.apply input a i).arena.node j) = field (a.node i) := by
  have hmap {α : Type} {o : Outcome α} (h : (o.map fun _ => i).result = .ok j) : j = i := by
    obtain ⟨_ | _, b, log⟩ := o
    · cases h
    · exact (Except.ok.inj h).symm
  have hparent : i ∉ (a.node i).parent.toList := fun hp =>
    ha.ne_of_parent (Option.mem_toList.mp hp) rfl
  have hfirst : i ∉ (a.node i).firstChild.toList := fun hc => by
    have hmem : i ∈ a.children i :=
      List.mem_of_mem_head? ((ha.childList i).firstChild ▸ Option.mem_toList.mp hc)
    exact ha.ne_of_parent (ha.mem_children.mp hmem) rfl
  cases e with
  | literal =>
    obtain ⟨rfl, text, -, hok⟩ := apply_literal_ok_iff.mp hj
    refine ⟨.inl rfl, ?_⟩
    rw [hok]
    show field ((a.setLabel i text).node i) = field (a.node i)
    rw [setLabel, node_update_self _ hi, hlabel rfl]
  | gather label =>
    obtain rfl : a.size = j := Except.ok.inj hj
    have hne : i ∉ ({a.size} : Set NodeId) := Nat.ne_of_lt hi
    exact ⟨.inr rfl, hf.linkFree.field_gather_copy (.inl hne) hf rfl label⟩
  | gatherWithSiblings label =>
    exact (field_gatherWithSiblings hf hi hj).imp_left .inr
  | gatherWithNext label count =>
    unfold apply at hj ⊢
    dsimp only at hj ⊢
    split at hj
    · cases hj
    · next hcount =>
      rw [if_neg hcount]
      exact (field_gatherWithSiblings hf hi hj).imp_left .inr
  | gatherChildren label =>
    refine field_of_not_mem_writes hf.linkFree hi hfirst ?_
    rw [apply] at hj
    cases hc : (a.node i).firstChild with
    | none =>
      rw [hc] at hj
      exact (Except.ok.inj hj).symm
    | some first =>
      rw [hc] at hj
      exact hmap hj
  | gatherFirstChild label =>
    refine field_of_not_mem_writes hf.linkFree hi hfirst ?_
    rw [apply] at hj
    cases hc : (a.node i).firstChild with
    | none =>
      rw [hc] at hj
      exact (Except.ok.inj hj).symm
    | some first =>
      rw [hc] at hj
      exact (Except.ok.inj hj).symm
  | foldOver => exact field_of_not_mem_writes hf.linkFree hi hparent (hmap hj)
  | foldUnder | tear | tearAs key | insert position key =>
    exact field_of_not_mem_writes hf.linkFree hi List.not_mem_nil (hmap hj)

/-! ## Edits in turn -/

/-- One edit leaves a linked arena, no smaller, with the focus in it. -/
theorem linked_apply (ha : a.Linked) (hi : i < a.size)
    (hj : (e.apply input a i).result = .ok j) :
    (e.apply input a i).arena.Linked ∧ a.size ≤ (e.apply input a i).arena.size ∧
      j < (e.apply input a i).arena.size := by
  have hkept : (e.apply input a i).arena.Linked ∧ True :=
    apply_keeps (I := fun _ => True) (fun _ _ _ => trivial) ha trivial hi
  exact ⟨hkept.1, size_le_arena_apply input e a i, focus_lt hi hj⟩

/-- **The focus of edits in turn** is the one they began with or a new node. It has every field that
copies share, the label included if no edit relabels by the input. -/
theorem Leads.field_focus (h : Leads input es a i b j) (ha : a.Linked) (hi : i < a.size)
    (hf : Node.Inherited field)
    (hlabel : literal ∈ es → ∀ (n : Node) label, field { n with label } = field n) :
    (j = i ∨ a.size ≤ j) ∧ j < b.size ∧ field (b.node j) = field (a.node i) := by
  induction h with
  | nil a i => exact ⟨.inl rfl, hi, rfl⟩
  | @cons e es a b i j k hstep _ ih =>
    obtain ⟨hlinked, hle, hlt⟩ := linked_apply ha hi hstep
    obtain ⟨hj, hfield⟩ := Edit.field_focus ha hi hf (fun he => hlabel (he ▸ List.mem_cons_self))
      hstep
    obtain ⟨hk, hkb, hfield'⟩ := ih hlinked hlt fun hmem => hlabel (List.mem_cons_of_mem e hmem)
    refine ⟨?_, hkb, hfield'.trans hfield⟩
    rcases hk with rfl | hk
    · exact hj.imp_right fun hnew => Nat.le_of_eq hnew.symm
    · exact .inr (Nat.le_trans hle hk)

/-! ## The text that the focus covers -/

/-- The text below a node is settled by its footing. -/
theorem underlyingText?_of_footing (h : (b.node j).footing = (a.node i).footing) :
    b.underlyingText? j input = a.underlyingText? i input := by
  simp only [Node.footing, Prod.mk.injEq] at h
  simp only [underlyingText?, textRange, h]

/-- The focus of edits in turn covers what it covered before them. -/
theorem Leads.underlyingText?_focus (h : Leads input es a i b j) (ha : a.Linked)
    (hi : i < a.size) : b.underlyingText? j input = a.underlyingText? i input :=
  underlyingText?_of_footing
    (h.field_focus ha hi (fun _ _ => rfl) fun _ _ _ => rfl).2.2

/-- **The label of the focus** of edits in turn is the one that the node had before them. If one of
them relabels by the input, it is the text that the node covered before them. -/
theorem Leads.label_focus (h : Leads input es a i b j) (ha : a.Linked) (hi : i < a.size) :
    some (b.node j).label =
      if literal ∈ es then a.underlyingText? i input else some (a.node i).label := by
  induction h with
  | nil a i => simp
  | @cons e es a b i j k hstep hrest ih =>
    obtain ⟨hlinked, -, hlt⟩ := linked_apply ha hi hstep
    have hone : Leads input [e] a i (e.apply input a i).arena j := .cons hstep (.nil ..)
    have htext := hone.underlyingText?_focus ha hi
    rw [ih hlinked hlt, htext]
    by_cases hlater : literal ∈ es
    · rw [if_pos hlater, if_pos (List.mem_cons_of_mem e hlater)]
    rw [if_neg hlater]
    by_cases he : e = literal
    · subst he
      obtain ⟨rfl, text, hsome, hok⟩ := apply_literal_ok_iff.mp hstep
      rw [if_pos List.mem_cons_self, hsome, hok]
      show some ((a.setLabel i text).node i).label = some text
      rw [setLabel, node_update_self _ hi]
    · have hno : literal ∉ e :: es := fun hmem => (List.mem_cons.mp hmem).elim (he ·.symm) hlater
      have hlabel : ((e.apply input a i).arena.node j).label = (a.node i).label :=
        (Edit.field_focus ha hi (fun _ _ => rfl) (fun hlit => absurd hlit he) hstep).2
      rw [if_neg hno, hlabel]

end Edit

/-! ## Actions -/

/-- **An action keeps the content of its focus.** The focus that it gives is the one it was given or
a node that it has made. It has the kind, the extents and the tear store that the matched node had,
and the label too, unless the action relabels by the input. Wherever it does so, what is written is
the text that the matched node covered before the action began, and it fails there if there is no
such text. -/
theorem Action.focus_keeps_content (input : String) (x : Action) (h : a.Linked)
    (hi : i < a.size) :
    (∀ b j, (x.apply input a i).result = .ok j ∧ (x.apply input a i).arena = b →
      (j = i ∨ a.size ≤ j ∧ j < b.size) ∧
      (b.node j).kind = (a.node i).kind ∧ (b.node j).left = (a.node i).left ∧
      (b.node j).right = (a.node i).right ∧ (b.node j).store = (a.node i).store ∧
      some (b.node j).label =
        if Edit.literal ∈ x.edits then a.underlyingText? i input else some (a.node i).label) ∧
    ∀ done rest b j, x.edits = done ++ Edit.literal :: rest → Edit.Leads input done a i b j →
      (∀ text, a.underlyingText? i input = some text →
        Edit.literal.apply input b j = .ok (b.setLabel j text) j) ∧
      (a.underlyingText? i input = none →
        ∃ error, (x.apply input a i).result = .error error ∧ (x.apply input a i).arena = b) := by
  rw [apply_eq_applyEdits]
  refine ⟨fun b j hrun => ?_,
    fun done rest b j hsplit hdone => ⟨fun text htext => ?_, fun hno => ?_⟩⟩
  · have hleads : Edit.Leads input x.edits a i b j := Edit.applyAll_ok_iff.mp hrun
    obtain ⟨hj, hlt, hfooting⟩ :
        (j = i ∨ a.size ≤ j) ∧ j < b.size ∧ (b.node j).footing = (a.node i).footing :=
      hleads.field_focus h hi (fun _ _ => rfl) fun _ _ _ => rfl
    simp only [Node.footing, Prod.mk.injEq] at hfooting
    obtain ⟨hkind, hleft, hright, hstore⟩ := hfooting
    exact ⟨hj.imp_right fun hle => ⟨hle, hlt⟩, hkind, hleft, hright, hstore,
      hleads.label_focus h hi⟩
  · rw [← hdone.underlyingText?_focus h hi] at htext
    simp only [Edit.apply, htext]
  · rw [← hdone.underlyingText?_focus h hi] at hno
    have hfail : ∃ error, (Edit.literal.apply input b j).result = .error error := by
      unfold Edit.apply
      dsimp only
      rw [hno]
      exact ⟨_, rfl⟩
    obtain ⟨error, herror⟩ := hfail
    exact ⟨error, Edit.applyAll_error_iff.mpr ⟨done, .literal, rest, j, hsplit, hdone, herror⟩⟩

namespace RuleTable

/-- Gathering, relabelling by the input and tearing, in nested sequences. -/
def relabelGathered : Action :=
  .sequence [.edit (.gatherWithNext "g" 1), .sequence [.edit .literal, .edit .tear]]

/-- The tree in which the middle node is gathered with the leaf behind it. -/
def gatheredPair : Arena :=
  ((Edit.gatherWithNext "g" 1).apply "abcd" bushy 2).arena

/-- The copy is torn off the new level again. Its label is the text below the node that was matched,
although the new level, which has that node's slot, reaches further by now. -/
theorem focus_keeps_content_bushy :
    bushy.Linked ∧ 2 < bushy.size ∧ bushy.underlyingText? 2 "abcd" = some "bc" ∧
      ∃ b, (relabelGathered.apply "abcd" bushy 2).result = .ok 6 ∧
        (relabelGathered.apply "abcd" bushy 2).arena = b ∧ (b.node 6).label = "bc" ∧
        (b.node 6).right = 3 ∧ (b.node 2).right = 4 := by
  have hlt : 2 < bushy.size := by decide
  have htext : bushy.underlyingText? 2 "abcd" = some "bc" := by
    have hslice : Text.sliceBytes 1 3 "abcd" = some "bc" := by
      rw [Text.sliceBytes_eq_sliceChars (by decide)]
      decide
    have htrim : Text.trim "bc" = "bc" := by
      rw [Text.trim_eq_trimChars]
      decide
    show (Text.sliceBytes 1 3 "abcd").map Text.trim = some "bc"
    rw [hslice, Option.map_some, htrim]
  obtain ⟨hfocus, hrelabel⟩ := relabelGathered.focus_keeps_content "abcd" linked_bushy hlt
  -- the new level is made, then the copy is relabelled, then it is torn off
  have hgather : ((Edit.gatherWithNext "g" 1).apply "abcd" bushy 2).result = .ok 6 := by decide
  have hliteral : Edit.literal.apply "abcd" gatheredPair 6 = .ok (gatheredPair.setLabel 6 "bc") 6 :=
    (hrelabel [.gatherWithNext "g" 1] [.tear] gatheredPair 6 rfl (.cons hgather (.nil ..))).1
      "bc" htext
  have hleads : Edit.Leads "abcd" relabelGathered.edits bushy 2
      (Edit.tear.apply "abcd" (gatheredPair.setLabel 6 "bc") 6).arena 6 := by
    refine .cons hgather ?_
    show Edit.Leads "abcd" _ gatheredPair 6 _ 6
    refine .cons (congrArg Outcome.result hliteral) ?_
    rw [hliteral]
    exact .cons (by decide) (.nil ..)
  rw [← Edit.applyAll_ok_iff, ← Action.apply_eq_applyEdits] at hleads
  obtain ⟨-, -, -, hright, -, hlabel⟩ := hfocus _ 6 hleads
  rw [if_pos (by decide), htext] at hlabel
  exact ⟨linked_bushy, hlt, htext, _, hleads.1, hleads.2, Option.some.inj hlabel,
    hright.trans (by decide), by decide⟩

end RuleTable

end ParseTree
