import ParseTree.Proofs.Surroundings
import ParseTree.Proofs.WalkOrder

/-!
# What a rule sees

The conditions of rules look upwards, at the labels of parents and grandparents, and sideways. When
a walk comes to a node, rules have been at work in front of the node and below it, and they may have
folded, gathered and torn there whatever they liked. What the node sees above it and behind it is
the tree that the walk began with, all the same. The nodes above it stand where they stood, and the
subtrees behind it have not been touched. Only a label of a node above it may be a new one, and then
a fold over of an earlier node has written it.

This is what the stack of a walk carries along. `Outlook` says it of a node and the owners of the
frames. Going down adds a node that has not been touched. Showing a node changes the list of its
parent, and leaves alone what is not below the parent, so that all other frames stay good.

## Main results

* `Outlook.congr`: edits below a node leave its outlook good.
* `OpenAhead.descend`, `OpenAhead.visit`, `Expects.step`: what each step of a walk keeps.
* `Expects.outlook`: every node is shown with its outlook.
* `RuleTable.showing_sees`: ancestors and right siblings of a node that is shown.
-/

namespace ParseTree

namespace Arena

variable {a b d : Arena} {i p q r x y : NodeId} {l m : List NodeId}

/-! ## The nodes above a node -/

/-- Parent links lead from `i` up to `r` through the nodes of `l`, the last of which is `r`. -/
inductive Lineage (a : Arena) (r : NodeId) : NodeId → List NodeId → Prop
  | root : Lineage a r r []
  | up {i p : NodeId} {l : List NodeId} (hparent : (a.node i).parent = some p)
      (hup : Lineage a r p l) : Lineage a r i (p :: l)

namespace Lineage

theorem within (h : a.Lineage r i l) : a.Within i r := by
  induction h with
  | root => exact .refl a r
  | up hparent _ ih => exact (Within.of_parent hparent).trans ih

theorem below_of_mem (h : a.Lineage r i l) (hx : x ∈ l) : a.Below i x := by
  induction h with
  | root => exact absurd hx List.not_mem_nil
  | up hparent _ ih =>
    rcases List.mem_cons.mp hx with rfl | hx
    · exact .of_parent hparent
    · exact (Below.of_parent hparent).trans (ih hx)

/-- There is one way up, since it does not come back to `r` above `r`. -/
theorem unique (ha : a.Linked) (h : a.Lineage r i l) (h' : a.Lineage r i m) : l = m := by
  induction h generalizing m with
  | root =>
    cases h' with
    | root => rfl
    | up hparent hup => exact absurd (below_iff.mpr ⟨_, hparent, hup.within⟩) (ha.acyclic r)
  | @up i p l hparent hup ih =>
    cases h' with
    | root => exact absurd (below_iff.mpr ⟨p, hparent, hup.within⟩) (ha.acyclic r)
    | up hparent' hup' =>
      obtain rfl := Option.some.inj (hparent.symm.trans hparent')
      rw [ih hup']

end Lineage

/-! ## Subtrees that were left alone -/

/-- The nodes in the subtrees at the nodes of a list are in `b` what they are in `a`. -/
def Untouched (a b : Arena) (l : List NodeId) : Prop :=
  ∀ x ∈ l, ∀ y, a.Within y x → b.node y = a.node y

namespace Untouched

theorem subset (h : a.Untouched b l) (hm : m ⊆ l) : a.Untouched b m :=
  fun x hx => h x (hm hx)

theorem children (ha : a.Linked) (h : a.Untouched b l) (hi : i ∈ l) :
    a.Untouched b (a.children i) :=
  fun _ hc y hy => h i hi y (hy.trans (.of_parent (ha.mem_children.mp hc)))

theorem children_eq (ha : a.Linked) (h : a.Untouched b l) (hx : x ∈ l) (hy : a.Within y x) :
    b.children y = a.children y := by
  have hkid {c : NodeId} (hc : c ∈ a.children y) : b.node c = a.node c :=
    h x hx c ((Within.of_parent (ha.mem_children.mp hc)).trans hy)
  refine ((ha.childList y).congr ?_ ?_ (fun c hc => ?_) fun c hc => ?_).eq_children
  · rw [h x hx y hy]
  · rw [h x hx y hy]
  · rw [hkid hc]
  · rw [hkid hc]

/-- Such a subtree has the nodes that it had. -/
theorem within_iff (ha : a.Linked) (hb : b.Linked) (h : a.Untouched b l) (hx : x ∈ l) :
    b.Within y x ↔ a.Within y x := by
  constructor
  · intro hy
    induction hy using Relation.ReflTransGen.head_induction_on with
    | refl => exact .refl a x
    | @head y z hyz _ ih =>
      have hmem : y ∈ a.children z := by
        rw [← h.children_eq ha hx ih]
        exact hb.mem_children_of_parent hyz
      exact (Within.of_parent (ha.mem_children.mp hmem)).trans ih
  · intro hy
    induction hy using Relation.ReflTransGen.head_induction_on with
    | refl => exact .refl b x
    | @head y z hyz hzx ih =>
      have hparent : (b.node y).parent = some z := by
        rw [h x hx y ((Within.of_parent hyz).trans hzx)]
        exact hyz
      exact (Within.of_parent hparent).trans ih

/-- What is done elsewhere leaves the subtrees alone. -/
theorem congr (ha : a.Linked) (hb : b.Linked) (h : a.Untouched b l)
    (hd : ∀ x ∈ l, ∀ y, b.Within y x → d.node y = b.node y) : a.Untouched d l :=
  fun x hx y hy => (hd x hx y ((h.within_iff ha hb hx).mpr hy)).trans (h x hx y hy)

end Untouched

/-- The right siblings of a node are settled by the list that it is in. -/
theorem Linked.rightSiblings_congr (ha : a.Linked) (hb : b.Linked) (hp : (a.node i).parent = some p)
    (h : b.children p = a.children p) : b.rightSiblings i = a.rightSiblings i := by
  obtain ⟨before, after, hlist⟩ := ha.exists_children_eq hp
  rw [ha.rightSiblings_eq hlist, hb.rightSiblings_eq (h.trans hlist)]

/-- Edits below `i` leave the list alone that `i` is in. -/
theorem Linked.children_congr (ha : a.Linked) (hp : (a.node i).parent = some p)
    (hout : ∀ x < a.size, ¬ a.Within x i → b.node x = a.node x)
    (hrim : (b.node i).rim = (a.node i).rim) : b.children p = a.children p := by
  have hpi : ¬ a.Within p i := fun hpi => ha.acyclic p (hpi.trans_below (.of_parent hp))
  have howner : b.node p = a.node p := hout p (ha.parent_lt_size hp) hpi
  have hkid {c : NodeId} (hc : c ∈ a.children p) : (b.node c).rim = (a.node c).rim := by
    by_cases hci : c = i
    · rw [hci, hrim]
    · have hcp := ha.mem_children.mp hc
      rw [hout c (lt_size_of_parent hcp) fun hin =>
        hci (ha.eq_of_within hcp hp (.refl a c) hin)]
  refine ((ha.childList p).congr ?_ ?_ (fun c hc => ?_) fun c hc => ?_).eq_children
  · rw [howner]
  · rw [howner]
  · exact (Node.fields_of_rim (hkid hc)).2.2.2.2
  · exact (Node.fields_of_rim (hkid hc)).2.2.2.1

end Arena

open Arena

namespace Walk

variable {t : RuleTable} {input : String} {earlier later : List Showing} {a b d : Arena}
  {i p q r : NodeId} {l : List NodeId} {rest stack : List (NodeId × Option NodeId)} {w : Walk Unit}

/-! ## Outlooks -/

/-- The node was shown as a child of `p`, and the rule that it matched folds over. -/
def Showing.FoldsInto (t : RuleTable) (v : Showing) (p : NodeId) : Prop :=
  (v.before.node v.node).parent = some p ∧ t.FoldsOver v.before v.node

/-- A node above those that are being shown stands in `b` where it stood in `a`. Its label is the
one that it had, or the one that folding over an earlier child has left. -/
structure Held (t : RuleTable) (earlier : List Showing) (a b : Arena) (i : NodeId) : Prop where
  rim_eq : (b.node i).rim = (a.node i).rim
  label : (b.node i).label = (a.node i).label ∨
    ∃ u ∈ earlier, u.FoldsInto t i ∧ (b.node i).label = (u.after.node i).label

theorem Held.of_node_eq (h : b.node i = a.node i) : Held t earlier a b i :=
  ⟨by rw [h], .inl (by rw [h])⟩

/-- A label that an earlier showing has left may be kept or be written anew. -/
theorem Held.congr (h : Held t earlier a b i) (hsub : earlier ⊆ later)
    (hrim : (d.node i).rim = (b.node i).rim)
    (hlabel : (d.node i).label = (b.node i).label ∨
      ∃ u ∈ later, u.FoldsInto t i ∧ (d.node i).label = (u.after.node i).label) :
    Held t later a d i := by
  refine ⟨hrim.trans h.rim_eq, ?_⟩
  rcases hlabel with hsame | hnew
  · rw [hsame]
    exact h.label.imp_right fun ⟨u, hu, hfold⟩ => ⟨u, hsub hu, hfold⟩
  · exact .inr hnew

/-- **What node `i` sees** in `b` of the tree at `r` in `a`. The nodes of `l` lead up to `r`. They
have been held, and so have the lists behind them, with all that is below. -/
inductive Outlook (t : RuleTable) (earlier : List Showing) (a b : Arena) (r : NodeId) :
    NodeId → List NodeId → Prop
  | root (hheld : Held t earlier a b r) : Outlook t earlier a b r r []
  | up {i p : NodeId} {l : List NodeId} (hheld : Held t earlier a b i)
      (hparent : (a.node i).parent = some p) (hright : b.rightSiblings i = a.rightSiblings i)
      (hbehind : a.Untouched b (a.rightSiblings i)) (hup : Outlook t earlier a b r p l) :
      Outlook t earlier a b r i (p :: l)

namespace Outlook

theorem held (h : Outlook t earlier a b r i l) : Held t earlier a b i := by
  cases h with
  | root hheld => exact hheld
  | up hheld => exact hheld

theorem held_of_mem (h : Outlook t earlier a b r i l) (hp : p ∈ l) : Held t earlier a b p := by
  induction h with
  | root => exact absurd hp List.not_mem_nil
  | up _ _ _ _ hup ih =>
    rcases List.mem_cons.mp hp with rfl | hp
    · exact hup.held
    · exact ih hp

theorem parent_eq (h : Outlook t earlier a b r i l) : (b.node i).parent = (a.node i).parent :=
  (Node.fields_of_rim h.held.rim_eq).2.2.2.1

/-- The way up is the same. -/
theorem lineage (h : Outlook t earlier a b r i l) : a.Lineage r i l ∧ b.Lineage r i l := by
  induction h with
  | root => exact ⟨.root, .root⟩
  | up hheld hparent hright hbehind hup ih =>
    have hparent' := (Outlook.up hheld hparent hright hbehind hup).parent_eq.trans hparent
    exact ⟨.up hparent ih.1, .up hparent' ih.2⟩

/-- **Edits below a node** leave its outlook good, if they leave alone what is not below it, and
write its label by folding over at most. -/
theorem congr (ha : a.Linked) (hb : b.Linked) (hd : d.Linked) (h : Outlook t earlier a b r i l)
    (hsub : earlier ⊆ later) (hout : ∀ x < b.size, ¬ b.Within x i → d.node x = b.node x)
    (hrim : (d.node i).rim = (b.node i).rim)
    (hlabel : (d.node i).label = (b.node i).label ∨
      ∃ u ∈ later, u.FoldsInto t i ∧ (d.node i).label = (u.after.node i).label) :
    Outlook t later a d r i l := by
  induction h with
  | root hheld => exact .root (hheld.congr hsub hrim hlabel)
  | @up i p l hheld hparent hright hbehind hup ih =>
    have hip : (b.node i).parent = some p :=
      (Outlook.up hheld hparent hright hbehind hup).parent_eq.trans hparent
    have hpi : ¬ b.Within p i := fun hpi => hb.acyclic p (hpi.trans_below (.of_parent hip))
    have howner : d.node p = b.node p := hout p (hb.parent_lt_size hip) hpi
    refine .up (hheld.congr hsub hrim hlabel) hparent ?_ ?_ (ih (fun x hx hxp => ?_) ?_ ?_)
    · rw [hb.rightSiblings_congr hd hip (hb.children_congr hip hout hrim), hright]
    · refine hbehind.congr ha hb fun x hx y hy => ?_
      rw [← hright] at hx
      obtain ⟨before, after, hlist⟩ := hb.exists_children_eq hip
      let site : Site b := ⟨i, p, before, after, hlist⟩
      rw [hb.rightSiblings_eq hlist] at hx
      obtain ⟨⟨hlt, hyi⟩, -⟩ := site.outside_of_within_after hb hx hy
      exact hout y hlt hyi
    · exact hout x hx fun hxi => hxp (hxi.trans (.of_parent hip))
    · rw [howner]
    · exact .inl (by rw [howner])

end Outlook

/-! ## The stack of a walk -/

/-- The lists that are being walked. What is ahead in the innermost one is an end of the list that
there was, and has not been touched. The owners of all of them make up the outlook. -/
def OpenAhead (t : RuleTable) (earlier : List Showing) (a b : Arena) (r : NodeId) :
    List (NodeId × Option NodeId) → Prop
  | [] => True
  | (q, next) :: rest => Outlook t earlier a b r q (rest.map Prod.fst) ∧
      ∃ done ahead, b.children q = done ++ ahead ∧ ahead <:+ a.children q ∧ next = ahead.head? ∧
        a.Untouched b ahead

/-- A walk is about to begin. -/
theorem openAhead_start (ha : a.Linked) (r : NodeId) :
    OpenAhead t [] a a r [(r, (a.node r).firstChild)] :=
  ⟨.root (.of_node_eq rfl), [], a.children r, rfl, List.suffix_refl _, (ha.childList r).firstChild,
    fun _ _ _ _ => rfl⟩

/-- The next node of the innermost list has an outlook. -/
theorem OpenAhead.outlook (ha : a.Linked) (hb : b.Linked)
    (h : OpenAhead t earlier a b r ((q, some i) :: rest)) :
    Outlook t earlier a b r i (q :: rest.map Prod.fst) := by
  obtain ⟨hup, done, ahead, hlist, ⟨front, hsuffix⟩, hnext, huntouched⟩ := h
  obtain ⟨after, rfl⟩ : ∃ after, ahead = i :: after := List.head?_eq_some_iff.mp hnext.symm
  have hi : i ∈ i :: after := List.mem_cons_self
  have hright : a.rightSiblings i = after := ha.rightSiblings_eq hsuffix.symm
  refine .up (.of_node_eq (huntouched i hi i (.refl a i))) (ha.parent_eq hsuffix.symm) ?_ ?_ hup
  · rw [hright, hb.rightSiblings_eq hlist]
  · rw [hright]
    exact huntouched.subset (List.subset_cons_self ..)

/-- **Going down.** -/
theorem OpenAhead.descend (ha : a.Linked) (hb : b.Linked)
    (h : OpenAhead t earlier a b r ((q, some i) :: rest)) :
    OpenAhead t earlier a b r ((i, (b.node i).firstChild) :: (q, some i) :: rest) := by
  refine ⟨h.outlook ha hb, [], a.children i, ?_, List.suffix_refl _, ?_, ?_⟩
  all_goals
    obtain ⟨-, done, ahead, -, -, hnext, huntouched⟩ := h
    have hi : i ∈ ahead := List.mem_of_head? hnext.symm
  · exact huntouched.children_eq ha hi (.refl a i)
  · rw [huntouched i hi i (.refl a i)]
    exact (ha.childList i).firstChild
  · exact huntouched.children ha hi

/-- **Showing a node** that has an outlook. Its parent may be labelled anew then, and what is left
behind the node has not been touched. -/
theorem OpenAhead.visit (ha : a.Linked) (hb : b.Linked)
    (h : Outlook t earlier a b r i (q :: rest.map Prod.fst)) (input : String) (state : Unit)
    (log : Array Event) :
    let w := Walk.visit (Scheme.ofTable t) input i q rest state b log
    w.arena.Linked ∧ OpenAhead t (earlier ++ [⟨i, b, w.arena⟩]) a w.arena r w.stack := by
  have hiq' := h.parent_eq
  cases h with
  | up hheld hparent hright hbehind hup =>
  have hiq : (b.node i).parent = some q := hiq'.trans hparent
  obtain ⟨before, after, hlist⟩ := hb.exists_children_eq hiq
  let site : Site b := ⟨i, q, before, after, hlist⟩
  have hafter : a.rightSiblings i = after := by rw [← hright, hb.rightSiblings_eq hlist]
  rw [hafter] at hbehind
  -- what the table does at the node
  obtain ⟨left, g, hd, hleft, -⟩ := t.transform_confined input hb site
  have hleft' : left <:+ after := hleft
  have hkept := t.keeps_transform input hb site
  have haround := t.around_transform input hb (hb.enclosed (hb.parent_lt_size hiq))
    ⟨lt_size_of_parent hiq, fun hi => hi.2 (.of_parent hiq), hb.ne_of_parent hiq⟩
  have hstack : (Walk.visit (Scheme.ofTable t) input i q rest state b log).stack =
      (q, left.head?) :: rest := by
    rw [← hd.next_eq hb]
    rfl
  obtain ⟨middle, howner, -⟩ := hd.children_owner
  dsimp only
  rw [hstack]
  refine ⟨hd.linked, hup.congr ha hb hd.linked (List.subset_append_left ..)
    (fun x hx hxq => haround.node_eq x ⟨hx, hxq⟩) haround.rim_eq ?_, before ++ middle, left, howner,
    ?_, rfl, ?_⟩
  · by_cases hfolds : t.FoldsOver b i
    · exact .inr ⟨_, List.mem_append_right _ (List.mem_singleton_self _), ⟨hiq, hfolds⟩, rfl⟩
    · have hcontent := hkept.eq q ⟨site.outside_owner hb, fun hyes => absurd hyes hfolds⟩
        (hb.parent_lt_size hiq)
      have hfree : Node.LinkFree Node.label := fun _ => rfl
      exact .inl (hfree.eq_of_content hcontent)
  · -- what is left behind the node is an end of the list that there was
    obtain ⟨front, back, hlist'⟩ := ha.exists_children_eq hparent
    rw [ha.rightSiblings_eq hlist'] at hafter
    rw [hlist', hafter]
    exact hleft'.trans ⟨front ++ [i], by simp⟩
  · refine (hbehind.subset hleft'.subset).congr ha hb fun x hx y hy => ?_
    exact hd.node_eq_of_within hb hleft
      (fun z hz hzq => hkept.eq z ⟨hz, fun _ => hzq⟩ hz.1) hx hy

/-! ## Steps and runs -/

/-- A walk that began at `r` in arena `a` has the lists ahead that it expects. -/
structure Expects (t : RuleTable) (earlier : List Showing) (a : Arena) (r : NodeId)
    (w : Walk Unit) : Prop where
  linked : w.arena.Linked
  openAhead : OpenAhead t earlier a w.arena r w.stack

/-- **One step** of a walk. It shows no node, or a node that has an outlook. -/
theorem Expects.step (ha : a.Linked) (input : String) (h : Expects t earlier a r w) :
    let next := Walk.step (Scheme.ofTable t) input w
    (w.shown? = none ∧ Expects t earlier a r next) ∨
    ∃ i p l, w.shown? = some i ∧ Outlook t earlier a w.arena r i (p :: l) ∧
      Expects t (earlier ++ [⟨i, w.arena, next.arena⟩]) a r next := by
  obtain ⟨stack, state, b, log⟩ := w
  obtain ⟨hb, hahead⟩ := h
  match stack with
  | [] => exact .inl ⟨rfl, hb, trivial⟩
  | (q, some i) :: rest =>
    have hi : Outlook t earlier a b r i (q :: rest.map Prod.fst) := OpenAhead.outlook ha hb hahead
    cases hfirst : (b.node i).firstChild with
    | some first =>
      rw [step_descend _ _ hfirst]
      have hdown := OpenAhead.descend ha hb hahead
      rw [hfirst] at hdown
      exact .inl ⟨by simp [shown?, hfirst], hb, hdown⟩
    | none =>
      rw [step_leaf _ _ hfirst]
      obtain ⟨hlinked, hnext⟩ := OpenAhead.visit ha hb hi input state log
      exact .inr ⟨i, q, _, by simp [shown?, hfirst], hi, hlinked, hnext⟩
  | [(q, none)] => exact .inl ⟨rfl, hb, trivial⟩
  | (i, none) :: (q, next) :: rest =>
    have hi : Outlook t earlier a b r i (q :: rest.map Prod.fst) := hahead.1
    obtain ⟨hlinked, hnext⟩ := OpenAhead.visit ha hb hi input state log
    exact .inr ⟨i, q, _, rfl, hi, hlinked, hnext⟩

/-- **Every node is shown with its outlook**, however many steps a walk takes. -/
theorem Expects.outlook (ha : a.Linked) (input : String) (h : Expects t earlier a r w) (n : Nat)
    {before after : List Showing} {v : Showing}
    (hsplit : showings (Scheme.ofTable t) input n w = before ++ v :: after) :
    v.before.Linked ∧ ∃ p l, Outlook t (earlier ++ before) a v.before r v.node (p :: l) := by
  induction n generalizing w earlier before with
  | zero => simp [showings] at hsplit
  | succ n ih =>
    rcases h.step ha input with ⟨hshown, hnext⟩ | ⟨i, p, l, hshown, hi, hnext⟩
    · rw [showings_of_not_shown hshown] at hsplit
      exact ih hnext hsplit
    · rw [showings_of_shown hshown] at hsplit
      cases before with
      | nil =>
        obtain ⟨rfl, -⟩ := List.cons.inj hsplit
        rw [List.append_nil]
        exact ⟨h.linked, p, l, hi⟩
      | cons u before =>
        obtain ⟨rfl, hrest⟩ := List.cons.inj hsplit
        rw [List.append_cons]
        exact ih hnext hrest

/-- A node is shown in the arena that the showings before it have left. -/
theorem before_of_showings (t : RuleTable) (input : String) (n : Nat) (w : Walk Unit)
    {before after : List Showing} {v : Showing}
    (hsplit : showings (Scheme.ofTable t) input n w = before ++ v :: after) :
    v.before = t.transformAll input (before.map Showing.node) w.arena ∧
      v.after = (t.transform input v.before v.node).1 := by
  induction n generalizing w before with
  | zero => simp [showings] at hsplit
  | succ n ih =>
    cases hshown : w.shown? with
    | none =>
      rw [showings_of_not_shown hshown] at hsplit
      rw [← (step_of_not_shown (Scheme.ofTable t) input hshown).2]
      exact ih _ hsplit
    | some i =>
      have harena := (step_of_shown (Scheme.ofTable t) input hshown).2
      rw [showings_of_shown hshown] at hsplit
      cases before with
      | nil =>
        obtain ⟨rfl, -⟩ := List.cons.inj hsplit
        exact ⟨rfl, harena⟩
      | cons u before =>
        obtain ⟨rfl, hrest⟩ := List.cons.inj hsplit
        have hlater := ih _ hrest
        rw [harena] at hlater
        exact hlater

end Walk

namespace RuleTable

variable {a : Arena} {r : NodeId} {earlier later : List Walk.Showing} {v : Walk.Showing}

/-- **What a rule sees.** A walk comes to a node in the arena that the showings before it have left.
The nodes above the node, up to the root of the walk, are those that were above it when the walk
began. None of them has been shown. They are as they were, but for the links to their children and
for the label, if folding over has written one. The right siblings of the node are those that it had
when the walk began, and nothing has changed in their subtrees. -/
theorem showing_sees (t : RuleTable) (input : String) (ha : a.Linked) (r : NodeId)
    (h : t.showings input a r = earlier ++ v :: later) :
    t.visited input a r =
      earlier.map Walk.Showing.node ++ v.node :: later.map Walk.Showing.node ∧
    v.before = t.transformAll input (earlier.map Walk.Showing.node) a ∧
    v.after = (t.transform input v.before v.node).1 ∧
    (∃ l, (∀ m, a.Lineage r v.node m ↔ m = l) ∧ (∀ m, v.before.Lineage r v.node m ↔ m = l) ∧
      ∀ p ∈ l, p ∉ earlier.map Walk.Showing.node ∧
        (v.before.node p).rim = (a.node p).rim ∧
        ((v.before.node p).label = (a.node p).label ∨ ∃ u ∈ earlier, u.FoldsInto t p ∧
          (v.before.node p).label = (u.after.node p).label)) ∧
    v.before.rightSiblings v.node = a.rightSiblings v.node ∧
    ∀ s ∈ a.rightSiblings v.node, ∀ y, (v.before.Within y s ↔ a.Within y s) ∧
      (a.Within y s → v.before.node y = a.node y) := by
  have hvisited : t.visited input a r =
      earlier.map Walk.Showing.node ++ v.node :: later.map Walk.Showing.node := by
    rw [visited_eq, h, List.map_append, List.map_cons]
  have hstart : Walk.Expects t [] a r (Walk.start a r ()) := ⟨ha, Walk.openAhead_start ha r⟩
  obtain ⟨hb, p, l, hsees⟩ := hstart.outlook ha input (Walk.bound a) h
  obtain ⟨hbefore, hafter⟩ := Walk.before_of_showings t input (Walk.bound a) _ h
  rw [List.nil_append] at hsees
  obtain ⟨hlineage, hlineage'⟩ := hsees.lineage
  -- a node is not shown before what is below it
  have hnot {x : NodeId} (hx : x ∈ p :: l) : x ∉ earlier.map Walk.Showing.node := by
    intro hshown
    obtain ⟨hsub, -⟩ := t.showings_spec input ha r
    have hpair := (ha.pairwise_postorderBelow r).sublist hsub
    rw [hvisited] at hpair
    obtain ⟨-, -, hcross⟩ := List.pairwise_append.mp hpair
    exact (hcross x hshown v.node List.mem_cons_self).2 (hlineage.below_of_mem hx)
  refine ⟨hvisited, hbefore, hafter, ⟨p :: l, fun m => ⟨fun hm => hm.unique ha hlineage, ?_⟩,
    fun m => ⟨fun hm => hm.unique hb hlineage', ?_⟩, fun x hx => ⟨hnot hx, ?_⟩⟩, ?_⟩
  · rintro rfl
    exact hlineage
  · rintro rfl
    exact hlineage'
  · have hheld := hsees.held_of_mem hx
    exact ⟨hheld.rim_eq, hheld.label⟩
  · cases hsees with
    | up _ _ hright hbehind _ =>
    exact ⟨hright, fun s hs y => ⟨hbehind.within_iff ha hb hs, hbehind s hs y⟩⟩

/-- When the second leaf of the middle node is shown, the first one has handed its label on. -/
theorem showing_sees_bushy :
    bushy.Linked ∧ ∃ earlier v later,
      foldOverTable.showings "abcd" bushy 0 = earlier ++ v :: later ∧
      earlier.map Walk.Showing.node = [1, 3] ∧ v.node = 4 ∧ v.before.Lineage 0 4 [2, 0] ∧
      (bushy.node 2).label = "m" ∧ (v.before.node 2).label = "y" := by
  have hvisited : foldOverTable.visited "abcd" bushy 0 = [1, 3] ++ 4 :: [2, 5] :=
    (foldOverTable.visited_eq_postorderBelow (by decide) "abcd" linked_bushy 0).trans (by decide)
  rw [visited_eq] at hvisited
  obtain ⟨earlier, rest, hsplit, hearlier, hrest⟩ := List.map_eq_append_iff.mp hvisited
  obtain ⟨v, later, rfl, hv, -⟩ := List.map_eq_cons_iff.mp hrest
  obtain ⟨-, hbefore, -, ⟨l, hl, hl', -⟩, -⟩ :=
    foldOverTable.showing_sees "abcd" linked_bushy 0 hsplit
  rw [hearlier] at hbefore
  rw [hv] at hl hl'
  have hlineage : bushy.Lineage 0 4 [2, 0] :=
    .up (by decide) (.up (by decide) .root)
  refine ⟨linked_bushy, earlier, v, later, hsplit, hearlier, hv, (hl' _).mpr ((hl _).mp hlineage),
    by decide, ?_⟩
  rw [hbefore]
  decide

end RuleTable

end ParseTree
