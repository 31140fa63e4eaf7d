import ParseTree.Proofs.EditCommands

/-!
# Tokens survive restructuring

The tokens of a tree are what its childless nodes show, from left to right. Gathering puts levels
into a tree and folding takes them out, and neither should lose a token, double it or move it. Where
this could go wrong is at the leaves. A leaf that is gathered becomes an inner node, with another
label, and its copy is the token from now on. Siblings are cut out of one list and strung onto
another. A node that is folded must have a child, or else it is a token that gets lost.

The *frontier* of a node lists the tokens of its subtree. Gathering with siblings changes the
frontier of one node that was there before, which is the node that gets the siblings; it changes
none that this node is below, since what moves stays next to it. So the statement that goes through
by induction speaks about the frontiers of all nodes.

## Main results

* `Linked.frontier_gather`: a new level changes no frontier.
* `Linked.frontier_gatherRest`: siblings that move change the frontier of the node they move to.
* `Linked.frontier_promote`: deleting an inner node changes no other frontier.
* `Command.tokens_runAll`: every run of such operators, walks among them, keeps the tokens of every
  tree.
-/

namespace ParseTree

namespace Arena

variable {a b d : Arena} {i p c r x : NodeId} {before after siblings : List NodeId}

/-! ## Frontiers -/

/-- Whether a node has no child. -/
def isLeaf (a : Arena) (i : NodeId) : Bool :=
  (a.node i).firstChild.isNone

/-- **The tokens** of the tree at `r`: what its childless nodes show, in pre-order. -/
def tokens (a : Arena) (r : NodeId) : List Face :=
  ((a.descendants r a.size).filter a.isLeaf).map fun i => (a.node i).face

/-- The tokens of the subtree at `i`, by its pre-order list. -/
def frontier (a : Arena) (i : NodeId) : List Face :=
  ((a.subtree i).filter a.isLeaf).map fun i => (a.node i).face

theorem Linked.tokens_eq_frontier (ha : a.Linked) (hr : r < a.size) :
    a.tokens r = a.frontier r := by
  rw [tokens, frontier, ha.descendants_eq_subtree hr (Nat.le_refl _)]

theorem Linked.isLeaf_iff (ha : a.Linked) : a.isLeaf i = true ↔ a.children i = [] := by
  rw [isLeaf, (ha.childList i).firstChild]
  simp

theorem Linked.frontier_leaf (ha : a.Linked) (hi : a.children i = []) :
    a.frontier i = [(a.node i).face] := by
  rw [frontier, ha.subtree_eq, hi, List.flatMap_nil, List.filter_cons_of_pos (ha.isLeaf_iff.mpr hi)]
  rfl

/-- **The frontier of an inner node** is made up of those of its children. -/
theorem Linked.frontier_inner (ha : a.Linked) (hi : a.children i ≠ []) :
    a.frontier i = (a.children i).flatMap a.frontier := by
  rw [frontier, ha.subtree_eq, List.filter_cons_of_neg (mt ha.isLeaf_iff.mp hi),
    List.filter_flatMap, List.map_flatMap]
  rfl

/-- The frontier of a node that has kept its children, if those have kept theirs. -/
theorem Linked.frontier_congr (ha : a.Linked) (hb : b.Linked)
    (hkids : b.children x = a.children x)
    (hface : a.children x = [] → (b.node x).face = (a.node x).face)
    (ih : ∀ c ∈ a.children x, b.frontier c = a.frontier c) : b.frontier x = a.frontier x := by
  by_cases hx : a.children x = []
  · rw [ha.frontier_leaf hx, hb.frontier_leaf (hkids.trans hx), hface hx]
  · rw [ha.frontier_inner hx, hb.frontier_inner (hkids ▸ hx), hkids]
    exact List.flatMap_congr ih

/-! ## Gathering -/

/-- The new level shows the label, and the copy what the node showed before. -/
theorem face_gather (a : Arena) (i : NodeId) (label : String) :
    (∀ x < a.size, x ≠ i → ((a.gather i label).2.node x).face = (a.node x).face) ∧
      (i < a.size → ((a.gather i label).2.node a.size).face = (a.node i).face) := by
  have hwrite : i ∉ {x | x ≠ i} ∨ ∀ (n : Node) label kind,
      Node.face { n with label, kind } = Node.face n := .inl fun hi => absurd rfl hi
  exact ⟨fun x hx hxi => (Node.linkFree_face.keeps_gather hwrite label).eq x hxi hx,
    fun hi => Node.linkFree_face.field_gather_copy hwrite (fun _ _ => rfl) (Nat.ne_of_gt hi) label⟩

/-- **A new level changes no frontier.** The frontier of the node is that of the copy below it. -/
theorem Linked.frontier_gather (ha : a.Linked) (hi : i < a.size) (label : String)
    (hx : x < a.size) : (a.gather i label).2.frontier x = a.frontier x := by
  obtain ⟨hb, hkids⟩ := ha.gather hi label
  obtain ⟨hold, hnew⟩ := face_gather a i label
  generalize (a.gather i label).2 = b at hb hkids hold hnew
  induction x using ha.induction_down with
  | _ x ih =>
    have hbelow : ∀ c ∈ a.children x, b.frontier c = a.frontier c := fun c hc =>
      ih c hc (ha.lt_size_of_mem hc)
    have hcopy : b.children a.size = a.children i := by rw [hkids, Function.update_self]
    by_cases hxi : x = i
    · subst hxi
      have hkid : b.children x = [a.size] := by
        rw [hkids, Function.update_of_ne (Nat.ne_of_lt hx), Function.update_self]
      rw [hb.frontier_inner (by simp [hkid]), hkid, List.flatMap_singleton]
      by_cases hleaf : a.children x = []
      · rw [hb.frontier_leaf (hcopy.trans hleaf), ha.frontier_leaf hleaf, hnew hi]
      · rw [hb.frontier_inner (hcopy ▸ hleaf), ha.frontier_inner hleaf, hcopy]
        exact List.flatMap_congr hbelow
    · refine ha.frontier_congr hb ?_ (fun _ => hold x hx hxi) hbelow
      rw [hkids, Function.update_of_ne (Nat.ne_of_lt hx), Function.update_of_ne hxi]

theorem Keeps.eq_of_size_eq {β : Type} {field : Node → β} {K : Set NodeId}
    (h : Keeps field K a b) (hsize : b.size = a.size) (hx : x ∈ K) :
    field (b.node x) = field (a.node x) := by
  by_cases hlt : x < a.size
  · exact h.eq x hx hlt
  · rw [node_of_size_le (Nat.not_lt.mp hlt), node_of_size_le (hsize ▸ Nat.not_lt.mp hlt)]

/-- **Siblings that move below `i`** change the frontier of `i`, and no other. -/
theorem Linked.frontier_gatherRest (ha : a.Linked) (hi : a.children i = [c])
    (hp : a.children p = before ++ i :: (siblings ++ after)) (hs : siblings ≠ []) (x : NodeId) :
    (a.gatherRest i c siblings after.head?).frontier x =
      if x = i then a.frontier i ++ siblings.flatMap a.frontier else a.frontier x := by
  obtain ⟨hb, hkids⟩ := ha.gatherRest hi hp hs
  obtain ⟨hip, hci, -⟩ := ha.not_mem_of_children_eq hi hp
  have hpi : (a.node i).parent = some p := ha.parent_eq hp
  have hnd := ha.nodup_children p
  rw [hp] at hnd
  have hface {y : NodeId} (hy : y ≠ i) :
      ((a.gatherRest i c siblings after.head?).node y).face = (a.node y).face :=
    Keeps.eq_of_size_eq (K := {y | y ≠ i})
      (Node.linkFree_face.keeps_gatherRest (.inl fun hi => absurd rfl hi)) size_gatherRest hy
  generalize a.gatherRest i c siblings after.head? = b at hb hkids hface
  induction x using hb.induction_down with
  | _ x ih =>
    have hlist {l : List NodeId} (hl : l ⊆ b.children x) (hil : i ∉ l) :
        l.flatMap b.frontier = l.flatMap a.frontier :=
      List.flatMap_congr fun y hy => by
        rw [ih y (hl hy), if_neg (ne_of_mem_of_not_mem hy hil)]
    by_cases hxi : x = i
    · subst hxi
      have hkid : b.children x = c :: siblings := by rw [hkids, Function.update_self]
      have hmem : x ∉ c :: siblings := by grind
      have hcopy : a.frontier x = a.frontier c := by
        rw [ha.frontier_inner (by simp [hi]), hi, List.flatMap_singleton]
      rw [if_pos rfl, hb.frontier_inner (by simp [hkid]), hlist (List.Subset.refl _) (hkid ▸ hmem),
        hkid, List.flatMap_cons, hcopy]
    rw [if_neg hxi]
    by_cases hxp : x = p
    · subst hxp
      have hkid : b.children x = before ++ i :: after := by
        rw [hkids, Function.update_of_ne hxi, Function.update_self]
      have hself : b.frontier i = a.frontier i ++ siblings.flatMap a.frontier := by
        rw [ih i (by simp [hkid]), if_pos rfl]
      rw [hb.frontier_inner (by simp [hkid]), ha.frontier_inner (by simp [hp]), hkid, hp]
      simp only [List.flatMap_append, List.flatMap_cons, hself, List.append_assoc]
      rw [hlist (l := before) (by simp [hkid]) (by grind),
        hlist (l := after) (fun y hy => by simp [hkid, hy]) (by grind)]
    · have hkid : b.children x = a.children x := by
        rw [hkids, Function.update_of_ne hxi, Function.update_of_ne hxp]
      have hmem : i ∉ a.children x := fun hmem =>
        hxp (Option.some.inj ((ha.mem_children.mp hmem).symm.trans hpi))
      refine ha.frontier_congr hb hkid (fun _ => hface hxi) fun y hy => ?_
      rw [ih y (hkid ▸ hy), if_neg (ne_of_mem_of_not_mem hy hmem)]

/-! ## Folding -/

/-- **Deleting an inner node changes no other frontier.** -/
theorem Linked.frontier_promote (ha : a.Linked) (hp : a.children p = before ++ i :: after)
    (hi : a.children i ≠ []) (hx : x ≠ i) :
    (a.promote p before.getLast? i).frontier x = a.frontier x := by
  obtain ⟨hb, hkids⟩ := ha.promote hp
  have hface (y : NodeId) : ((a.promote p before.getLast? i).node y).face = (a.node y).face :=
    Node.linkFree_face.eq_of_content content_promote
  have hleaf (y : NodeId) :
      ((a.promote p before.getLast? i).isLeaf y && decide (y ≠ i)) = a.isLeaf y := by
    rw [Bool.eq_iff_iff, Bool.and_eq_true, decide_eq_true_iff, hb.isLeaf_iff, ha.isLeaf_iff, hkids]
    by_cases hyi : y = i
    · simp [hyi, hi]
    by_cases hyp : y = p
    · simp [hyp, hp, hi, hyp ▸ hyi]
    · simp [hyi, hyp]
  rw [frontier, ha.subtree_promote hp hx, List.filter_filter, frontier]
  simp only [hleaf, hface]

/-- Labels of inner nodes do not show in frontiers. -/
theorem Linked.frontier_of_sameLinks (ha : a.Linked) (hab : a.SameLinks b)
    (hface : ∀ x, a.children x = [] → (b.node x).face = (a.node x).face) (x : NodeId) :
    b.frontier x = a.frontier x := by
  obtain ⟨hb, hkids⟩ := ha.of_sameLinks hab
  induction x using ha.induction_down with
  | _ x ih => exact ha.frontier_congr hb (congrFun hkids x) (hface x) ih

/-! ## Trees that keep their tokens -/

/-- **The trees of `a` have kept their tokens** on the way to `b`, and their roots are still
roots. -/
structure KeepsTokens (a b : Arena) : Prop where
  size_le : a.size ≤ b.size
  root : ∀ r < a.size, (a.node r).parent = none → (b.node r).parent = none
  frontier_eq : ∀ r < a.size, (a.node r).parent = none → b.frontier r = a.frontier r

namespace KeepsTokens

theorem refl (a : Arena) : a.KeepsTokens a :=
  ⟨Nat.le_refl _, fun _ _ h => h, fun _ _ _ => rfl⟩

theorem trans (h : a.KeepsTokens b) (h' : b.KeepsTokens d) : a.KeepsTokens d where
  size_le := Nat.le_trans h.size_le h'.size_le
  root r hr hroot := h'.root r (Nat.lt_of_lt_of_le hr h.size_le) (h.root r hr hroot)
  frontier_eq r hr hroot :=
    (h'.frontier_eq r (Nat.lt_of_lt_of_le hr h.size_le) (h.root r hr hroot)).trans
      (h.frontier_eq r hr hroot)

theorem of_refused {α : Type} {o : Outcome α} (h : a.Refused o) : a.KeepsTokens o.arena :=
  h.arena_eq ▸ .refl a

/-- A rearrangement that lists no root has the roots that there were. -/
theorem of_relinked {kids : NodeId → List NodeId} (ha : a.Linked) (hb : a.Relinked b kids)
    (hkids : a.ListsNoRoot kids)
    (hfrontier : ∀ r < a.size, (a.node r).parent = none → b.frontier r = a.frontier r) :
    a.KeepsTokens b where
  size_le := hb.size_le
  root _ hr hroot := hb.root_of_root ha hr hroot fun _ hp => hkids hp hr
  frontier_eq := hfrontier

end KeepsTokens

namespace Linked

/-- A root is no child. -/
theorem ne_of_root (ha : a.Linked) (hp : a.children p = before ++ i :: after)
    (hroot : (a.node r).parent = none) : r ≠ i := by
  rintro rfl
  cases hroot.symm.trans (ha.parent_eq hp)

theorem keepsTokens_deleteChild (ha : a.Linked) (hc : a.children c ≠ []) (p : NodeId) :
    a.KeepsTokens (a.deleteChild p c).arena := by
  rcases ha.deleteChild_cases p c with ⟨-, hno⟩ | ⟨before, after, b, hp, hok, hb, -⟩
  · exact .of_refused hno
  · obtain rfl : a.promote p before.getLast? c = b :=
      congrArg Outcome.arena ((ha.deleteChild_eq hp).symm.trans hok)
    rw [hok]
    exact .of_relinked ha hb (listsNoRoot_promoted hp) fun r _ hroot =>
      ha.frontier_promote hp hc (ha.ne_of_root hp hroot)

theorem keepsTokens_foldUnder (ha : a.Linked) (hi : a.children i ≠ []) :
    a.KeepsTokens (a.foldUnder i).arena := by
  rcases ha.foldUnder_cases i with ⟨-, hno⟩ | ⟨p, before, after, b, hp, -⟩
  · exact .of_refused hno
  · rw [ha.foldUnder_eq hp, ← ha.deleteChild_eq hp]
    exact ha.keepsTokens_deleteChild hi p

/-- A fold over labels the parent, which has children before and after. -/
theorem keepsTokens_foldOver (ha : a.Linked) (hi : a.children i ≠ []) :
    a.KeepsTokens (a.foldOver i).arena := by
  rcases ha.foldOver_cases i with ⟨-, hno⟩ | ⟨p, before, after, b, hp, -⟩
  · exact .of_refused hno
  · have hdelete := ha.keepsTokens_deleteChild hi p
    rw [ha.deleteChild_eq hp] at hdelete
    rw [ha.foldOver_eq hp]
    obtain ⟨hlinked, hkids⟩ := ha.promote hp
    have hinner : (a.promote p before.getLast? i).children p ≠ [] := by
      rw [hkids, Function.update_of_ne (ha.ne_of_parent (ha.parent_eq hp)).symm,
        Function.update_self]
      simp [hi]
    refine hdelete.trans ⟨Nat.le_of_eq (size_update ..).symm, fun r _ hroot => ?_, fun r _ _ => ?_⟩
    · exact ((sameLinks_setLabel ..).parent r).trans hroot
    · refine hlinked.frontier_of_sameLinks (sameLinks_setLabel ..) (fun x hx => ?_) r
      refine congrArg Node.face (node_update_of_ne _ ?_)
      rintro rfl
      exact hinner hx

theorem keepsTokens_gather (ha : a.Linked) (hi : i < a.size) (label : String) :
    a.KeepsTokens (a.gather i label).2 :=
  .of_relinked ha (ha.gather_relinked hi label) (listsNoRoot_deepened a i) fun _ hr _ =>
    ha.frontier_gather hi label hr

theorem keepsTokens_gatherWithSiblings (ha : a.Linked) (hi : i < a.size) (label : String)
    (siblings : List NodeId) :
    a.KeepsTokens (a.gatherWithSiblings i label siblings).arena := by
  by_cases hs : siblings = []
  · rw [hs, gatherWithSiblings_nil]
    exact ha.keepsTokens_gather hi label
  rcases ha.gatherWithSiblings_cases hi label siblings with
    hno | ⟨hnil, -⟩ | ⟨p, before, after, b, hp, hok, hb, -⟩
  · exact .of_refused hno
  · exact absurd hnil hs
  · have hpi : (a.node i).parent = some p := ha.parent_eq hp
    have hp' := (ha.children_gather_of_ne hi label (ha.parent_lt_size hpi)
      (ha.ne_of_parent hpi).symm).trans hp
    obtain rfl : (a.gather i label).2.gatherRest i a.size siblings after.head? = b :=
      congrArg Outcome.arena ((ha.gatherWithSiblings_eq label hp).symm.trans hok)
    rw [hok]
    refine .of_relinked ha hb (listsNoRoot_gathered hp) fun r hr hroot => ?_
    show ((a.gather i label).2.gatherRest i a.size siblings after.head?).frontier r = _
    rw [(ha.gather hi label).1.frontier_gatherRest (ha.children_gather_self hi label) hp' hs,
      if_neg (ha.ne_of_root hp hroot), ha.frontier_gather hi label hr]

end Linked

end Arena

/-! ## Runs -/

/-- Whether an edit gathers. -/
def Edit.gathers : Edit → Bool
  | .gather _ | .gatherWithSiblings _ | .gatherWithNext .. | .gatherChildren _
  | .gatherFirstChild _ => true
  | _ => false

namespace Command

open Arena

variable {a : Arena} {c : Command} {cs : List Command} {r : NodeId}

/-- **Commands that keep tokens**: gatherings, folds and deletions of nodes that have a child, and
walks with tables that gather. -/
def SparesTokens (a : Arena) : Command → Prop
  | .gather .. | .gatherWithSiblings .. => True
  | .foldOver i | .foldUnder i | .deleteChild _ i => a.children i ≠ []
  | .toAst rules .. => rules.edits.all Edit.gathers = true
  | _ => False

instance decidableSparesTokens (a : Arena) : (c : Command) → Decidable (c.SparesTokens a)
  | .gather .. | .gatherWithSiblings .. => .isTrue trivial
  | .foldOver i | .foldUnder i | .deleteChild _ i => inferInstanceAs (Decidable (a.children i ≠ []))
  | .toAst rules .. => inferInstanceAs (Decidable (rules.edits.all Edit.gathers = true))
  | .make .. | .makeSymbol .. | .push .. | .addChild .. | .setChild .. | .setSibling ..
  | .setParent .. | .setLabel .. | .setKind .. | .setLeft .. | .setRight .. | .tear _
  | .tearInto .. | .insert .. | .clone _ | .apply .. | .transform .. => .isFalse id

/-- **One operator.** -/
theorem keepsTokens_edit (hc : c.SparesTokens a) (hedit : c.isEdit = true) (hrange : c.InRange a)
    (ha : a.Linked) : a.KeepsTokens (c.run a).arena := by
  cases c with
  | deleteChild p child =>
    rw [run, Outcome.arena_map]
    exact ha.keepsTokens_deleteChild hc p
  | foldOver i =>
    rw [run, Outcome.arena_map]
    exact ha.keepsTokens_foldOver hc
  | foldUnder i =>
    rw [run, Outcome.arena_map]
    exact ha.keepsTokens_foldUnder hc
  | gather i label => exact ha.keepsTokens_gather (hrange i List.mem_cons_self) label
  | gatherWithSiblings i label siblings =>
    rw [run, Outcome.arena_map]
    exact ha.keepsTokens_gatherWithSiblings (hrange i List.mem_cons_self) label siblings
  | toAst => cases hedit
  | _ => exact hc.elim

theorem rearranges_of_sparesTokens (hc : c.SparesTokens a) (hedit : c.isEdit = true) :
    c.Rearranges := by
  cases c <;> first | exact ⟨rfl, rfl⟩ | exact hc.elim | cases hedit

/-- The command of an edit that gathers is a gathering. -/
theorem sparesTokens_of_command? {e : Edit} {input : String} {i : NodeId} (he : e.gathers = true)
    (hc : e.command? input a i = some c) : c.SparesTokens a := by
  cases e <;> simp only [Edit.command?, Option.map_eq_some_iff, Option.some.injEq] at hc <;>
    grind [Edit.gathers, SparesTokens]

/-- **One command**, an operator or a walk. -/
theorem keepsTokens_run (hc : c.SparesTokens a) (hrange : c.InRange a) (ha : a.Linked) :
    (c.run a).arena.Linked ∧ a.KeepsTokens (c.run a).arena := by
  cases hedit : c.isEdit with
  | true =>
    exact ⟨linked_run ha (rearranges_of_sparesTokens hc hedit) hrange,
      keepsTokens_edit hc hedit hrange ha⟩
  | false =>
    cases c with
    | toAst rules root input =>
      have hkeep : rules.EditsKeep input fun b => a.KeepsTokens b := by
        intro e he b j hb hkept _ d hd hrange
        have hgathers : e.gathers = true := List.all_eq_true.mp hc e he
        exact hkept.trans (keepsTokens_edit (sparesTokens_of_command? hgathers hd)
          (Edit.isEdit_of_command? hd) hrange hb)
      rw [arena_run_toAst]
      exact RuleTable.walk_keeps hkeep ha (.refl a) root
    | apply | transform => exact hc.elim
    | _ => cases hedit

/-- **Every run keeps the tokens of every tree.** It may gather nodes, with siblings or without,
fold or delete nodes that have a child, and walk with tables that gather. Its calls may fail. The
root of a tree is still a root then, and below it the childless nodes show what they showed before,
in the order from before. -/
theorem tokens_runAll (ha : a.Linked)
    (hcs : InTurn (fun b c => c.SparesTokens b ∧ c.InRange b) a cs) (hr : r < a.size)
    (hroot : (a.node r).parent = none) :
    ((runAll cs a).node r).parent = none ∧ (runAll cs a).tokens r = a.tokens r := by
  have hrun : (runAll cs a).Linked ∧ a.KeepsTokens (runAll cs a) := by
    refine InTurn.runAll (I := fun b => b.Linked ∧ a.KeepsTokens b) ?_ ⟨ha, .refl a⟩ hcs
    intro b c ⟨hb, hkept⟩ ⟨hc, hrange⟩
    obtain ⟨hlinked, hstep⟩ := keepsTokens_run hc hrange hb
    exact ⟨hlinked, hkept.trans hstep⟩
  obtain ⟨hlinked, hkept⟩ := hrun
  refine ⟨hkept.root r hr hroot, ?_⟩
  rw [hlinked.tokens_eq_frontier (Nat.lt_of_lt_of_le hr hkept.size_le), ha.tokens_eq_frontier hr,
    hkept.frontier_eq r hr hroot]

/-- A leaf is gathered, then a leaf in front with the node that the first one is below; the new
inner node is folded, the root cannot be, and a walk gathers what is left. -/
theorem tokens_bushy :
    (runAll [.gather 3 "g", .gatherWithSiblings 1 "list" [2], .foldUnder 3, .foldOver 0,
      .toAst RuleTable.gatherTable 0 "abcd"] RuleTable.bushy).tokens 0 =
        [⟨"x", .terminal, 0, 1⟩, ⟨"y", .terminal, 1, 2⟩, ⟨"y", .terminal, 2, 3⟩,
          ⟨"x", .terminal, 3, 4⟩] :=
  (tokens_runAll RuleTable.linked_bushy (by decide) (by decide) (by decide)).2.trans (by decide)

end Command

end ParseTree
