import Mathlib.Algebra.Order.BigOperators.Group.List
import Mathlib.Algebra.Order.Group.Nat
import ParseTree.Arena.Rendering
import ParseTree.Proofs.Roses
import ParseTree.Proofs.Runs

/-!
# What a tree string is

`Renders` says what is to be drawn for a node at a level, in three rules and without a bound on the
depth: a node without children is its label; a single child that is shown stays on the line; and
otherwise every child that is shown gets a line of its own, one level further in. What is below an
epsilon node is not mentioned by any rule, but an epsilon child decides between the second rule and
the third.

A drawing is made in rounds, from a stack. What is drawn for the node on top is the text of the
rules after the beginning of its line, wherever and at whatever level it is, and when it has been
drawn the stack is what it was below the node: this is `Draws`, and it goes up from the children to
the node, since a round puts the children that are shown on top of the closing parenthesis. The
level grows on a line that goes on, too, so that it can not be read off the text.

## Main results

* `Renders.unique`: the rules allow one text at most.
* `exists_iterate_drawRound`: nodes on top of the stack are drawn one after the other.
* `Linked.exists_renders`: the rules allow the text that is drawn.
* `Linked.treeString_eq`: the tree string of a subtree shows of its rose.
* `Linked.treeString_renders`: tree strings.
-/

namespace ParseTree

/-- The blanks in front of a line. -/
def indent (depth : Nat) : String :=
  String.join (List.replicate depth "  ")

theorem indent_succ (depth : Nat) : indent (depth + 1) = indent depth ++ "  " := by
  rw [indent, indent, List.replicate_succ', String.join_append]
  rfl

theorem pushn_blank (out : String) (depth : Nat) :
    out.pushn ' ' (2 * depth) = out ++ indent depth := by
  induction depth with
  | zero => simp [indent, String.pushn, Nat.repeat]
  | succ depth ih =>
    rw [String.pushn_eq_repeat_push] at ih ⊢
    rw [Nat.mul_succ, Nat.repeat, Nat.repeat, ih, indent_succ, String.push_eq_append,
      String.push_eq_append, String.append_assoc, String.append_assoc]
    rfl

/-- The beginning of a line, if there is one. -/
def lineStart (depth : Nat) (ownLine : Bool) : String :=
  if ownLine then "\n" ++ indent depth else ""

theorem startAt_eq (out : String) (depth : Nat) (ownLine : Bool) :
    startAt out depth ownLine = out ++ lineStart depth ownLine := by
  cases ownLine with
  | true =>
    rw [startAt, lineStart, if_pos rfl, if_pos rfl, newLine, pushn_blank, String.push_eq_append,
      String.append_assoc]
    rfl
  | false => exact String.append_empty.symm

namespace Arena

variable {a b : Arena} {i j : NodeId} {depth n : Nat} {s t : String}

/-- **The rules for what is drawn** for a node at a level. -/
inductive Renders (a : Arena) : NodeId → Nat → String → Prop
  | childless {i : NodeId} {depth : Nat} (hkids : a.children i = []) :
    Renders a i depth (a.node i).drawnLabel
  | inline {i c : NodeId} {depth : Nat} {s : String} (hkids : a.children i = [c])
    (hshown : a.isShown c) (hs : Renders a c (depth + 1) s) :
    Renders a i depth ((a.node i).drawnLabel ++ "(" ++ s ++ ")")
  | spread {i : NodeId} {depth : Nat} {part : NodeId → String} (hkids : a.children i ≠ [])
    (hsingle : ∀ c, a.children i = [c] → ¬ a.isShown c)
    (hparts : ∀ c ∈ a.children i, a.isShown c → Renders a c (depth + 1) (part c)) :
    Renders a i depth ((a.node i).drawnLabel ++ "(" ++
      String.join (((a.children i).filter a.isShown).map fun c =>
        "\n" ++ indent (depth + 1) ++ part c) ++
      "\n" ++ indent depth ++ ")")

/-- **The rules allow one text at most.** -/
theorem Renders.unique (hs : a.Renders i depth s) (ht : a.Renders i depth t) : s = t := by
  induction hs generalizing t with
  | childless hkids =>
    cases ht with
    | childless => rfl
    | inline hkids' => simp [hkids] at hkids'
    | spread hkids' => exact absurd hkids hkids'
  | inline hkids hshown _ ih =>
    cases ht with
    | childless hkids' => simp [hkids] at hkids'
    | inline hkids' _ hs' =>
      obtain rfl := List.singleton_inj.mp (hkids.symm.trans hkids')
      rw [ih hs']
    | spread _ hsingle => exact absurd hshown (hsingle _ hkids)
  | spread hkids hsingle _ ih =>
    cases ht with
    | childless hkids' => exact absurd hkids' hkids
    | inline hkids' hshown => exact absurd hshown (hsingle _ hkids')
    | spread _ _ hparts' =>
      refine congrArg (fun lines => _ ++ "(" ++ String.join lines ++ "\n" ++ _ ++ ")")
        (List.map_congr_left fun c hc => ?_)
      obtain ⟨hc, hshown⟩ := List.mem_filter.mp hc
      rw [ih c hc hshown (hparts' c hc hshown)]

/-! ## Rounds -/

theorem iterate_drawRound_nil (a : Arena) (n : Nat) (out : String) :
    a.drawRound^[n] ⟨[], out⟩ = ⟨[], out⟩ :=
  Function.iterate_fixed rfl n

theorem drawPending_eq_iterate (a : Arena) (n : Nat) (d : Drawing) :
    a.drawPending n d = (a.drawRound^[n] d).out := by
  induction n generalizing d with
  | zero => rfl
  | succ n ih =>
    obtain ⟨_ | ⟨p, stack⟩, out⟩ := d
    · rw [iterate_drawRound_nil]
      rfl
    · exact ih _

/-- **A text is drawn** for a node at a level. After some rounds it stands behind the beginning of
its line and whatever was drawn before, and the stack is what was below the node. -/
def Draws (a : Arena) (i : NodeId) (depth : Nat) (s : String) : Prop :=
  ∃ rounds ≤ 2 * a.countNodes i, ∀ ownLine stack out,
    a.drawRound^[rounds] ⟨.enter i depth ownLine :: stack, out⟩ =
      ⟨stack, startAt out depth ownLine ++ s⟩

/-- Nodes on top of the stack are drawn one after the other. -/
theorem exists_iterate_drawRound {l : List NodeId} {part : NodeId → String}
    (h : ∀ c ∈ l, a.Draws c depth (part c)) :
    ∃ rounds ≤ 2 * (l.map a.countNodes).sum, ∀ ownLine stack out,
      a.drawRound^[rounds] ⟨(l.map fun c => .enter c depth ownLine) ++ stack, out⟩ =
        ⟨stack, out ++ String.join (l.map fun c => lineStart depth ownLine ++ part c)⟩ := by
  induction l with
  | nil => exact ⟨0, Nat.zero_le _, fun _ _ _ => by simp⟩
  | cons c l ih =>
    obtain ⟨m, hm, hfirst⟩ := h c List.mem_cons_self
    obtain ⟨n, hn, hrest⟩ := ih fun d hd => h d (List.mem_cons_of_mem _ hd)
    refine ⟨n + m, ?_, fun ownLine stack out => ?_⟩
    · rw [List.map_cons, List.sum_cons]
      omega
    · rw [Function.iterate_add_apply, List.map_cons, List.cons_append, hfirst, hrest, startAt_eq,
        List.map_cons, String.join_cons]
      simp only [String.append_assoc]

/-- **Rounds beyond those that a drawing takes** change nothing. -/
theorem Draws.iterate_eq (h : a.Draws i depth s) (hn : 2 * a.countNodes i ≤ n) (ownLine : Bool)
    (out : String) :
    a.drawRound^[n] ⟨[.enter i depth ownLine], out⟩ = ⟨[], startAt out depth ownLine ++ s⟩ := by
  obtain ⟨rounds, hle, hdraw⟩ := h
  obtain ⟨k, rfl⟩ : ∃ k, n = k + rounds := Nat.exists_eq_add_of_le' (hle.trans hn)
  rw [Function.iterate_add_apply, hdraw, iterate_drawRound_nil]

namespace Linked

/-- Where children are drawn depends on how many there are, and on the kind of a single one. -/
theorem drawsInline_eq (h : a.Linked) {c : NodeId} {l : List NodeId} (hi : a.children i = c :: l) :
    a.drawsInline c = (a.isShown c && l.isEmpty) := by
  have hsplit : a.children i = [] ++ c :: l := hi
  have hnext : (a.node c).nextSibling = l.head? := h.nextSibling_eq hsplit
  rw [drawsInline, hnext]
  cases l <;> rfl

theorem draws_childless (h : a.Linked) (hkids : a.children i = []) :
    a.Draws i depth (a.node i).drawnLabel := by
  have hfirst := (h.childList i).firstChild
  have hsize := h.countNodes_eq i
  rw [hkids] at hfirst hsize
  exact ⟨1, by omega, fun ownLine stack out => drawRound_childless hfirst ..⟩

/-- The drawing of a node with children, put together from those of the children. -/
theorem draws_children (h : a.Linked) {c : NodeId} {l : List NodeId} {part : NodeId → String}
    (hkids : a.children i = c :: l) (hparts : ∀ d ∈ a.children i, a.Draws d (depth + 1) (part d)) :
    a.Draws i depth ((a.node i).drawnLabel ++ "(" ++
      String.join (((a.children i).filter a.isShown).map fun d =>
        lineStart (depth + 1) (!a.drawsInline c) ++ part d) ++
      lineStart depth (!a.drawsInline c) ++ ")") := by
  have hfirst := (h.childList i).firstChild
  rw [hkids, List.head?_cons] at hfirst
  obtain ⟨n, hn, hdraw⟩ := exists_iterate_drawRound (l := (a.children i).filter a.isShown)
    fun d hd => hparts d (List.mem_of_mem_filter hd)
  have hshown : (((a.children i).filter a.isShown).map a.countNodes).sum ≤
      ((a.children i).map a.countNodes).sum :=
    (List.filter_sublist.map a.countNodes).sum_le_sum fun _ _ => Nat.zero_le _
  have hsize := h.countNodes_eq i
  -- the label, the children, the closing parenthesis
  refine ⟨(1 + n) + 1, by omega, fun ownLine stack out => ?_⟩
  rw [Function.iterate_succ_apply, Function.iterate_add_apply, drawRound_enter hfirst, hdraw,
    Function.iterate_one, drawRound_leave, startAt_eq _ depth (!_)]
  simp only [String.push_eq_append, String.append_assoc]
  rfl

/-- **What is drawn is what the rules allow.** -/
theorem exists_renders (h : a.Linked) (i : NodeId) (depth : Nat) :
    ∃ s, a.Renders i depth s ∧ a.Draws i depth s := by
  induction i using h.induction_down generalizing depth with
  | _ i ih =>
    cases hkids : a.children i with
    | nil => exact ⟨_, .childless hkids, h.draws_childless hkids⟩
    | cons c l =>
      choose! part hrenders hdraws using fun d hd => ih d hd (depth + 1)
      refine ⟨_, ?_, h.draws_children hkids hdraws⟩
      cases hinline : a.drawsInline c with
      | true =>
        rw [h.drawsInline_eq hkids, Bool.and_eq_true, List.isEmpty_iff] at hinline
        obtain ⟨hshown, rfl⟩ := hinline
        rw [hkids, List.filter_cons_of_pos hshown, List.filter_nil]
        simpa [lineStart] using Renders.inline hkids hshown (hrenders c (by simp [hkids]))
      | false =>
        have hsingle : ∀ d, a.children i = [d] → ¬ a.isShown d := by
          intro d hd hshown
          rw [h.drawsInline_eq hkids] at hinline
          obtain ⟨rfl, rfl⟩ := List.cons.inj (hkids.symm.trans hd)
          simp [hshown] at hinline
        have hspread := Renders.spread (by simp [hkids]) hsingle fun d hd _ => hrenders d hd
        simpa [lineStart, String.append_assoc] using hspread

/-- **A tree string is drawn**, and it is what the rules allow. -/
theorem draws_treeString (h : a.Linked) (hi : a.isShown i) :
    a.Draws i 0 (a.treeString i) ∧ a.Renders i 0 (a.treeString i) := by
  obtain ⟨s, hs, hdraws⟩ := h.exists_renders i 0
  have hsize := h.countNodes_le i
  have hsurplus := two_le_surplus
  have heq : a.treeString i = s := by
    rw [treeString, if_pos hi, drawPending_eq_iterate, hdraws.iterate_eq (by omega)]
    exact String.empty_append
  exact heq ▸ ⟨hdraws, hs⟩

/-! ## Tree strings and roses -/

theorem isShown_eq (h : (a.node i).face = (b.node j).face) : a.isShown i = b.isShown j := by
  rw [isShown, isShown, show (a.node i).kind = (b.node j).kind from congrArg Face.kind h]

theorem drawnLabel_eq (h : (a.node i).face = (b.node j).face) :
    (a.node i).drawnLabel = (b.node j).drawnLabel := by
  rw [Node.drawnLabel, Node.drawnLabel,
    show (a.node i).kind = (b.node j).kind from congrArg Face.kind h,
    show (a.node i).label = (b.node j).label from congrArg Face.label h]

/-- **What the rules allow** for a node shows of its rose. -/
theorem renders_of_rose_eq (ha : a.Linked) (hb : b.Linked)
    (h : a.rose Node.face i = b.rose Node.face j) (hs : a.Renders i depth s) :
    b.Renders j depth s := by
  induction hs generalizing j with
  | childless hkids =>
    obtain ⟨hface, hlist⟩ := ha.of_rose_eq hb h
    rw [drawnLabel_eq hface]
    rw [hkids] at hlist
    exact .childless (List.map_eq_nil_iff.mp hlist.symm)
  | inline hkids hshown _ ih =>
    obtain ⟨hface, hlist⟩ := ha.of_rose_eq hb h
    rw [hkids] at hlist
    obtain ⟨d, hkids', hcd⟩ := List.map_eq_singleton_iff.mp hlist.symm
    rw [drawnLabel_eq hface]
    rw [isShown_eq (ha.of_rose_eq hb hcd.symm).1] at hshown
    exact .inline hkids' hshown (ih hcd.symm)
  | @spread i depth part hkids hsingle hparts ih =>
    obtain ⟨hface, hlist⟩ := ha.of_rose_eq hb h
    choose part' hpart' _ using fun d => hb.exists_renders d (depth + 1)
    have hshown {c d} (hcd : a.rose Node.face c = b.rose Node.face d) : a.isShown c = b.isShown d :=
      isShown_eq (ha.of_rose_eq hb hcd).1
    have hpairs := List.rel_filter (p := a.isShown) (q := b.isShown)
      (fun c d hcd => Bool.eq_iff_iff.mp (hshown hcd.2.2)) (forall₂_of_map_eq hlist)
    have hlines : ((a.children i).filter a.isShown).map
        (fun c => "\n" ++ indent (depth + 1) ++ part c) =
          ((b.children j).filter b.isShown).map fun d => "\n" ++ indent (depth + 1) ++ part' d := by
      refine map_eq_of_forall₂ hpairs fun c hc d hcd => ?_
      obtain ⟨hc, hshows⟩ := List.mem_filter.mp hc
      rw [(ih c hc hshows hcd.2.2).unique (hpart' d)]
    rw [drawnLabel_eq hface, hlines]
    refine .spread (fun hnil => ?_) (fun d hkids' => ?_) fun d _ _ => hpart' d
    · rw [hnil] at hlist
      exact hkids (List.map_eq_nil_iff.mp hlist)
    · rw [hkids'] at hlist
      obtain ⟨c, hc, hcd⟩ := List.map_eq_singleton_iff.mp hlist
      exact hshown hcd ▸ hsingle c hc

/-- **The tree string** of a subtree shows of its rose. -/
theorem treeString_eq (ha : a.Linked) (hb : b.Linked)
    (h : a.rose Node.face i = b.rose Node.face j) : a.treeString i = b.treeString j := by
  have hshown : a.isShown i = b.isShown j := isShown_eq (ha.of_rose_eq hb h).1
  by_cases hi : a.isShown i
  · have hs := ha.renders_of_rose_eq hb h (ha.draws_treeString hi).2
    exact hs.unique (hb.draws_treeString (hshown ▸ hi)).2
  · rw [treeString, treeString, if_neg hi, if_neg (hshown ▸ hi)]

/-- **Tree strings.** The tree string of an epsilon node is empty. For any other node the drawing
comes to its end within two rounds for each node of the subtree, and the tree string is then the one
text that the rules allow for the node at level zero. -/
theorem treeString_renders (h : a.Linked) (i : NodeId) :
    ((a.node i).kind = .epsilon → a.treeString i = "") ∧
    ((a.node i).kind ≠ .epsilon →
      (∀ n ≥ 2 * a.countNodes i,
        a.drawRound^[n] ⟨[.enter i 0 false], ""⟩ = ⟨[], a.treeString i⟩) ∧
      ∀ s, a.Renders i 0 s ↔ s = a.treeString i) := by
  constructor
  · intro hkind
    have hhidden : a.isShown i = false := by simp [isShown, hkind]
    rw [treeString, hhidden]
    rfl
  · intro hkind
    have hshown : a.isShown i = true := by simpa [isShown] using hkind
    obtain ⟨hdraws, hrenders⟩ := h.draws_treeString hshown
    refine ⟨fun n hn => ?_, fun s => ⟨fun hs => hs.unique hrenders, fun hs => hs ▸ hrenders⟩⟩
    rw [hdraws.iterate_eq hn]
    exact congrArg (Drawing.mk []) String.empty_append

end Linked

/-- A single child stays on the line of the root and has three children, one of them an epsilon
node with a node below it. -/
def inlineLevel : Arena :=
  Command.runAll [.make "S" .nonTerminal 0 2, .push 0 "A" .nonTerminal 0 2,
    .push 1 "a" .characterTerminal 0 1, .push 1 "E" .epsilon 1 1,
    .push 3 "hidden" .nonTerminal 1 1, .push 1 "B" .nonTerminal 1 2,
    .push 5 "E" .epsilon 1 1] {}

theorem linked_inlineLevel : inlineLevel.Linked :=
  (Command.runAll_wellFormed wellFormed_empty (by decide)).linked

theorem renders_inlineLevel :
    inlineLevel.Linked ∧ (inlineLevel.node 0).kind ≠ .epsilon ∧
      inlineLevel.drawRound^[14] ⟨[.enter 0 0 false], ""⟩ = ⟨[], inlineLevel.treeString 0⟩ ∧
      inlineLevel.Renders 0 0 "S(A(\n    `a\n    B(\n    )\n  ))" := by
  obtain ⟨hrounds, hrules⟩ := (linked_inlineLevel.treeString_renders 0).2 (by decide)
  exact ⟨linked_inlineLevel, by decide, hrounds 14 (by decide), (hrules _).mpr (by decide)⟩

end Arena

end ParseTree
