import ParseTree.Command
import ParseTree.Proofs.Operators
import ParseTree.Proofs.StructureCheck

/-!
# Runs of operators

A run begins with an empty arena and carries out one command after the other, those that fail
included. An operator is given slots of the arena. That is all that is asked of most of them;
appending a node has preconditions of its own, since it links whatever it is given. Three commands
that set links one by one are no operators, and neither are the commands that carry out actions.

The invariant of such runs, `WellFormed`, adds to `Linked` that tear stores refer to roots. Both
halves are needed for a step: a node that is appended must be a root, and no stored one.

## Main results

* `run_wellFormed`: an admissible operator keeps an arena well-formed, whether it succeeds or fails.
* `wellFormed_of_run`: so every arena of a run is well-formed.
-/

namespace ParseTree

namespace Arena

variable {a b : Arena} {i p c : NodeId} {before after siblings : List NodeId}
  {kids : NodeId → List NodeId}

/-! ## Stored subtrees -/

/-- Node `i` is the root of a subtree in some tear store. -/
def IsStored (a : Arena) (i : NodeId) : Prop :=
  ∃ store ∈ a.stores, ∃ e ∈ store.entries, e.2 = i

/-- An arena whose links are in order and whose tear stores refer to roots. -/
structure WellFormed (a : Arena) : Prop where
  linked : a.Linked
  stored : ∀ i, a.IsStored i → i < a.size ∧ (a.node i).parent = none

theorem linked_empty : ({} : Arena).Linked := by
  have hnode : ∀ i, ({} : Arena).node i = .blank := fun _ => rfl
  have hkids : ∀ i, ({} : Arena).IsChildList i [] := fun i => ⟨rfl, trivial, rfl, by simp⟩
  refine (Linked.of_childLists hkids (fun {i p} hi => ?_) (fun _ => rfl) fun i => ?_).1
  · simp [hnode, Node.blank] at hi
  · exact .of_root rfl

theorem wellFormed_empty : ({} : Arena).WellFormed := by
  refine ⟨linked_empty, fun i hi => ?_⟩
  obtain ⟨store, hstore, -⟩ := hi
  simp at hstore

/-- Only nodes that are listed already, and new nodes, are listed by `kids`. -/
def ListsNoRoot (a : Arena) (kids : NodeId → List NodeId) : Prop :=
  ∀ {i p}, i ∈ kids p → i < a.size → ∃ q, i ∈ a.children q

theorem listsNoRoot_children (a : Arena) : a.ListsNoRoot a.children :=
  fun {_ p} hi _ => ⟨p, hi⟩

theorem listsNoRoot_promoted (hp : a.children p = before ++ c :: after) :
    a.ListsNoRoot (a.promoted p c before after) := by
  intro i q hi _
  have hmem : i ∈ a.children p ∨ i ∈ a.children c ∨ i ∈ a.children q := by
    simp only [promoted, Function.update_apply] at hi
    grind
  grind

theorem listsNoRoot_shortened (hp : a.children p = before ++ c :: after) :
    a.ListsNoRoot (a.shortened p before after) := by
  intro i q hi _
  have hmem : i ∈ a.children p ∨ i ∈ a.children q := by
    simp only [shortened, Function.update_apply] at hi
    grind
  grind

theorem listsNoRoot_lengthened (hp : a.children p = before ++ after) :
    a.ListsNoRoot (a.lengthened p before after) := by
  intro i q hi hlt
  have hne : i ≠ a.size := Nat.ne_of_lt hlt
  have hmem : i ∈ a.children p ∨ i ∈ a.children q := by
    simp only [lengthened, Function.update_apply] at hi
    grind
  grind

theorem listsNoRoot_deepened (a : Arena) (i : NodeId) : a.ListsNoRoot (a.deepened i) := by
  intro j q hj hlt
  have hne : j ≠ a.size := Nat.ne_of_lt hlt
  have hmem : j ∈ a.children i ∨ j ∈ a.children q := by
    simp only [deepened, Function.update_apply] at hj
    grind
  grind

theorem listsNoRoot_gathered (hp : a.children p = before ++ i :: (siblings ++ after)) :
    a.ListsNoRoot (a.gathered p i before siblings after) := by
  intro j q hj hlt
  have hne : j ≠ a.size := Nat.ne_of_lt hlt
  have hmem : j ∈ a.children p ∨ j ∈ a.children i ∨ j ∈ a.children q := by
    simp only [gathered, Function.update_apply] at hj
    grind
  grind

/-- Stored roots stay roots under a rearrangement that lists no root. -/
theorem WellFormed.of_relinked (h : a.WellFormed) (hb : a.Relinked b kids)
    (hkids : a.ListsNoRoot kids) (hstored : ∀ i, b.IsStored i → a.IsStored i) : b.WellFormed where
  linked := hb.linked
  stored i hi := by
    obtain ⟨hlt, hroot⟩ := h.stored i (hstored i hi)
    exact ⟨Nat.lt_of_lt_of_le hlt hb.size_le,
      hb.root_of_root h.linked hlt hroot fun p hp => hkids hp hlt⟩

theorem isStored_of_stores_eq (hstores : b.stores = a.stores) (i : NodeId) (hi : b.IsStored i) :
    a.IsStored i := by
  rwa [IsStored, hstores] at hi

/-- Fields other than links may be set. -/
theorem WellFormed.of_sameLinks (h : a.WellFormed) (hab : a.SameLinks b) (hsize : a.size ≤ b.size)
    (hstores : b.stores = a.stores) : b.WellFormed :=
  h.of_relinked (h.linked.relinked_of_sameLinks hab hsize) (listsNoRoot_children a)
    (isStored_of_stores_eq hstores)

theorem WellFormed.of_refused {α : Type} {o : Outcome α} (h : a.WellFormed) (ho : a.Refused o) :
    o.arena.WellFormed := by
  rw [ho.arena_eq]
  exact h

/-- A new tear store is empty. -/
theorem isStored_of_make {label : String} {kind : Kind} {left right : Nat}
    (hi : (a.make label kind left right).2.IsStored i) : a.IsStored i := by
  obtain ⟨store, hstore, e, he, rfl⟩ := hi
  rcases Array.mem_push.mp hstore with hstore | rfl
  · exact ⟨store, hstore, e, he, rfl⟩
  · simp at he

/-! ## The operators one by one -/

namespace WellFormed

theorem deleteChild (h : a.WellFormed) (p c : NodeId) : (a.deleteChild p c).arena.WellFormed := by
  rcases h.linked.deleteChild_cases p c with ⟨-, hno⟩ | ⟨_, _, _, hp, hok, hb, hstores⟩
  · exact h.of_refused hno
  · rw [hok]
    exact h.of_relinked hb (listsNoRoot_promoted hp) (isStored_of_stores_eq hstores)

theorem foldUnder (h : a.WellFormed) (i : NodeId) : (a.foldUnder i).arena.WellFormed := by
  rcases h.linked.foldUnder_cases i with ⟨-, hno⟩ | ⟨_, _, _, _, hp, hok, hb, hstores⟩
  · exact h.of_refused hno
  · rw [hok]
    exact h.of_relinked hb (listsNoRoot_promoted hp) (isStored_of_stores_eq hstores)

theorem foldOver (h : a.WellFormed) (i : NodeId) : (a.foldOver i).arena.WellFormed := by
  rcases h.linked.foldOver_cases i with ⟨-, hno⟩ | ⟨_, _, _, _, hp, hok, hb, hstores⟩
  · exact h.of_refused hno
  · rw [hok]
    exact h.of_relinked hb (listsNoRoot_promoted hp) (isStored_of_stores_eq hstores)

theorem gather (h : a.WellFormed) (hi : i < a.size) (label : String) :
    (a.gather i label).2.WellFormed :=
  h.of_relinked (h.linked.gather_relinked hi label) (listsNoRoot_deepened a i)
    (isStored_of_stores_eq (stores_gather a i label))

theorem gatherWithSiblings (h : a.WellFormed) (hi : i < a.size) (label : String)
    (siblings : List NodeId) : (a.gatherWithSiblings i label siblings).arena.WellFormed := by
  rcases h.linked.gatherWithSiblings_cases hi label siblings with
    hno | ⟨-, _, hok, hb, hstores⟩ | ⟨_, _, _, _, hp, hok, hb, hstores⟩
  · exact h.of_refused hno
  · rw [hok]
    exact h.of_relinked hb (listsNoRoot_deepened a i) (isStored_of_stores_eq hstores)
  · rw [hok]
    exact h.of_relinked hb (listsNoRoot_gathered hp) (isStored_of_stores_eq hstores)

theorem tear (h : a.WellFormed) (i : NodeId) : (a.tear i).arena.WellFormed := by
  rcases h.linked.tear_cases i with ⟨-, hno⟩ | ⟨_, _, _, _, hp, hok, hb, hstores⟩
  · exact h.of_refused hno
  · rw [hok]
    exact h.of_relinked hb (listsNoRoot_shortened hp) (isStored_of_stores_eq hstores)

/-- The one operator that stores: what it stores is the root of its clone. -/
theorem tearInto (h : a.WellFormed) (i : NodeId) (key : String) :
    (a.tearInto i key).arena.WellFormed := by
  rcases h.linked.tearInto_cases i key with
    ⟨-, hno⟩ | ⟨_, _, _, b, hp, hok, hb, hlt, hroot, s, hstores⟩
  · exact h.of_refused hno
  rw [hok]
  show b.WellFormed
  refine ⟨hb.linked, fun r hr => ?_⟩
  have hcases : a.IsStored r ∨ r = a.size := by
    obtain ⟨store, hstore, e, he, rfl⟩ := hr
    rw [hstores, Array.mem_iff_getElem] at hstore
    obtain ⟨k, hk, rfl⟩ := hstore
    rw [Array.size_modify] at hk
    rw [Array.getElem_modify] at he
    split at he
    · rcases List.mem_cons.mp he with rfl | he
      · exact .inr rfl
      · exact .inl ⟨_, Array.getElem_mem hk, e, (List.mem_filter.mp he).1, rfl⟩
    · exact .inl ⟨_, Array.getElem_mem hk, e, he, rfl⟩
  rcases hcases with hold | rfl
  · obtain ⟨hlt', hroot'⟩ := h.stored r hold
    exact ⟨Nat.lt_trans hlt' hlt,
      hb.root_of_root h.linked hlt' hroot' fun p hp' => listsNoRoot_shortened hp hp' hlt'⟩
  · exact ⟨hlt, hroot⟩

theorem insert (h : a.WellFormed) (hi : i < a.size) (position : Nat) (key : String) :
    (a.insert i position key).arena.WellFormed := by
  rcases h.linked.insert_cases hi position key with hno | ⟨_, _, _, hp, hok, hb, hstores⟩
  · exact h.of_refused hno
  · rw [hok]
    exact h.of_relinked hb (listsNoRoot_lengthened hp) (isStored_of_stores_eq hstores)

theorem cloneSubtree (h : a.WellFormed) (i : NodeId) : (a.cloneSubtree i).2.WellFormed := by
  have hclone := h.linked.cloneSubtree i
  exact h.of_relinked (hclone.relinked h.linked) (listsNoRoot_children a)
    (isStored_of_stores_eq hclone.stores)

theorem make (h : a.WellFormed) (label : String) (kind : Kind) (left right : Nat) :
    (a.make label kind left right).2.WellFormed :=
  h.of_relinked (h.linked.make_relinked label kind left right) (listsNoRoot_children a)
    fun _ => isStored_of_make

/-- A root outside the tree of its new parent may be appended if no tear store refers to it. -/
theorem addChild (h : a.WellFormed) (hp : p < a.size) (hc : c < a.size)
    (hroot : (a.node c).parent = none) (hpc : ¬ a.Within p c) (hstored : ¬ a.IsStored c) :
    (a.addChild p c).WellFormed := by
  have hb := h.linked.addChild_relinked hp hc hroot hpc
  refine ⟨hb.linked, fun r hr => ?_⟩
  rw [IsStored, stores_addChild] at hr
  obtain ⟨hlt, hroot'⟩ := h.stored r hr
  have hne : r ≠ c := by
    rintro rfl
    exact hstored hr
  refine ⟨Nat.lt_of_lt_of_le hlt hb.size_le, hb.root_of_root h.linked hlt hroot' fun q hq => ?_⟩
  rw [Function.update_apply] at hq
  grind

theorem push (h : a.WellFormed) (hp : p < a.size) (label : String) (kind : Kind)
    (left right : Nat) : (a.push p label kind left right).2.WellFormed := by
  have hb := h.linked.push_relinked hp label kind left right
  have hstores : (a.push p label kind left right).2.stores =
      (a.make label kind left right).2.stores := stores_addChild
  refine h.of_relinked hb (listsNoRoot_lengthened (List.append_nil _).symm) fun i hi => ?_
  exact isStored_of_make (isStored_of_stores_eq hstores i hi)

theorem setLabel (h : a.WellFormed) (i : NodeId) (label : String) :
    (a.setLabel i label).WellFormed :=
  h.of_sameLinks (sameLinks_setLabel a i label) (Nat.le_of_eq (size_update ..).symm) rfl

theorem setKind (h : a.WellFormed) (i : NodeId) (kind : Kind) : (a.setKind i kind).WellFormed :=
  h.of_sameLinks (sameLinks_setKind a i kind) (Nat.le_of_eq (size_update ..).symm) rfl

theorem setLeft (h : a.WellFormed) (i : NodeId) (left : Nat) : (a.setLeft i left).WellFormed :=
  h.of_sameLinks (sameLinks_setLeft a i left) (Nat.le_of_eq (size_update ..).symm) rfl

theorem setRight (h : a.WellFormed) (i : NodeId) (right : Nat) : (a.setRight i right).WellFormed :=
  h.of_sameLinks (sameLinks_setRight a i right) (Nat.le_of_eq (size_update ..).symm) rfl

end WellFormed

end Arena

/-! ## Runs -/

namespace Command

open Arena

variable {a : Arena} {c : Command} {cs ds : List Command}

/-- The nodes that a command looks up. Siblings to be gathered are compared with what follows the
node, and may be anything. -/
def slots : Command → List NodeId
  | .make .. | .makeSymbol .. => []
  | .addChild parent child => parent :: child.toList
  | .setChild parent child => parent :: child.toList
  | .setSibling i sibling => i :: sibling.toList
  | .setParent i parent => i :: parent.toList
  | .deleteChild parent child => [parent, child]
  | .push i .. | .setLabel i _ | .setKind i _ | .setLeft i _ | .setRight i _ | .foldOver i
  | .foldUnder i | .gather i _ | .gatherWithSiblings i .. | .tear i | .tearInto i _ | .insert i ..
  | .clone i | .apply _ i _ | .transform _ i _ | .toAst _ i _ => [i]

/-- Whether a command is an operator, as opposed to one that sets a link or carries out actions. -/
def isOperator : Command → Bool
  | .setChild .. | .setSibling .. | .setParent .. | .apply .. | .transform .. | .toAst .. => false
  | _ => true

/-- The node that a command appends, and the node that it appends it to. -/
def joins : Command → Option (NodeId × NodeId)
  | .addChild parent (some child) => some (parent, child)
  | _ => none

/-- **What an operator may be given**: any slots, but a node that is to be appended must be a root
without sibling, not that of the tree it is to join, and not one that a tear store refers to. -/
structure Admissible (a : Arena) (c : Command) : Prop where
  operator : c.isOperator = true
  slots : ∀ i ∈ c.slots, i < a.size
  joins : ∀ e ∈ c.joins, (a.node e.2).parent = none ∧ (a.node e.2).nextSibling = none ∧
    a.root e.1 ≠ e.2 ∧ ¬ a.IsStored e.2

/-- A list of commands, each of them admissible when it is its turn. -/
def Legal : Arena → List Command → Prop
  | _, [] => True
  | a, c :: cs => Admissible a c ∧ Legal (c.run a).arena cs

instance (a : Arena) (i : NodeId) : Decidable (a.IsStored i) :=
  inferInstanceAs (Decidable (∃ store ∈ a.stores, ∃ e ∈ store.entries, e.2 = i))

instance (a : Arena) (c : Command) : Decidable (Admissible a c) :=
  decidable_of_iff (c.isOperator = true ∧ (∀ i ∈ c.slots, i < a.size) ∧
      ∀ e ∈ c.joins, (a.node e.2).parent = none ∧ (a.node e.2).nextSibling = none ∧
        a.root e.1 ≠ e.2 ∧ ¬ a.IsStored e.2)
    ⟨fun ⟨hop, hslots, hjoins⟩ => ⟨hop, hslots, hjoins⟩,
      fun ⟨hop, hslots, hjoins⟩ => ⟨hop, hslots, hjoins⟩⟩

instance decidableLegal : (a : Arena) → (cs : List Command) → Decidable (Legal a cs)
  | _, [] => .isTrue trivial
  | a, c :: cs =>
    have := decidableLegal (c.run a).arena cs
    inferInstanceAs (Decidable (_ ∧ _))

/-- **One step.** An admissible operator keeps an arena well-formed, whether it succeeds or fails.
-/
theorem run_wellFormed (h : a.WellFormed) (hc : Admissible a c) : (c.run a).arena.WellFormed := by
  obtain ⟨hop, hslots, hjoins⟩ := hc
  cases c with
  | make label kind left right => exact h.make label kind left right
  | makeSymbol symbols label left right => exact h.make _ _ left right
  | push p label kind left right =>
    exact h.push (hslots p (List.mem_cons_self ..)) label kind left right
  | addChild p child =>
    cases child with
    | none => exact h
    | some child =>
      obtain ⟨hroot, -, hne, hstored⟩ := hjoins (p, child) rfl
      have hpc : ¬ a.Within p child := fun hpc => hne (h.linked.root_eq_iff.mpr ⟨hpc, hroot⟩)
      have hp : p < a.size := hslots p (List.mem_cons_self ..)
      have hchild : child < a.size := hslots child (List.mem_cons_of_mem _ (List.mem_cons_self ..))
      exact h.addChild hp hchild hroot hpc hstored
  | deleteChild p child => simpa only [run, Outcome.arena_map] using h.deleteChild p child
  | setLabel i label => exact h.setLabel i label
  | setKind i kind => exact h.setKind i kind
  | setLeft i left => exact h.setLeft i left
  | setRight i right => exact h.setRight i right
  | foldOver i => simpa only [run, Outcome.arena_map] using h.foldOver i
  | foldUnder i => simpa only [run, Outcome.arena_map] using h.foldUnder i
  | gather i label => exact h.gather (hslots i (List.mem_cons_self ..)) label
  | gatherWithSiblings i label siblings =>
    have hi : i < a.size := hslots i (List.mem_cons_self ..)
    simpa only [run, Outcome.arena_map] using h.gatherWithSiblings hi label siblings
  | tear i => simpa only [run, Outcome.arena_map] using h.tear i
  | tearInto i key => simpa only [run, Outcome.arena_map] using h.tearInto i key
  | insert i position key =>
    have hi : i < a.size := hslots i (List.mem_cons_self ..)
    simpa only [run, Outcome.arena_map] using h.insert hi position key
  | clone i => exact h.cloneSubtree i
  | setChild p child => simp [isOperator] at hop
  | setSibling i sibling => simp [isOperator] at hop
  | setParent i parent => simp [isOperator] at hop
  | apply action i input => simp [isOperator] at hop
  | transform rules i input => simp [isOperator] at hop
  | toAst rules root input => simp [isOperator] at hop

/-- **A run** of admissible operators keeps an arena well-formed. -/
theorem runAll_wellFormed (h : a.WellFormed) (hcs : Legal a cs) : (runAll cs a).WellFormed := by
  induction cs generalizing a with
  | nil => exact h
  | cons c cs ih => exact ih (run_wellFormed h hcs.1) hcs.2

/-- Legality is checked from the front, so that a run may be stopped anywhere. -/
theorem Legal.of_append (h : Legal a (cs ++ ds)) : Legal a cs := by
  induction cs generalizing a with
  | nil => trivial
  | cons c cs ih => exact ⟨h.1, ih h.2⟩

/-- **Every arena of a run is well-formed.** Whatever operators are carried out on an empty arena,
at every point of the run each node has a child list, which is finite, meets no node twice and ends
at the cached last child; parent links and child lists agree and have no cycle; roots are in no
list; tear stores refer to roots. The structure check accepts every node. -/
theorem wellFormed_of_run (h : Legal {} (cs ++ ds)) :
    (runAll cs {}).WellFormed ∧
      (∀ i, ((runAll cs {}).node i).firstChild = none → ((runAll cs {}).node i).lastChild = none) ∧
      (∀ i, ((runAll cs {}).children i).Nodup) ∧
      ∀ i, (runAll cs {}).checkStructure i = .ok () := by
  have hw : (runAll cs {}).WellFormed := runAll_wellFormed wellFormed_empty h.of_append
  refine ⟨hw, fun i hi => ?_, hw.linked.nodup_children, hw.linked.checkStructure_eq_ok⟩
  have hlist := hw.linked.childList i
  rw [hlist.lastChild, hlist.nil_of_firstChild hi]
  rfl

/-- Two nodes are pushed below a third, the first is gathered together with the second, and a fold
of the root fails. -/
theorem wellFormed_of_run_of_failure :
    Legal {} ([.make "r" .nonTerminal 0 2, .push 0 "x" .terminal 0 1, .push 0 "y" .terminal 1 2,
      .gatherWithSiblings 1 "g" [2], .foldOver 0] ++ [.tearInto 1 "k"]) ∧
    (runAll [.make "r" .nonTerminal 0 2, .push 0 "x" .terminal 0 1, .push 0 "y" .terminal 1 2,
      .gatherWithSiblings 1 "g" [2], .foldOver 0] {}).checkStructure 0 = .ok () :=
  have hlegal : Legal {} ([.make "r" .nonTerminal 0 2, .push 0 "x" .terminal 0 1,
      .push 0 "y" .terminal 1 2, .gatherWithSiblings 1 "g" [2], .foldOver 0] ++
        [.tearInto 1 "k"]) := by
    decide
  ⟨hlegal, (wellFormed_of_run hlegal).2.2.2 0⟩

end Command

end ParseTree
