import ParseTree.Proofs.Steps

/-!
# Identities

Whoever allocates a node gives it the next number. So the nodes that an operator adds are numbered
one by one, in the order of their slots, and no number is left out; a command that fails gives none.
Nodes that were there keep theirs. `Numbered` says this of two arenas, and since it can be composed,
what is true of one command is true of a run, and of a walk.

That the numbers of the nodes that are there are below the next one, `Issued`, is then an invariant,
and so no new node has the number of an old one.

## Main results

* `Command.run_of_isEdit`: what all edits do, every command does.
* `Command.numbered_run`, `Command.numbered_runAll`: every command numbers its nodes in order.
* `Numbered.issued`: numbers are not given twice.
-/

namespace ParseTree

theorem Node.linkFree_identity : LinkFree Node.identity :=
  fun _ => rfl

namespace Arena

variable {a b d : Arena} {i p c : NodeId} {l : List NodeId} {stack : List (NodeId × NodeId)}

/-- **The new nodes of `b` are numbered** in the order of their slots, from the next number of `a`
on, and the nodes of `a` have kept their numbers. -/
structure Numbered (a b : Arena) : Prop where
  kept : Keeps Node.identity Set.univ a b
  next_eq : b.nextIdentity + a.size = a.nextIdentity + b.size
  identity_eq : ∀ x, a.size ≤ x → x < b.size →
    (b.node x).identity + a.size = a.nextIdentity + x

namespace Numbered

/-- Nothing was allocated. -/
theorem of_size_eq (hkept : Keeps Node.identity Set.univ a b) (hsize : b.size = a.size)
    (hnext : b.nextIdentity = a.nextIdentity) : a.Numbered b where
  kept := hkept
  next_eq := by rw [hsize, hnext]
  identity_eq x hx hlt := absurd (hsize ▸ hlt) (Nat.not_lt.mpr hx)

theorem refl (a : Arena) : a.Numbered a :=
  of_size_eq (.refl ..) rfl rfl

theorem of_refused {α : Type} {outcome : Outcome α} (hno : a.Refused outcome) :
    a.Numbered outcome.arena :=
  hno.arena_eq.symm ▸ refl a

theorem trans (h : a.Numbered b) (h' : b.Numbered d) : a.Numbered d where
  kept := h.kept.trans h'.kept
  next_eq := by
    have hab := h.next_eq
    have hbd := h'.next_eq
    omega
  identity_eq x hx hlt := by
    rcases Nat.lt_or_ge x b.size with hxb | hxb
    · rw [h'.kept.eq x trivial hxb, h.identity_eq x hx hxb]
    · have hab := h.next_eq
      have hbd := h'.identity_eq x hxb hlt
      omega

end Numbered

/-! ## Operators -/

theorem numbered_make (a : Arena) (label : String) (kind : Kind) (left right : Nat) :
    a.Numbered (a.make label kind left right).2 where
  kept := keeps_make ..
  next_eq := by rw [nextIdentity_make, size_make]; omega
  identity_eq x hx hlt := by
    rw [size_make] at hlt
    obtain rfl : x = a.size := Nat.le_antisymm (Nat.le_of_lt_succ hlt) hx
    rw [node_make, if_pos rfl]

theorem numbered_copy (a : Arena) (i : NodeId) : a.Numbered (a.copy i).2 where
  kept := keeps_copy i
  next_eq := by rw [nextIdentity_copy, size_copy]; omega
  identity_eq x hx hlt := by
    rw [size_copy] at hlt
    obtain rfl : x = a.size := Nat.le_antisymm (Nat.le_of_lt_succ hlt) hx
    rw [node_copy, if_pos rfl]
    rfl

theorem numbered_addChild (a : Arena) (p c : NodeId) : a.Numbered (a.addChild p c) :=
  .of_size_eq (Node.linkFree_identity.keeps_addChild p c) size_addChild nextIdentity_addChild

theorem numbered_splice {prev : Option NodeId} {replacement : Option (NodeId × NodeId)} :
    a.Numbered (a.splice p prev i replacement) :=
  .of_size_eq (Node.linkFree_identity.keeps size_splice fun _ => content_splice) size_splice
    nextIdentity_splice

theorem numbered_promote {prev : Option NodeId} : a.Numbered (a.promote p prev c) :=
  .of_size_eq Node.linkFree_identity.keeps_promote size_promote nextIdentity_promote

/-- Gathering numbers the copy. -/
theorem numbered_gather (a : Arena) (i : NodeId) (label : String) :
    a.Numbered (a.gather i label).2 :=
  (numbered_copy a i).trans <| .of_size_eq
    (Node.linkFree_identity.keeps_gather_copy (.inr fun _ _ _ => rfl) label) (by simp) (by simp)

theorem numbered_gatherRest {siblings : List NodeId} {next : Option NodeId} :
    a.Numbered (a.gatherRest i c siblings next) :=
  .of_size_eq (Node.linkFree_identity.keeps_gatherRest (.inr fun _ _ => rfl)) size_gatherRest
    nextIdentity_gatherRest

theorem numbered_linkAfter {prev : Option NodeId} : a.Numbered (a.linkAfter i prev c) :=
  .of_size_eq (Node.linkFree_identity.keeps size_linkAfter fun _ => content_linkAfter)
    size_linkAfter nextIdentity_linkAfter

theorem numbered_copyChildren (p : NodeId) (l : List NodeId) (stack : List (NodeId × NodeId))
    (a : Arena) : a.Numbered (copyChildren p l stack a).2 := by
  induction l generalizing a stack with
  | nil => exact .refl a
  | cons i l ih =>
    rw [copyChildren_cons]
    exact ((numbered_copy a i).trans (numbered_addChild ..)).trans (ih ..)

theorem numbered_copyPending (n : Nat) (stack : List (NodeId × NodeId)) (a : Arena) :
    a.Numbered (copyPending n stack a) := by
  induction n generalizing a stack with
  | zero => exact .refl a
  | succ n ih =>
    cases stack with
    | nil => exact .refl a
    | cons e stack => exact (numbered_copyChildren ..).trans (ih ..)

/-- **The nodes of a clone** are numbered in the order of their slots. -/
theorem numbered_cloneSubtree (a : Arena) (i : NodeId) : a.Numbered (a.cloneSubtree i).2 :=
  (numbered_copy a i).trans (numbered_copyPending ..)

theorem numbered_updateStore (a : Arena) (s : Nat) (f : TearStore → TearStore) :
    a.Numbered (a.updateStore s f) :=
  .of_size_eq (Node.linkFree_identity.keeps rfl fun _ => rfl) rfl rfl

/-! ## Numbers that were given -/

/-- The nodes of the arena have numbers below the next one. -/
def Issued (a : Arena) : Prop :=
  ∀ x < a.size, (a.node x).identity < a.nextIdentity

theorem issued_empty : ({} : Arena).Issued :=
  fun _ hx => absurd hx (Nat.not_lt_zero _)

/-- **Numbers are not given twice**: they are below the next one from then on. -/
theorem Numbered.issued (h : a.Numbered b) (ha : a.Issued) : b.Issued := by
  intro x hx
  have hnext := h.next_eq
  rcases Nat.lt_or_ge x a.size with hxa | hxa
  · have hold := ha x hxa
    have hsize := h.kept.size_le
    rw [h.kept.eq x trivial hxa]
    omega
  · have hnew := h.identity_eq x hxa hx
    omega

/-- A new node has a greater number than every old one. -/
theorem Numbered.identity_lt (h : a.Numbered b) (ha : a.Issued) {x y : NodeId} (hy : y < a.size)
    (hx : a.size ≤ x) (hlt : x < b.size) : (b.node y).identity < (b.node x).identity := by
  have hold := ha y hy
  have hnew := h.identity_eq x hx hlt
  rw [h.kept.eq y trivial hy]
  omega

end Arena

/-! ## Commands -/

namespace Command

open Arena

variable {a : Arena} {c d : Command} {cs : List Command}

theorem numbered_run_of_isEdit (hedit : c.isEdit = true) : a.Numbered (c.run a).arena := by
  have hset {b : Arena} (hb : (c.run a).arena = b) (hsize : b.size = a.size)
      (hnext : b.nextIdentity = a.nextIdentity) : a.Numbered b := by
    refine .of_size_eq ?_ hsize hnext
    rw [← hb]
    exact ⟨(origin_run hedit).size_le, fun x hx hlt =>
      congrArg Prod.fst ((origin_run hedit).eq x hx hlt)⟩
  cases c with
  | make label kind left right => exact numbered_make ..
  | makeSymbol symbols label left right => exact numbered_make ..
  | push p label kind left right => exact (numbered_make ..).trans (numbered_addChild ..)
  | addChild p child =>
    cases child with
    | none => exact .refl a
    | some child => exact numbered_addChild ..
  | setChild p child => exact hset rfl size_setChild nextIdentity_setChild
  | setSibling i sibling => exact hset rfl size_setSibling nextIdentity_setSibling
  | setParent i parent => exact hset rfl (size_update ..) rfl
  | deleteChild p child =>
    rw [run, Outcome.arena_map]
    rcases a.deleteChild_outcome p child with hno | ⟨_, -, hok⟩
    · exact .of_refused hno
    · exact hok ▸ numbered_promote
  | setLabel i label => exact hset rfl (size_update ..) rfl
  | setKind i kind => exact hset rfl (size_update ..) rfl
  | setLeft i left => exact hset rfl (size_update ..) rfl
  | setRight i right => exact hset rfl (size_update ..) rfl
  | foldOver i =>
    have hlabel {b : Arena} {p : NodeId} {label : String} : b.Numbered (b.setLabel p label) :=
      .of_size_eq (keeps_update (.inr fun _ => rfl)) (size_update ..) rfl
    rw [run, Outcome.arena_map]
    rcases a.foldOver_outcome i with hno | ⟨_, _, -, -, hok⟩
    · exact .of_refused hno
    · exact hok ▸ numbered_promote.trans hlabel
  | foldUnder i =>
    rw [run, Outcome.arena_map]
    rcases a.foldUnder_outcome i with hno | ⟨_, _, -, -, hok⟩
    · exact .of_refused hno
    · exact hok ▸ numbered_promote
  | gather i label => exact numbered_gather ..
  | gatherWithSiblings i label siblings =>
    rw [run, Outcome.arena_map]
    rcases a.gatherWithSiblings_outcome i label siblings with hno | ⟨after, -, hok⟩
    · exact .of_refused hno
    · exact hok ▸ (numbered_gather ..).trans numbered_gatherRest
  | tear i =>
    rw [run, Outcome.arena_map]
    rcases a.tear_outcome i with hno | ⟨p, prev, -, -, hok⟩
    · exact .of_refused hno
    · rw [hok]
      show a.Numbered (a.splice p prev i none)
      exact numbered_splice
  | tearInto i key =>
    rw [run, Outcome.arena_map]
    rcases a.tearInto_outcome i key with hno | ⟨p, prev, -, -, hok⟩
    · exact .of_refused hno
    · rw [hok]
      show a.Numbered (((a.cloneSubtree i).2.updateStore ((a.cloneSubtree i).2.node p).store
        fun store => store.insert key a.size).splice p prev i none)
      exact ((numbered_cloneSubtree ..).trans (numbered_updateStore ..)).trans numbered_splice
  | insert i position key =>
    rw [run, Outcome.arena_map]
    rcases a.insert_outcome i position key with hno | ⟨stored, prev, -, -, hok⟩
    · exact .of_refused hno
    · rw [hok]
      show a.Numbered ((a.cloneSubtree stored).2.linkAfter i prev a.size)
      exact (numbered_cloneSubtree ..).trans numbered_linkAfter
  | clone i => exact numbered_cloneSubtree ..
  | apply | transform | toAst => cases hedit

end Command

namespace Edit

variable {input : String} {c : Command}

theorem isEdit_of_mem_commands {es : List Edit} {a : Arena} {i : NodeId}
    (hc : c ∈ commands input es a i) : c.isEdit = true := by
  induction es generalizing a i with
  | nil => cases hc
  | cons e es ih =>
    rw [commands] at hc
    rcases List.mem_append.mp hc with hc | hc
    · exact isEdit_of_command? (Option.mem_toList.mp hc)
    · generalize e.apply input a i = o at hc
      obtain ⟨_ | j, b, log⟩ := o
      · cases hc
      · exact ih hc

end Edit

namespace RuleTable

variable {t : RuleTable} {input : String} {c : Command}

theorem isEdit_of_mem_commands {a : Arena} {i : NodeId} (hc : c ∈ t.commands input a i) :
    c.isEdit = true := by
  unfold commands at hc
  split at hc
  · cases hc
  · exact Edit.isEdit_of_mem_commands hc

theorem isEdit_of_mem_commandsAll {l : List NodeId} {a : Arena}
    (hc : c ∈ t.commandsAll input l a) : c.isEdit = true := by
  induction l generalizing a with
  | nil => cases hc
  | cons i l ih =>
    rcases List.mem_append.mp hc with hc | hc
    · exact isEdit_of_mem_commands hc
    · exact ih hc

end RuleTable

namespace Command

open Arena

variable {a : Arena} {c d : Command}

/-- The steps of a command edit the arena by themselves. -/
theorem isEdit_of_mem_steps (hd : d ∈ c.steps a) : d.isEdit = true := by
  cases c with
  | apply action i input => exact Edit.isEdit_of_mem_commands hd
  | transform t i input => exact RuleTable.isEdit_of_mem_commands hd
  | toAst t r input => exact RuleTable.isEdit_of_mem_commandsAll hd
  | _ =>
    obtain rfl := List.mem_singleton.mp hd
    rfl

/-- **What all edits do, every command does**, if it is something that can be done in turn. -/
theorem run_of_isEdit {R : Arena → Arena → Prop} (hrefl : ∀ a, R a a)
    (htrans : ∀ {a b d}, R a b → R b d → R a d)
    (hedit : ∀ {c : Command} {a : Arena}, c.isEdit = true → R a (c.run a).arena)
    (c : Command) (a : Arena) : R a (c.run a).arena := by
  have hall {cs : List Command} (hcs : ∀ d ∈ cs, d.isEdit = true) (b : Arena) :
      R b (runAll cs b) := by
    induction cs generalizing b with
    | nil => exact hrefl b
    | cons d cs ih =>
      obtain ⟨hd, hcs⟩ := List.forall_mem_cons.mp hcs
      exact htrans (hedit hd) (ih hcs _)
  rw [← runAll_steps]
  exact hall (fun _ => isEdit_of_mem_steps) a

/-- **Every command numbers its nodes in order**, whatever the links of the arena are like. -/
theorem numbered_run (c : Command) (a : Arena) : a.Numbered (c.run a).arena :=
  run_of_isEdit .refl .trans numbered_run_of_isEdit c a

/-- **No command**, be it a walk, gives a node another identity or another tear store. -/
theorem keeps_origin_run (c : Command) (a : Arena) :
    Keeps Node.origin Set.univ a (c.run a).arena :=
  run_of_isEdit (.refl _ _) .trans origin_run c a

/-- **A run** numbers its nodes in order. -/
theorem numbered_runAll (cs : List Command) (a : Arena) : a.Numbered (runAll cs a) := by
  induction cs generalizing a with
  | nil => exact .refl a
  | cons c cs ih => exact (numbered_run c a).trans (ih _)

/-- **In every run from an empty arena** the nodes have numbers below the next one. -/
theorem issued_runAll (cs : List Command) : (runAll cs {}).Issued :=
  (numbered_runAll cs {}).issued issued_empty

end Command

end ParseTree
