import ParseTree.Proofs.CloneShape

/-!
# Outcomes of commands

A command that fails leaves the arena alone, whatever its links are like. A command that succeeds
writes to tear stores in two ways only: a node that is made gets a store of its own, and a keyed
tear writes one entry.

## Main results

* `Command.arena_of_error`: a command that fails leaves the arena alone.
* `Command.stores_run`: what a command does to the tear stores.
-/

namespace ParseTree

namespace Arena

variable {a : Arena}

/-! ## Clones -/

theorem size_lt_cloneSubtree (a : Arena) (i : NodeId) : a.size < (a.cloneSubtree i).2.size := by
  have hgrows := (Node.linkFree_content.keeps_copyPending (K := Set.univ) (a.countNodes i)
    [(i, a.size)] (a.copy i).2).size_le
  rwa [size_copy] at hgrows

theorem stores_copyChildren (p : NodeId) (l : List NodeId) (stack : List (NodeId × NodeId))
    (a : Arena) : (copyChildren p l stack a).2.stores = a.stores := by
  induction l generalizing a stack with
  | nil => rfl
  | cons i l ih => rw [copyChildren_cons, ih, stores_addChild, stores_copy]

theorem stores_copyPending (n : Nat) (stack : List (NodeId × NodeId)) (a : Arena) :
    (copyPending n stack a).stores = a.stores := by
  induction n generalizing a stack with
  | zero => rfl
  | succ n ih =>
    match stack with
    | [] => rfl
    | (i, c) :: stack => exact (ih ..).trans (stores_copyChildren ..)

/-- A clone shares tear stores, and adds none. -/
@[simp] theorem stores_cloneSubtree (a : Arena) (i : NodeId) :
    (a.cloneSubtree i).2.stores = a.stores :=
  stores_copyPending ..

/-- A parent that lists a node is a slot. -/
theorem lt_size_of_predecessor? {p i : NodeId} {prev : Option NodeId}
    (h : a.predecessor? p i = some prev) : p < a.size := by
  have hmem : i ∈ a.children p := (isSome_predecessor? ..).mp (by rw [h]; rfl)
  cases hfirst : (a.node p).firstChild with
  | none => simp [children, hfirst] at hmem
  | some first => exact lt_size_of_firstChild hfirst

end Arena

/-! ## Commands -/

/-- A keyed tear that succeeded: the key, the parent of the node that was torn, and the root of the
copy that was stored. -/
structure Tear where
  key : String
  parent : NodeId
  copy : NodeId
  deriving DecidableEq, Repr

namespace Command

open Arena

variable {a : Arena} {c : Command} {x : NodeId}

/-- **A command that fails leaves the arena alone.** -/
theorem arena_of_error (hedit : c.isEdit = true) {e : EditError}
    (h : (c.run a).result = .error e) : (c.run a).arena = a := by
  have hmap {α : Type} {o : Outcome α} {f : α → Option NodeId}
      (ho : (a.Refused o ∨ ∃ b x, o = .ok b x)) (h : (o.map f).result = .error e) :
      (o.map f).arena = a := by
    rcases ho with ⟨e, log, rfl⟩ | ⟨b, x, rfl⟩
    · rfl
    · cases h
  cases c with
  | deleteChild p child =>
    exact hmap ((a.deleteChild_outcome p child).imp_right fun ⟨_, _, h⟩ => ⟨_, _, h⟩) h
  | foldOver i =>
    exact hmap ((a.foldOver_outcome i).imp_right fun ⟨_, _, _, _, h⟩ => ⟨_, _, h⟩) h
  | foldUnder i =>
    exact hmap ((a.foldUnder_outcome i).imp_right fun ⟨_, _, _, _, h⟩ => ⟨_, _, h⟩) h
  | gatherWithSiblings i label siblings =>
    exact hmap ((a.gatherWithSiblings_outcome i label siblings).imp_right
      fun ⟨_, _, h⟩ => ⟨_, _, h⟩) h
  | tear i => exact hmap ((a.tear_outcome i).imp_right fun ⟨_, _, _, _, h⟩ => ⟨_, _, h⟩) h
  | tearInto i key =>
    exact hmap ((a.tearInto_outcome i key).imp_right fun ⟨_, _, _, _, h⟩ => ⟨_, _, h⟩) h
  | insert i position key =>
    exact hmap ((a.insert_outcome i position key).imp_right fun ⟨_, _, _, _, h⟩ => ⟨_, _, h⟩) h
  | addChild p child => cases child <;> cases h
  | make | makeSymbol | push | setChild | setSibling | setParent | setLabel | setKind | setLeft
  | setRight | gather | clone => cases h
  | apply | transform | toAst => cases hedit

/-- The node that a command makes other than by copying. -/
def making (a : Arena) : Command → List NodeId
  | .make .. | .makeSymbol .. | .push .. => [a.size]
  | _ => []

/-- The keyed tear that a command is, if it is one and succeeds. -/
def tears (a : Arena) : Command → List Tear
  | .tearInto i key =>
    if (a.tearInto i key).result.isOk then
      (a.node i).parent.toList.map fun p => { key, parent := p, copy := a.size }
    else []
  | _ => []

/-- The node that makes room for one tear store has that one. -/
theorem store_push {b : Arena} (label : String) (kind : Kind) (left right : Nat)
    (hb : ∀ x, (b.node x).content = ((a.make label kind left right).2.node x).content) :
    (b.node a.size).store = a.stores.size := by
  have hmark := Node.linkFree_mark.eq_of_content (hb a.size)
  rw [node_make, if_pos rfl] at hmark
  exact congrArg Prod.snd hmark

/-- **What a step does to the tear stores.** It leaves them alone, or adds an empty one for the node
that it makes, or writes one entry, into the store of the parent of the node that is torn. -/
theorem stores_run (hedit : c.isEdit = true) :
    (c.making a = [] ∧ c.tears a = [] ∧ (c.run a).arena.stores = a.stores) ∨
    (c.making a = [a.size] ∧ c.tears a = [] ∧
      (c.run a).arena.stores = a.stores.push {} ∧ (c.run a).arena.size = a.size + 1 ∧
      ((c.run a).arena.node a.size).store = a.stores.size) ∨
    ∃ t, c.making a = [] ∧ c.tears a = [t] ∧ t.parent < a.size ∧ t.copy < (c.run a).arena.size ∧
      (c.run a).arena.stores =
        a.stores.modify (a.node t.parent).store fun store => store.insert t.key t.copy := by
  cases c with
  | make label kind left right =>
    exact .inr (.inl ⟨rfl, rfl, rfl, size_make .., store_push label kind left right fun _ => rfl⟩)
  | makeSymbol symbols label left right =>
    exact .inr (.inl ⟨rfl, rfl, rfl, size_make .., store_push _ _ left right fun _ => rfl⟩)
  | push p label kind left right =>
    exact .inr (.inl ⟨rfl, rfl, stores_addChild, size_addChild.trans (size_make ..),
      store_push label kind left right fun _ => content_addChild⟩)
  | addChild p child =>
    cases child with
    | none => exact .inl ⟨rfl, rfl, rfl⟩
    | some child => exact .inl ⟨rfl, rfl, stores_addChild⟩
  | setChild p child => exact .inl ⟨rfl, rfl, stores_setChild⟩
  | setSibling i sibling => exact .inl ⟨rfl, rfl, stores_setSibling⟩
  | setParent | setLabel | setKind | setLeft | setRight => exact .inl ⟨rfl, rfl, rfl⟩
  | deleteChild p child =>
    refine .inl ⟨rfl, rfl, ?_⟩
    rw [run, Outcome.arena_map]
    rcases a.deleteChild_outcome p child with h | ⟨prev, -, hok⟩
    · rw [h.arena_eq]
    · rw [hok]
      exact stores_promote
  | foldOver i =>
    refine .inl ⟨rfl, rfl, ?_⟩
    rw [run, Outcome.arena_map]
    rcases a.foldOver_outcome i with h | ⟨p, prev, -, -, hok⟩
    · rw [h.arena_eq]
    · rw [hok]
      exact (stores_update ..).trans stores_promote
  | foldUnder i =>
    refine .inl ⟨rfl, rfl, ?_⟩
    rw [run, Outcome.arena_map]
    rcases a.foldUnder_outcome i with h | ⟨p, prev, -, -, hok⟩
    · rw [h.arena_eq]
    · rw [hok]
      exact stores_promote
  | gather i label => exact .inl ⟨rfl, rfl, stores_gather a i label⟩
  | gatherWithSiblings i label siblings =>
    refine .inl ⟨rfl, rfl, ?_⟩
    rw [run, Outcome.arena_map]
    rcases a.gatherWithSiblings_outcome i label siblings with h | ⟨after, -, hok⟩
    · rw [h.arena_eq]
    · rw [hok]
      exact stores_gatherRest.trans (stores_gather a i label)
  | tear i =>
    refine .inl ⟨rfl, rfl, ?_⟩
    rw [run, Outcome.arena_map]
    rcases a.tear_outcome i with h | ⟨p, prev, -, -, hok⟩
    · rw [h.arena_eq]
    · rw [hok]
      show (a.splice p prev i none).stores = a.stores
      exact stores_splice
  | tearInto i key =>
    rw [run, Outcome.arena_map, tears]
    rcases a.tearInto_outcome i key with ⟨e, log, hno⟩ | ⟨p, prev, hp, hprev, hok⟩
    · rw [hno]
      exact .inl ⟨rfl, rfl, rfl⟩
    · have hlt : p < a.size := lt_size_of_predecessor? hprev
      have hmark := (Node.linkFree_mark.keeps_cloneSubtree (K := Set.univ) i).eq p trivial hlt
      have hstore : ((a.cloneSubtree i).2.node p).store = (a.node p).store :=
        congrArg Prod.snd hmark
      have hcopy : a.size < (a.cloneSubtree i).2.size := a.size_lt_cloneSubtree i
      have hclone : (a.cloneSubtree i).2.stores = a.stores := a.stores_cloneSubtree i
      rw [hok, hp]
      generalize (a.cloneSubtree i).2 = b at hstore hcopy hclone ⊢
      refine .inr (.inr ⟨⟨key, p, a.size⟩, rfl, rfl, hlt, ?_, ?_⟩)
      · show a.size < ((b.updateStore (b.node p).store fun store => store.insert key a.size).splice
          p prev i none).size
        rwa [size_splice]
      · show ((b.updateStore (b.node p).store fun store => store.insert key a.size).splice
          p prev i none).stores = _
        rw [stores_splice, hstore, ← hclone]
        rfl
  | insert i position key =>
    refine .inl ⟨rfl, rfl, ?_⟩
    rw [run, Outcome.arena_map]
    rcases a.insert_outcome i position key with h | ⟨stored, prev, -, -, hok⟩
    · rw [h.arena_eq]
    · rw [hok]
      exact stores_linkAfter.trans (a.stores_cloneSubtree stored)
  | clone i => exact .inl ⟨rfl, rfl, a.stores_cloneSubtree i⟩
  | apply | transform | toAst => cases hedit

/-- A command leaves the tear stores of the nodes that were there. -/
theorem store_run (hedit : c.isEdit = true) (hx : x < a.size) :
    ((c.run a).arena.node x).store = (a.node x).store :=
  congrArg Prod.snd ((origin_run hedit).eq x trivial hx)

end Command

end ParseTree
