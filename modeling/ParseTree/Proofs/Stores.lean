import ParseTree.Proofs.Originals

/-!
# Tear stores in a run

A node never changes its tear store, and a copy shares the store of the node that it was made from.
So what was stored under a key can be found from every node that shares the store. An entry lasts
until a keyed tear replaces it: no other operator writes to a store that is there. What a command
does to nodes and stores was said already, so that nothing has to be looked at here but the stores.

## Main results

* `WellFormed.root_of_storedAt?`: stored subtrees are trees of the arena.
* `Command.runAll_hasStores`: every node of a run has a tear store.
* `Command.storedAt?_run`, `Command.storedAt?_runAll`: a command, or a run, that does not tear under
  a key into a store leaves the entry alone.
-/

namespace ParseTree

namespace Arena

variable {a b : Arena} {key : String} {s stored : Nat}

/-! ## Entries -/

/-- What is stored under `key` in the tear store with index `s`. -/
def storedAt? (a : Arena) (s : Nat) (key : String) : Option NodeId :=
  (a.stores.getD s {}).find? key

theorem torn?_eq_storedAt? (a : Arena) (i : NodeId) (key : String) :
    a.torn? i key = a.storedAt? (a.node i).store key :=
  rfl

theorem storedAt?_of_stores_eq (h : b.stores = a.stores) (s : Nat) (key : String) :
    b.storedAt? s key = a.storedAt? s key := by
  rw [storedAt?, storedAt?, h]

/-- A new store is empty. -/
theorem storedAt?_of_stores_push (h : b.stores = a.stores.push {}) (s : Nat) (key : String) :
    b.storedAt? s key = a.storedAt? s key := by
  simp only [storedAt?, h, Array.getD_eq_getD_getElem?, Array.getElem?_push]
  split
  · next hs => simp [hs]
  · rfl

/-- An entry is written into the store `s` under `key`, and no other entry changes. -/
theorem storedAt?_of_stores_modify {t : Nat} {other : String} {root : NodeId}
    (h : b.stores = a.stores.modify s fun store => store.insert key root) :
    b.storedAt? t other =
      if s = t ∧ s < a.stores.size ∧ other = key then some root else a.storedAt? t other := by
  simp only [storedAt?, h, Array.getD_eq_getD_getElem?, Array.getElem?_modify]
  by_cases hst : s = t
  · subst hst
    by_cases hs : s < a.stores.size
    · simp [hs, TearStore.find?_insert]
    · simp [hs]
  · simp [hst]

/-- Stored subtrees are trees of the arena. -/
theorem WellFormed.root_of_storedAt? (h : a.WellFormed) (hs : a.storedAt? s key = some stored) :
    stored < a.size ∧ (a.node stored).parent = none := by
  refine h.stored stored ?_
  rw [storedAt?, Array.getD_eq_getD_getElem?] at hs
  cases hstore : a.stores[s]? with
  | none => simp [hstore] at hs
  | some store =>
    rw [hstore, Option.getD_some, TearStore.find?] at hs
    obtain ⟨l, m, hentries, -⟩ := List.lookup_eq_some_iff.mp hs
    exact ⟨store, Array.mem_of_getElem? hstore, (key, stored), by simp [hentries], rfl⟩

/-! ## Every node has a tear store -/

/-- Every node has a tear store. -/
def HasStores (a : Arena) : Prop :=
  ∀ i < a.size, (a.node i).store < a.stores.size

theorem hasStores_empty : ({} : Arena).HasStores :=
  fun i hi => absurd hi (Nat.not_lt_zero i)

end Arena

/-! ## Runs -/

namespace Command

open Arena

variable {a : Arena} {c : Command} {cs : List Command} {s : Nat} {key : String}

/-- Whether a command is an operator that edits the arena by itself. -/
theorem isEdit_of_isOperator (h : c.isOperator = true) : c.isEdit = true := by
  cases c <;> simp_all [isOperator, isEdit]

theorem Legal.isEdit (h : Legal a cs) : ∀ c ∈ cs, c.isEdit = true := by
  induction cs generalizing a with
  | nil => simp
  | cons c cs ih =>
    intro d hd
    rcases List.mem_cons.mp hd with rfl | hd
    · exact isEdit_of_isOperator h.1.operator
    · exact ih h.2 d hd

/-- Nodes keep their tear stores in a run. -/
theorem Legal.origin_runAll (h : Legal a cs) : Keeps Node.origin Set.univ a (runAll cs a) := by
  induction cs generalizing a with
  | nil => exact .refl ..
  | cons c cs ih => exact (origin_run (isEdit_of_isOperator h.1.operator)).trans (ih h.2)

/-- A command that is admissible is given slots. -/
theorem Admissible.isStep (h : Admissible a c) : c.IsStep a :=
  ⟨isEdit_of_isOperator h.operator, h.slots⟩

/-- **One step.** Every node has a tear store, and every new one as well: it is the store of its
original, or a new store. -/
theorem run_hasStores (ha : a.WellFormed) (h : a.HasStores) (hc : Admissible a c) :
    (c.run a).arena.HasStores := by
  obtain ⟨hcopied, hcovers⟩ := copying_run ha.linked.linksBelow
    (fun _ _ _ hr => (ha.root_of_storedAt? hr).1) hc.isStep
  have hedit := hc.isStep.1
  have hle : a.stores.size ≤ (c.run a).arena.stores.size := by
    rcases stores_run (a := a) hedit with
      ⟨-, -, hstores⟩ | ⟨-, -, hstores, -⟩ | ⟨t, -, -, -, -, hstores⟩ <;> simp [hstores]
  intro x hx
  rcases Nat.lt_or_ge x a.size with hlt | hge
  · rw [store_run hedit hlt]
    exact Nat.lt_of_lt_of_le (h x hlt) hle
  rcases hcovers x hge hx with hmake | ⟨y, hy⟩
  · rcases stores_run (a := a) hedit with ⟨hno, -⟩ | ⟨hnew, -, hstores, -, hstore⟩ | ⟨t, hno, -⟩
    · simp [hno] at hmake
    · obtain rfl : x = a.size := by simpa [hnew] using hmake
      rw [hstore, hstores, Array.size_push]
      exact Nat.lt_succ_self _
    · simp [hno] at hmake
  · obtain ⟨hlt, -, -, hstore⟩ := hcopied _ hy
    rw [hstore]
    exact Nat.lt_of_lt_of_le (h y hlt) hle

/-- **Every node of a run has a tear store.** -/
theorem runAll_hasStores (ha : a.WellFormed) (h : a.HasStores) (hcs : Legal a cs) :
    (runAll cs a).HasStores := by
  induction cs generalizing a with
  | nil => exact h
  | cons c cs ih => exact ih (run_wellFormed ha hcs.1) (run_hasStores ha h hcs.1) hcs.2

/-- Whether a command tears a node under `key`, successfully, into the store with index `s`. -/
def overwrites (s : Nat) (key : String) (a : Arena) : Command → Bool
  | .tearInto i k =>
    k == key && (a.node i).parent.any (fun p => (a.node p).store == s) &&
      (a.tearInto i k).result.isOk
  | _ => false

/-- No command of the list overwrites the entry under `key` in the store with index `s` when it is
its turn. -/
def Spares (s : Nat) (key : String) : Arena → List Command → Prop
  | _, [] => True
  | a, c :: cs => overwrites s key a c = false ∧ Spares s key (c.run a).arena cs

instance decidableSpares (s : Nat) (key : String) :
    (a : Arena) → (cs : List Command) → Decidable (Spares s key a cs)
  | _, [] => .isTrue trivial
  | a, c :: cs =>
    have := decidableSpares s key (c.run a).arena cs
    inferInstanceAs (Decidable (_ ∧ _))

/-- A command overwrites an entry by a keyed tear. -/
theorem overwrites_eq_any (s : Nat) (key : String) (a : Arena) (c : Command) :
    overwrites s key a c =
      (c.tears a).any fun t => t.key == key && (a.node t.parent).store == s := by
  cases c with
  | tearInto i k =>
    simp only [overwrites, tears]
    generalize (a.tearInto i k).result.isOk = ok
    cases hp : (a.node i).parent <;> cases ok <;> simp
  | _ => rfl

/-- **One step.** A command that does not overwrite an entry leaves it alone. -/
theorem storedAt?_run (hedit : c.isEdit = true) (hno : overwrites s key a c = false) :
    (c.run a).arena.storedAt? s key = a.storedAt? s key := by
  rcases stores_run (a := a) hedit with
    ⟨-, -, hstores⟩ | ⟨-, -, hstores, -⟩ | ⟨t, -, htears, -, -, hstores⟩
  · exact storedAt?_of_stores_eq hstores s key
  · exact storedAt?_of_stores_push hstores s key
  · rw [overwrites_eq_any, htears] at hno
    rw [storedAt?_of_stores_modify hstores, if_neg]
    rintro ⟨rfl, -, rfl⟩
    simp at hno

/-- **A run** that spares an entry leaves it alone. -/
theorem storedAt?_runAll (hcs : ∀ c ∈ cs, c.isEdit = true) (hspares : Spares s key a cs) :
    (runAll cs a).storedAt? s key = a.storedAt? s key := by
  induction cs generalizing a with
  | nil => rfl
  | cons c cs ih =>
    obtain ⟨hedit, hcs⟩ := List.forall_mem_cons.mp hcs
    exact (ih hcs hspares.2).trans (storedAt?_run hedit hspares.1)

end Command

end ParseTree
