import ParseTree.Proofs.Steps

/-!
# The history of tear stores

A run determines what is in its tear stores without looking at any arena but the last. Every node
goes back, through copies of copies, to one node that was made, and nodes that go back to the same
node are those that share a tear store. What is stored under a key is the copy that the last keyed
tear made under that key, among the tears from nodes with that store.

The history of a run says which nodes were made, which were copied, and which keyed tears succeeded.
The stores of the nodes that were made are numbered in the order in which the nodes were made, which
is why two of them never share a store. The invariant `Recorded` puts this together with the rest;
one step extends it by what that step adds to the history.

## Main results

* `Recorded.step`, `recorded_runAll`: the history accounts for all nodes and all entries.
* `Command.tearStores_of_run`: every run, at every moment.
-/

namespace ParseTree

namespace Command

open Arena

variable {a : Arena} {c : Command} {cs es : List Command} {o x y : NodeId} {s : Nat} {key : String}

/-! ## What the history of a run accounts for -/

/-- Node `x` goes back to node `o`, which was made in the run, through copies of copies. -/
def IsOrigin (cs : List Command) (o x : NodeId) : Prop :=
  o ∈ history making {} cs ∧
    Relation.ReflTransGen (fun y z => (y, z) ∈ history copying {} cs) o x

/-- The last keyed tear of a run that was made under `key` from a node with store `s`. -/
def lastTearInto? (cs : List Command) (s : Nat) (key : String) : Option Tear :=
  (history tears {} cs).reverse.find? fun t =>
    t.key == key && ((runAll cs {}).node t.parent).store == s

/-- **The history accounts for the arena that a run has led to**: for its nodes, their tear stores,
and what is in the stores. -/
structure Recorded (cs : List Command) : Prop where
  links : (runAll cs {}).LinksBelow (runAll cs {}).size
  made_lt : ∀ o ∈ history making {} cs, o < (runAll cs {}).size
  store_made : (history making {} cs).map (fun o => ((runAll cs {}).node o).store) =
    List.range (runAll cs {}).stores.size
  copied : ∀ e ∈ history copying {} cs, e.1 < e.2 ∧ e.2 < (runAll cs {}).size ∧
    ((runAll cs {}).node e.2).store = ((runAll cs {}).node e.1).store
  covers : ∀ x < (runAll cs {}).size,
    x ∈ history making {} cs ∨ ∃ y, (y, x) ∈ history copying {} cs
  tears_lt : ∀ t ∈ history tears {} cs,
    t.parent < (runAll cs {}).size ∧ t.copy < (runAll cs {}).size
  storedAt?_eq : ∀ s key, (runAll cs {}).storedAt? s key = (lastTearInto? cs s key).map Tear.copy

theorem recorded_nil : Recorded [] where
  links := linksBelow_empty
  made_lt := by simp [history]
  store_made := rfl
  copied := by simp [history]
  covers x hx := absurd hx (Nat.not_lt_zero x)
  tears_lt := by simp [history]
  storedAt?_eq s key := rfl

namespace Recorded

/-- A node goes back to a node with the same tear store. -/
theorem store_eq (h : Recorded cs) (ho : IsOrigin cs o x) :
    ((runAll cs {}).node x).store = ((runAll cs {}).node o).store := by
  obtain ⟨-, ho⟩ := ho
  induction ho with
  | refl => rfl
  | tail _ hyz ih => exact (h.copied _ hyz).2.2.trans ih

/-- Every node goes back to one that was made. -/
theorem exists_origin (h : Recorded cs) (hx : x < (runAll cs {}).size) : ∃ o, IsOrigin cs o x := by
  induction x using Nat.strong_induction_on with
  | _ x ih =>
    rcases h.covers x hx with hmade | ⟨y, hyx⟩
    · exact ⟨x, hmade, .refl⟩
    · have hlt : y < x := (h.copied _ hyx).1
      obtain ⟨o, hmade, ho⟩ := ih y hlt (Nat.lt_trans hlt hx)
      exact ⟨o, hmade, ho.tail hyx⟩

/-- Nodes that were made do not share tear stores. -/
theorem made_inj (h : Recorded cs) (hx : x ∈ history making {} cs) (hy : y ∈ history making {} cs)
    (hxy : ((runAll cs {}).node x).store = ((runAll cs {}).node y).store) : x = y :=
  List.inj_on_of_nodup_map (h.store_made ▸ List.nodup_range) hx hy hxy

/-- Every node has a tear store. -/
theorem store_lt (h : Recorded cs) (hx : x < (runAll cs {}).size) :
    ((runAll cs {}).node x).store < (runAll cs {}).stores.size := by
  obtain ⟨o, ho⟩ := h.exists_origin hx
  rw [h.store_eq ho, ← List.mem_range, ← h.store_made]
  exact List.mem_map_of_mem ho.1

/-- Stored subtrees are slots. -/
theorem torn?_lt (h : Recorded cs) {i r : NodeId} (hr : r ∈ (runAll cs {}).torn? i key) :
    r < (runAll cs {}).size := by
  rw [torn?_eq_storedAt?, h.storedAt?_eq, Option.mem_def, Option.map_eq_some_iff] at hr
  obtain ⟨t, ht, rfl⟩ := hr
  exact (h.tears_lt t (List.mem_reverse.mp (List.mem_of_find?_eq_some ht))).2

/-- A step numbers the store of the node that it makes. -/
theorem store_made_step (h : Recorded cs) (hc : IsStep (runAll cs {}) c) :
    (history making {} (cs ++ [c])).map (fun o => ((runAll (cs ++ [c]) {}).node o).store) =
      List.range (runAll (cs ++ [c]) {}).stores.size := by
  have hold : (history making {} cs).map
      (fun o => ((c.run (runAll cs {})).arena.node o).store) =
        List.range (runAll cs {}).stores.size := by
    rw [← h.store_made]
    exact List.map_congr_left fun o ho => store_run hc.1 (h.made_lt o ho)
  rw [history_snoc, runAll_snoc, List.map_append, hold]
  rcases stores_run (a := runAll cs {}) hc.1 with
    ⟨hmake, -, hstores⟩ | ⟨hmake, -, hstores, -, hstore⟩ | ⟨t, hmake, -, -, -, hstores⟩
  · rw [hmake, hstores, List.map_nil, List.append_nil]
  · rw [hmake, hstores, Array.size_push, List.range_succ, List.map_singleton, hstore]
  · rw [hmake, hstores, Array.size_modify, List.map_nil, List.append_nil]

/-- A step that is a keyed tear is the last one for its key and the store that it writes to. -/
theorem storedAt?_step (h : Recorded cs) (hc : IsStep (runAll cs {}) c) (s : Nat) (key : String) :
    (runAll (cs ++ [c]) {}).storedAt? s key = (lastTearInto? (cs ++ [c]) s key).map Tear.copy := by
  have hold : (history tears {} cs).reverse.find? (fun t => t.key == key &&
      ((c.run (runAll cs {})).arena.node t.parent).store == s) = lastTearInto? cs s key :=
    List.find?_congr fun t ht => by
      rw [store_run hc.1 (h.tears_lt t (List.mem_reverse.mp ht)).1]
  rw [lastTearInto?, history_snoc, runAll_snoc, List.reverse_append, List.find?_append, hold]
  rcases stores_run (a := runAll cs {}) hc.1 with
    ⟨-, htears, hstores⟩ | ⟨-, htears, hstores, -⟩ | ⟨t, -, htears, hlt, -, hstores⟩
  · rw [htears, storedAt?_of_stores_eq hstores, h.storedAt?_eq]
    rfl
  · rw [htears, storedAt?_of_stores_push hstores, h.storedAt?_eq]
    rfl
  · rw [htears, storedAt?_of_stores_modify hstores, h.storedAt?_eq, List.reverse_singleton,
      List.find?_singleton, store_run hc.1 hlt]
    by_cases hentry : ((runAll cs {}).node t.parent).store = s ∧ t.key = key
    · obtain ⟨rfl, rfl⟩ := hentry
      simp [h.store_lt hlt]
    · have hother : ¬ (t.key == key && ((runAll cs {}).node t.parent).store == s) = true := by
        simpa [and_comm] using hentry
      rw [if_neg fun hwrite => hentry ⟨hwrite.1, hwrite.2.2.symm⟩, if_neg hother, Option.none_or]

/-- **One step.** -/
theorem step (h : Recorded cs) (hc : IsStep (runAll cs {}) c) : Recorded (cs ++ [c]) := by
  obtain ⟨hcopied, hcovers⟩ := copying_run h.links (fun i key r hr => h.torn?_lt hr) hc
  have hlinks := linksBelow_run h.links hc
  have hle : (runAll cs {}).size ≤ (c.run (runAll cs {})).arena.size := (origin_run hc.1).size_le
  have hup {x : NodeId} (hx : x < (runAll cs {}).size) : x < (c.run (runAll cs {})).arena.size :=
    Nat.lt_of_lt_of_le hx hle
  constructor
  case links => rwa [runAll_snoc]
  case store_made => exact h.store_made_step hc
  case storedAt?_eq => exact h.storedAt?_step hc
  all_goals simp only [history_snoc, runAll_snoc, List.forall_mem_append]
  case made_lt =>
    refine ⟨fun o ho => hup (h.made_lt o ho), fun o ho => ?_⟩
    rcases stores_run (a := runAll cs {}) hc.1 with
      ⟨hmake, -⟩ | ⟨hmake, -, -, hsize, -⟩ | ⟨t, hmake, -⟩
    · simp [hmake] at ho
    · rw [hmake, List.mem_singleton] at ho
      rw [ho, hsize]
      exact Nat.lt_succ_self _
    · simp [hmake] at ho
  case copied =>
    refine ⟨fun e he => ?_, fun e he => ?_⟩
    · obtain ⟨hlt, hsize, hstore⟩ := h.copied e he
      refine ⟨hlt, hup hsize, ?_⟩
      rw [store_run hc.1 hsize, store_run hc.1 (Nat.lt_trans hlt hsize), hstore]
    · obtain ⟨hsrc, hnew, hsize, hstore⟩ := hcopied e he
      exact ⟨Nat.lt_of_lt_of_le hsrc hnew, hsize, hstore.trans (store_run hc.1 hsrc).symm⟩
  case covers =>
    intro x hx
    rcases Nat.lt_or_ge x (runAll cs {}).size with hlt | hge
    · exact (h.covers x hlt).imp (List.mem_append_left _) fun ⟨y, hy⟩ =>
        ⟨y, List.mem_append_left _ hy⟩
    · exact (hcovers x hge hx).imp (List.mem_append_right _) fun ⟨y, hy⟩ =>
        ⟨y, List.mem_append_right _ hy⟩
  case tears_lt =>
    refine ⟨fun t ht => (h.tears_lt t ht).imp hup hup, fun t ht => ?_⟩
    rcases stores_run (a := runAll cs {}) hc.1 with
      ⟨-, htears, -⟩ | ⟨-, htears, -⟩ | ⟨t', -, htears, hparent, hcopy, -⟩
    · simp [htears] at ht
    · simp [htears] at ht
    · rw [htears, List.mem_singleton] at ht
      exact ht ▸ ⟨hup hparent, hcopy⟩

end Recorded

/-- **A run** of steps is accounted for by its history. -/
theorem recorded_runAll (h : InTurn IsStep {} cs) : Recorded cs := by
  induction cs using List.reverseRecOn with
  | nil => exact recorded_nil
  | append_singleton cs c ih =>
    obtain ⟨hcs, hc, -⟩ := inTurn_append.mp h
    exact (ih hcs).step hc

/-- The last keyed tear of a run that was made under `key` from a node that shares the tear store of
`i`. -/
def lastTear? (cs : List Command) (i : NodeId) (key : String) : Option Tear :=
  (history tears {} cs).reverse.find? fun t =>
    t.key == key && (runAll cs {}).sharesStore t.parent i

/-- **Tear stores are last-writer maps, one for each node that was made.** A run of commands that
are given slots takes steps, and these leave what the run leaves. At every moment between two steps
each node goes back, through copies of copies, to exactly one node that was made, and two nodes
share a tear store if and only if they go back to the same one. What a node finds under a key is the
copy that the last keyed tear under that key has made, among those that tore a node from a parent
with the tear store of the node; if there was none, it finds nothing. The next step changes no store
that is there unless it is such a tear, and no store at all if it fails. -/
theorem tearStores_of_run (h : InTurn InRange {} cs) :
    runAll (history steps {} cs) {} = runAll cs {} ∧
      ∀ ds es, history steps {} cs = ds ++ es →
        let a := runAll ds {}
        (∀ x < a.size, ∃! o, IsOrigin ds o x) ∧
        (∀ x < a.size, ∀ y < a.size,
          a.sharesStore x y = true ↔ ∃ o, IsOrigin ds o x ∧ IsOrigin ds o y) ∧
        (∀ i key, a.torn? i key = (lastTear? ds i key).map Tear.copy) ∧
        ∀ c ∈ es.head?,
          (c.tears a = [] → ∀ s < a.stores.size, (c.run a).arena.stores[s]? = a.stores[s]?) ∧
          ∀ e, (c.run a).result = .error e → (c.run a).arena.stores = a.stores := by
  refine ⟨runAll_history_steps cs {}, fun ds es hsteps => ?_⟩
  have hturn : InTurn IsStep {} (ds ++ es) := hsteps ▸ inTurn_history_steps linksBelow_empty h
  obtain ⟨hds, hes⟩ := inTurn_append.mp hturn
  have hrec := recorded_runAll hds
  intro a
  have hunique {x y o o' : NodeId} (ho : IsOrigin ds o x) (ho' : IsOrigin ds o' y)
      (hxy : (a.node x).store = (a.node y).store) : o = o' :=
    hrec.made_inj ho.1 ho'.1 ((hrec.store_eq ho).symm.trans (hxy.trans (hrec.store_eq ho')))
  refine ⟨fun x hx => ?_, fun x hx y hy => ?_, fun i key => ?_, fun c hc => ?_⟩
  · obtain ⟨o, ho⟩ := hrec.exists_origin hx
    exact ⟨o, ho, fun o' ho' => hunique ho' ho rfl⟩
  · rw [sharesStore, beq_iff_eq]
    constructor
    · intro hxy
      obtain ⟨o, ho⟩ := hrec.exists_origin hx
      obtain ⟨o', ho'⟩ := hrec.exists_origin hy
      exact ⟨o, ho, hunique ho ho' hxy ▸ ho'⟩
    · rintro ⟨o, ho, ho'⟩
      exact (hrec.store_eq ho).trans (hrec.store_eq ho').symm
  · exact hrec.storedAt?_eq (a.node i).store key
  · obtain ⟨es, rfl⟩ := List.head?_eq_some_iff.mp hc
    have hedit : c.isEdit = true := hes.1.1
    refine ⟨fun hno s hs => ?_, fun e he => by rw [arena_of_error hedit he]⟩
    rcases stores_run (a := a) hedit with ⟨-, -, hstores⟩ | ⟨-, -, hstores, -⟩ | ⟨t, -, htears, -⟩
    · rw [hstores]
    · rw [hstores, Array.getElem?_push, if_neg (Nat.ne_of_lt hs)]
    · simp [htears] at hno

/-- A leaf is torn from an inner node. The root is gathered, which puts a copy of it between it and
its children, and two more nodes are torn from the copy, the second by a rule action. A fold of the
root fails. -/
def tearsBelowCopy : List Command :=
  [.make "r" .nonTerminal 0 3, .push 0 "x" .nonTerminal 0 2, .push 1 "y" .terminal 0 1,
    .push 0 "z" .terminal 2 3, .tearInto 2 "k", .gather 0 "g", .tearInto 1 "k", .foldOver 0,
    .apply (.edit (.tearAs "k")) 3 ""]

/-- What the root finds was torn from its copy. -/
theorem torn?_tearsBelowCopy :
    InTurn InRange {} tearsBelowCopy ∧ (runAll tearsBelowCopy {}).sharesStore 0 5 = true ∧
      (runAll tearsBelowCopy {}).torn? 0 "k" = some 7 ∧
      (runAll tearsBelowCopy {}).torn? 1 "k" = some 4 := by
  have hturn : InTurn InRange {} tearsBelowCopy := by decide
  obtain ⟨hrun, hall⟩ := tearStores_of_run hturn
  obtain ⟨-, hshares, htorn, -⟩ := hall _ [] (List.append_nil _).symm
  have hlast : lastTear? (history steps {} tearsBelowCopy) 0 "k" = some ⟨"k", 5, 7⟩ := by decide
  have hlast' : lastTear? (history steps {} tearsBelowCopy) 1 "k" = some ⟨"k", 1, 4⟩ := by decide
  rw [hrun] at hshares htorn
  refine ⟨hturn, (hshares 0 (by decide) 5 (by decide)).mpr ⟨0, ?_, ?_⟩, ?_, ?_⟩
  · exact ⟨by decide, .refl⟩
  · exact ⟨by decide, .single (by decide)⟩
  · rw [htorn, hlast, Option.map_some]
  · rw [htorn, hlast', Option.map_some]

end Command

end ParseTree
