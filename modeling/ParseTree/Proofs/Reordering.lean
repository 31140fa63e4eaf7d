import Mathlib.Data.List.Forall2
import Mathlib.Data.List.Permutation
import ParseTree.Rule.Notation

/-!
# Tables are read back in any order of fields

The fields of an object have no order, and whoever writes a table goes through its labels in an
order of his own. So a table must be read back from every reordering of what is written for it, and
not only from the one value that `RuleTable.toJson` lists. Two things could go wrong: a reader could
depend on the field that comes first, as readers of rules and of edits with two arguments might, and
entries for different labels could get into each other's way.

The readers are taken one after the other, in the way in which they call each other. What is written
below a table has at most two fields in an object, so the orders are tried out by cases; the entries
of a table are permuted, and since no label occurs twice, looking a label up does not see it.

## Main results

* `Action.ofJson?_reordered`, `Rule.ofJson?_reordered`: what is written for an action or a rule is
  read back in any order.
* `RuleTable.written_read_back`: the same for whole tables.
-/

namespace ParseTree

namespace Json

mutual

/-- **The same value**, with the fields of its objects in any order, at every depth. -/
inductive Reordered : Json → Json → Prop
  | null : Reordered .null .null
  | bool (b : Bool) : Reordered (.bool b) (.bool b)
  | int (i : Int) : Reordered (.int i) (.int i)
  | fraction : Reordered .fraction .fraction
  | str (s : String) : Reordered (.str s) (.str s)
  | arr {items items' : List Json} :
      List.Forall₂ Reordered items items' → Reordered (.arr items) (.arr items')
  | obj {fields fields' fields'' : List (String × Json)} :
      List.Forall₂ ReorderedField fields fields' → fields'.Perm fields'' →
      Reordered (.obj fields) (.obj fields'')

/-- The same key, and the same value but for the order of fields. -/
inductive ReorderedField : String × Json → String × Json → Prop
  | field (key : String) {value value' : Json} :
      Reordered value value' → ReorderedField (key, value) (key, value')

end

mutual

theorem Reordered.refl : ∀ j : Json, j.Reordered j
  | .null => .null
  | .bool b => .bool b
  | .int i => .int i
  | .fraction => .fraction
  | .str s => .str s
  | .arr items => .arr (Reordered.refl_items items)
  | .obj fields => .obj (Reordered.refl_fields fields) (.refl fields)

theorem Reordered.refl_items : ∀ items : List Json, List.Forall₂ Reordered items items
  | [] => .nil
  | j :: js => .cons (Reordered.refl j) (Reordered.refl_items js)

theorem Reordered.refl_fields :
    ∀ fields : List (String × Json), List.Forall₂ ReorderedField fields fields
  | [] => .nil
  | (key, value) :: fields =>
    .cons (.field key (Reordered.refl value)) (Reordered.refl_fields fields)

end

variable {j v w : Json} {k l s : String} {items : List Json} {labels : List String}

theorem reordered_str (h : (str s).Reordered j) : j = str s := by
  cases h
  rfl

theorem reordered_ofWord {n : UInt64} (h : (ofWord n).Reordered j) : j = ofWord n := by
  cases h
  rfl

theorem reordered_arr (h : (arr items).Reordered j) :
    ∃ items', j = arr items' ∧ List.Forall₂ Reordered items items' := by
  cases h with
  | arr h => exact ⟨_, rfl, h⟩

theorem reordered_ofStrings (h : (ofStrings labels).Reordered j) : j = ofStrings labels := by
  obtain ⟨items', rfl, hitems⟩ := reordered_arr h
  rw [ofStrings]
  congr 1
  clear h
  induction labels generalizing items' with
  | nil => exact List.forall₂_nil_left_iff.mp hitems
  | cons label labels ih =>
    obtain ⟨item, rest, hitem, hrest, rfl⟩ := List.forall₂_cons_left_iff.mp hitems
    rw [reordered_str hitem, ih rest hrest, List.map_cons]

/-- An object with one field has one order. -/
theorem reordered_single (h : (obj [(k, v)]).Reordered j) :
    ∃ v', v.Reordered v' ∧ j = obj [(k, v')] := by
  cases h with
  | obj hfields hperm =>
    obtain ⟨f, fs, hf, hfs, rfl⟩ := List.forall₂_cons_left_iff.mp hfields
    obtain rfl := List.forall₂_nil_left_iff.mp hfs
    obtain rfl := List.singleton_perm.mp hperm
    cases hf with
    | field _ hv => exact ⟨_, hv, rfl⟩

/-- An object with two fields has two orders. -/
theorem reordered_pair (h : (obj [(k, v), (l, w)]).Reordered j) :
    ∃ v' w', v.Reordered v' ∧ w.Reordered w' ∧
      (j = obj [(k, v'), (l, w')] ∨ j = obj [(l, w'), (k, v')]) := by
  cases h with
  | obj hfields hperm =>
    obtain ⟨f, fs, hf, hfs, rfl⟩ := List.forall₂_cons_left_iff.mp hfields
    obtain ⟨g, gs, hg, hgs, rfl⟩ := List.forall₂_cons_left_iff.mp hfs
    obtain rfl := List.forall₂_nil_left_iff.mp hgs
    cases hf with
    | field _ hv =>
    cases hg with
    | field _ hw =>
    refine ⟨_, _, hv, hw, ?_⟩
    rcases List.pair_perm.mp hperm with rfl | rfl
    · exact .inl rfl
    · exact .inr rfl

theorem reordered_single_str (h : (obj [(k, str s)]).Reordered j) : j = obj [(k, str s)] := by
  obtain ⟨v', hv, rfl⟩ := reordered_single h
  rw [reordered_str hv]

theorem reordered_single_ofStrings (h : (obj [(k, ofStrings labels)]).Reordered j) :
    j = obj [(k, ofStrings labels)] := by
  obtain ⟨v', hv, rfl⟩ := reordered_single h
  rw [reordered_ofStrings hv]

end Json

open Json

/-! ## Conditions and actions -/

/-- A condition has no object with two fields, and so it is written in one way. -/
theorem Condition.reordered {c : Condition} {j : Json} (h : c.toJson.Reordered j) :
    j = c.toJson := by
  cases c with
  | always => exact reordered_str h
  | parentIs labels => exact reordered_single_ofStrings h
  | parentIsNot labels => exact reordered_single_ofStrings h
  | grandparentIsNot labels => exact reordered_single_ofStrings h
  | notOnlyChild => exact reordered_str h

/-- The edits with two arguments are the ones with two orders. -/
theorem Action.ofJson?_reordered_edit {e : Edit} {j : Json} (h : e.toJson.Reordered j) :
    Action.ofJson? j = some (.edit e) := by
  have hsame (hj : j = e.toJson) : Action.ofJson? j = some (.edit e) := by
    rw [hj, Action.ofJson?_toJson_edit]
  cases e with
  | gatherWithNext label count =>
    obtain ⟨args, hargs, rfl⟩ := reordered_single h
    obtain ⟨c, t, hc, ht, horder⟩ := reordered_pair hargs
    obtain rfl := reordered_ofWord hc
    obtain rfl := reordered_str ht
    rcases horder with rfl | rfl
    · exact hsame rfl
    · simp [Action.ofJson?, Edit.ofArgument?, Edit.ofArguments?, List.lookup_cons, Json.str?]
  | insert position key =>
    obtain ⟨args, hargs, rfl⟩ := reordered_single h
    obtain ⟨k, p, hk, hp, horder⟩ := reordered_pair hargs
    obtain rfl := reordered_str hk
    obtain rfl := reordered_ofWord hp
    rcases horder with rfl | rfl
    · exact hsame rfl
    · simp [Action.ofJson?, Edit.ofArgument?, Edit.ofArguments?, List.lookup_cons, Json.str?]
  | literal => exact hsame (reordered_str h)
  | foldUnder => exact hsame (reordered_str h)
  | foldOver => exact hsame (reordered_str h)
  | tear => exact hsame (reordered_str h)
  | gather label => exact hsame (reordered_single_str h)
  | gatherWithSiblings label => exact hsame (reordered_single_str h)
  | gatherChildren label => exact hsame (reordered_single_str h)
  | gatherFirstChild label => exact hsame (reordered_single_str h)
  | tearAs key => exact hsame (reordered_single_str h)

mutual

/-- **What is written for an action is read back in any order.** -/
theorem Action.ofJson?_reordered :
    ∀ (x : Action) {j : Json}, x.toJson.Reordered j → Action.ofJson? j = some x
  | .edit _, _, h => Action.ofJson?_reordered_edit h
  | .sequence xs, j, h => by
    obtain ⟨items, hitems, rfl⟩ := reordered_single h
    obtain ⟨js, rfl, hjs⟩ := reordered_arr hitems
    simp [Action.ofJson?, Action.ofJsonAll?_reordered xs hjs]

theorem Action.ofJsonAll?_reordered :
    ∀ (xs : List Action) {js : List Json}, List.Forall₂ Reordered (Action.toJsonAll xs) js →
      Action.ofJsonAll? js = some xs
  | [], js, h => by
    rw [List.forall₂_nil_left_iff.mp h, Action.ofJsonAll?]
  | x :: xs, js, h => by
    obtain ⟨j, rest, hj, hrest, rfl⟩ := List.forall₂_cons_left_iff.mp h
    simp [Action.ofJsonAll?, Action.ofJson?_reordered x hj, Action.ofJsonAll?_reordered xs hrest]

end

/-! ## Rules -/

/-- **What is written for a rule is read back in any order**: neither field is found by its
place. -/
theorem Rule.ofJson?_reordered {r : Rule} {j : Json} (h : r.toJson.Reordered j) :
    Rule.ofJson? j = some r := by
  obtain ⟨x, c, hx, hc, horder⟩ := reordered_pair h
  have haction := Action.ofJson?_reordered r.action hx
  have hwhen : Condition.ofJson? c = some r.when := by
    rw [Condition.reordered hc, Condition.ofJson?_toJson]
  rcases horder with rfl | rfl <;> simp [Rule.ofJson?, List.lookup_cons, haction, hwhen]

/-- A list is read when each of its members is. -/
theorem mapM_eq_some_iff_forall₂ {α β : Type} {f : α → Option β} {xs : List α} {ys : List β} :
    xs.mapM f = some ys ↔ List.Forall₂ (fun x y => f x = some y) xs ys := by
  induction xs generalizing ys with
  | nil => simp [List.forall₂_nil_left_iff, eq_comm]
  | cons x xs ih =>
    simp only [List.mapM_cons, Option.bind_eq_bind, Option.bind_eq_some_iff, Option.pure_def,
      Option.some.injEq, ih, List.forall₂_cons_left_iff]
    exact ⟨fun ⟨y, hy, rest, hrest, h⟩ => ⟨y, rest, hy, hrest, h.symm⟩,
      fun ⟨y, rest, hy, hrest, h⟩ => ⟨y, hy, rest, hrest, h.symm⟩⟩

theorem Rule.ofJsonAll?_reordered {rules : List Rule} {j : Json}
    (h : (Rule.toJsonAll rules).Reordered j) : Rule.ofJsonAll? j = some rules := by
  obtain ⟨items, rfl, hitems⟩ := reordered_arr h
  rw [List.forall₂_map_left_iff] at hitems
  exact mapM_eq_some_iff_forall₂.mpr (hitems.imp fun _ _ => Rule.ofJson?_reordered).flip

/-! ## Tables -/

namespace RuleTable

/-- The field of one label is read on its own. -/
theorem entryOfJson?_reordered {e : String × List Rule} {field : String × Json}
    (h : ReorderedField (e.1, Rule.toJsonAll e.2) field) : entryOfJson? field = some e := by
  cases h with
  | field _ hv => simp [entryOfJson?, Rule.ofJsonAll?_reordered hv]

/-- Where no label occurs twice, looking one up does not depend on the order. -/
theorem lookup_perm {es es' : List (String × List Rule)} (h : (es.map Prod.fst).Nodup)
    (hperm : es.Perm es') (label : String) : es.lookup label = es'.lookup label := by
  induction hperm with
  | nil => rfl
  | cons e _ ih =>
    obtain ⟨k, rules⟩ := e
    rw [List.lookup_cons, List.lookup_cons, ih (List.nodup_cons.mp h).2]
  | swap e f es =>
    obtain ⟨k, rules⟩ := e
    obtain ⟨l, rules'⟩ := f
    have hne : l ≠ k := fun heq => (List.nodup_cons.mp h).1 (by simp [heq])
    simp only [List.lookup_cons]
    by_cases hk : label = k
    · simp [hk, beq_eq_false_iff_ne.2 hne.symm]
    · simp [beq_eq_false_iff_ne.2 hk]
  | trans hperm _ ih ih' => rw [ih h, ih' ((hperm.map Prod.fst).nodup_iff.mp h)]

/-- **Every table is read back from what is written for it**, in whatever order the fields of the
objects stand there: neither the labels of the table, nor the two fields of a rule, nor the
arguments of an edit are found by their place, at any depth of nested sequences. -/
theorem written_read_back (t : RuleTable) :
    ofJson? t.toJson = some t ∧ ∀ j, t.toJson.Reordered j → ofJson? j = some t := by
  have hread : ∀ j, t.toJson.Reordered j → ofJson? j = some t := by
    intro j h
    cases h with
    | obj hfields hperm =>
      rw [List.forall₂_map_left_iff] at hfields
      obtain ⟨es, hes, hp⟩ := List.perm_comp_forall₂ hperm.symm
        (hfields.imp fun _ _ => entryOfJson?_reordered).flip
      have hnodup : (es.map Prod.fst).Nodup := (hp.map Prod.fst).nodup_iff.mpr t.nodup_labels
      have ht : ofEntries es = t := ext_find? fun label => by
        rw [find?_ofEntries hnodup, lookup_perm hnodup hp, find?]
      rw [ofJson?, mapM_eq_some_iff_forall₂.mpr hes, Option.map_some, ht]
  exact ⟨hread _ (.refl _), hread⟩

end RuleTable

end ParseTree
