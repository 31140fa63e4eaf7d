import Mathlib.Data.Set.Card
import ParseTree.Proofs.Reordering

/-!
# Rule tables as lists of rules by label

A table is filled in two ways: it is read, and rules are added to it. Both are settled by what
`find?` tells of a label, since tables that tell the same of every label are equal: what was read
for the label stays in front, and the rules that were added for it follow in order. The other
additions do not matter, and so neither does how additions for different labels are mixed.

The two ways differ in one thing. A label that is added to has a rule, whereas a label may be read
with an empty list. It then counts as a label of the table, although nothing can be told from it by
its rules.

## Main results

* `RuleTable.find?_ofJson?`, `RuleTable.find?_addAll`: what reading and adding make of a label.
* `RuleTable.size_eq_ncard`, `RuleTable.isEmpty_iff`: which labels are counted.
* `RuleTable.lists_read_and_added`: the lists of a table that was read and added to, and its size.
-/

namespace ParseTree

namespace RuleTable

variable {t : RuleTable} {label : String} {adds more : List (String × Rule)}
  {fields : List (String × Json)}

/-! ## Adding -/

/-- Add rules in turn, each for its label. -/
def addAll (t : RuleTable) (adds : List (String × Rule)) : RuleTable :=
  adds.foldl (fun t e => t.add e.1 e.2) t

/-- The rules that are added for `label`, in order. -/
def rulesAdded (label : String) (adds : List (String × Rule)) : List Rule :=
  (adds.filter fun e => e.1 = label).map Prod.snd

theorem rulesFor_eq_getD (t : RuleTable) (label : String) :
    t.rulesFor label = (t.find? label).getD [] :=
  rfl

/-- **What adding makes of a label**: the rules that are added for it stand behind those that it
had, and a label for which none are added is left as it was. -/
theorem find?_addAll (t : RuleTable) (adds : List (String × Rule)) (label : String) :
    (t.addAll adds).find? label =
      if rulesAdded label adds = [] then t.find? label
      else some (t.rulesFor label ++ rulesAdded label adds) := by
  induction adds generalizing t with
  | nil => rfl
  | cons e adds ih =>
    obtain ⟨k, rule⟩ := e
    show ((t.add k rule).addAll adds).find? label = _
    have hfind : (t.add k rule).find? label =
        if label = k then some (t.rulesFor k ++ [rule]) else t.find? label := find?_modify ..
    -- the first rule is put in front of the others that are added for its label
    rw [ih, hfind, rulesFor_add]
    by_cases hk : label = k
    · subst hk
      have hadded : rulesAdded label ((label, rule) :: adds) = rule :: rulesAdded label adds := by
        simp [rulesAdded]
      by_cases hnone : rulesAdded label adds = [] <;> simp [hadded, hnone]
    · have hadded : rulesAdded label ((k, rule) :: adds) = rulesAdded label adds := by
        simp [rulesAdded, Ne.symm hk]
      simp [hadded, hk]

theorem rulesFor_addAll (t : RuleTable) (adds : List (String × Rule)) (label : String) :
    (t.addAll adds).rulesFor label = t.rulesFor label ++ rulesAdded label adds := by
  rw [rulesFor_eq_getD, find?_addAll]
  split
  · next hnone => rw [hnone, List.append_nil, rulesFor_eq_getD]
  · rfl

/-- Adding leaves no label with an empty list but those that had one and got no rule. -/
theorem find?_addAll_eq_some_nil :
    (t.addAll adds).find? label = some [] ↔
      t.find? label = some [] ∧ rulesAdded label adds = [] := by
  rw [find?_addAll]
  split
  · next hnone => exact (and_iff_left hnone).symm
  · next hsome => simp [hsome]

/-- **Additions that differ in how labels are mixed** make the same table, and no others do. -/
theorem addAll_eq_addAll_iff :
    t.addAll adds = t.addAll more ↔ ∀ label, rulesAdded label adds = rulesAdded label more := by
  constructor
  · intro h label
    have hrules := congrArg (rulesFor · label) h
    simp only [rulesFor_addAll] at hrules
    exact List.append_cancel_left hrules
  · intro h
    refine ext_find? fun label => ?_
    rw [find?_addAll, find?_addAll, h]

/-! ## Reading -/

/-- The rules that an object lists for `label`, if it has a field for it. Of two such fields the
later one counts. -/
def rulesRead? (fields : List (String × Json)) (label : String) : Option (List Rule) :=
  (fields.reverse.lookup label).bind Rule.ofJsonAll?

/-- Of two entries for a label the later one counts. -/
theorem find?_ofEntries_eq_lookup (es : List (String × List Rule)) (label : String) :
    (ofEntries es).find? label = es.reverse.lookup label := by
  induction es with
  | nil => rfl
  | cons e es ih =>
    obtain ⟨k, rules⟩ := e
    rw [ofEntries, List.foldr_cons, ← ofEntries, find?_modify, List.reverse_cons,
      List.lookup_append, ← ih]
    by_cases hk : label = k
    · subst hk
      cases (ofEntries es).find? label <;> simp
    · simp [List.lookup_cons, hk, beq_eq_false_iff_ne.2 hk]

/-- The entry of a label is read from the field of that label. -/
theorem lookup_eq_bind_lookup {es : List (String × List Rule)}
    (h : List.Forall₂ (fun field e => entryOfJson? field = some e) fields es) (label : String) :
    es.lookup label = (fields.lookup label).bind Rule.ofJsonAll? := by
  induction h with
  | nil => rfl
  | @cons field e fields es hentry _ ih =>
    obtain ⟨key, value⟩ := field
    obtain ⟨rules, hrules, rfl⟩ := Option.map_eq_some_iff.mp hentry
    by_cases hk : label = key
    · subst hk
      simp [hrules]
    · simp [List.lookup_cons, beq_eq_false_iff_ne.2 hk, ih]

/-- **What reading makes of a label**: the list that the object has for it. -/
theorem find?_ofJson? (h : ofJson? (.obj fields) = some t) (label : String) :
    t.find? label = rulesRead? fields label := by
  obtain ⟨es, hes, rfl⟩ := Option.map_eq_some_iff.mp h
  rw [find?_ofEntries_eq_lookup, rulesRead?]
  exact lookup_eq_bind_lookup
    (List.forall₂_reverse_iff.mpr (mapM_eq_some_iff_forall₂.mp hes)) label

/-- Only objects are read as tables. -/
theorem exists_fields_of_ofJson? {j : Json} (h : ofJson? j = some t) :
    ∃ fields, j = .obj fields := by
  cases j with
  | obj fields => exact ⟨fields, rfl⟩
  | _ => cases h

/-! ## Counting labels -/

theorem isSome_find?_iff : (t.find? label).isSome ↔ label ∈ t.entries.map Prod.fst := by
  rw [find?, Option.isSome_iff_ne_none, ne_eq, List.lookup_eq_none_iff]
  simp only [List.mem_map, bne_iff_ne, ne_eq, not_forall, not_not, exists_prop]
  exact exists_congr fun e => and_congr_right fun _ => eq_comm

theorem setOf_isSome_find? (t : RuleTable) :
    {l | (t.find? l).isSome} = ((t.entries.map Prod.fst).toFinset : Set String) := by
  ext l
  simp only [Set.mem_ofPred_eq, isSome_find?_iff, List.coe_toFinset]

theorem size_eq_ncard_find? (t : RuleTable) : t.size = {l | (t.find? l).isSome}.ncard := by
  rw [setOf_isSome_find?, Set.ncard_coe_finset, List.toFinset_card_of_nodup t.nodup_labels,
    List.length_map, size]

/-- **Which labels are counted**: those with a rule and those with an empty list. -/
theorem size_eq_ncard (t : RuleTable) :
    t.size = {l | t.rulesFor l ≠ []}.ncard + {l | t.find? l = some []}.ncard := by
  have hunion : {l | (t.find? l).isSome} =
      {l | t.rulesFor l ≠ []} ∪ {l | t.find? l = some []} := by
    ext l
    simp only [Set.mem_ofPred_eq, Set.mem_union, rulesFor_eq_getD]
    cases t.find? l with
    | none => simp
    | some rules => simp [or_comm, em]
  have hfinite : {l | (t.find? l).isSome}.Finite :=
    t.setOf_isSome_find? ▸ Finset.finite_toSet _
  rw [hunion, Set.finite_union] at hfinite
  rw [size_eq_ncard_find?, hunion, Set.ncard_union_eq ?_ hfinite.1 hfinite.2]
  -- a label with an empty list has no rule
  refine Set.disjoint_left.mpr fun l hrule hempty => hrule ?_
  rw [rulesFor_eq_getD, hempty]
  rfl

/-- **A table is empty** if no label has a rule or an empty list. -/
theorem isEmpty_iff :
    t.isEmpty ↔ (∀ l, t.rulesFor l = []) ∧ ∀ l, t.find? l ≠ some [] := by
  have hnone : t.isEmpty ↔ ∀ l, t.find? l = none := by
    rw [isEmpty, List.isEmpty_iff]
    constructor
    · intro h l
      rw [find?, h]
      rfl
    · intro h
      refine List.eq_nil_iff_forall_not_mem.mpr fun e he => ?_
      have hsome := isSome_find?_iff.mpr (List.mem_map_of_mem (f := Prod.fst) he)
      rw [h] at hsome
      cases hsome
  rw [hnone, ← forall_and]
  refine forall_congr' fun l => ?_
  rw [rulesFor_eq_getD]
  cases t.find? l with
  | none => simp
  | some rules => simp

/-! ## Tables that were read and added to -/

/-- **A table that was read and added to** has for each label the list that was read, and behind it
the rules that were added for the label, in order. It depends on the additions only by what they
are for each label. It counts the labels that have a rule, and besides them those that were read
with an empty list and not added to. So it is empty exactly if no label has a rule and no label was
read with an empty list. -/
theorem lists_read_and_added {j : Json} (hread : ofJson? j = some t) :
    ∃ fields, j = .obj fields ∧ ∀ adds : List (String × Rule),
      (∀ l, (t.addAll adds).rulesFor l = (rulesRead? fields l).getD [] ++ rulesAdded l adds) ∧
      (∀ more, t.addAll adds = t.addAll more ↔ ∀ l, rulesAdded l adds = rulesAdded l more) ∧
      (t.addAll adds).size = {l | (t.addAll adds).rulesFor l ≠ []}.ncard +
        {l | rulesRead? fields l = some [] ∧ rulesAdded l adds = []}.ncard ∧
      ((t.addAll adds).isEmpty ↔
        (∀ l, (t.addAll adds).rulesFor l = []) ∧ ∀ l, rulesRead? fields l ≠ some []) := by
  obtain ⟨fields, rfl⟩ := exists_fields_of_ofJson? hread
  have hfind := find?_ofJson? hread
  refine ⟨fields, rfl, fun adds => ⟨fun l => ?rules, fun more => addAll_eq_addAll_iff, ?size,
    ?empty⟩⟩
  case rules => rw [rulesFor_addAll, rulesFor_eq_getD, hfind]
  case size =>
    rw [size_eq_ncard]
    simp only [find?_addAll_eq_some_nil, hfind]
  case empty =>
    rw [isEmpty_iff]
    refine and_congr_right fun hrules => forall_congr' fun l => not_congr ?_
    -- no rule was added for a label that has none
    have hnone := hrules l
    rw [rulesFor_addAll, List.append_eq_nil_iff] at hnone
    rw [find?_addAll_eq_some_nil, hfind, and_iff_left hnone.2]

/-- A label with an empty list, and one with a rule. -/
def halfEmpty : Json :=
  .obj [("a", .arr []), ("b", .arr [.obj [("action", .str "tear")]])]

/-- Additions for a label that was read and for a new one. -/
def mixedAdds : List (String × Rule) :=
  [("b", { action := .edit .literal }), ("c", { action := .edit .foldUnder }),
    ("b", { action := .edit .foldOver })]

/-- The additions for `b` come behind the rule that was read for it, and the one for `c` may as well
be made last. Since `a` was read with an empty list, the table would not be empty without them. -/
theorem lists_read_and_added_halfEmpty :
    ∃ t, ofJson? halfEmpty = some t ∧
      (t.addAll mixedAdds).rulesFor "b" =
        [{ action := .edit .tear }, { action := .edit .literal }, { action := .edit .foldOver }] ∧
      t.addAll mixedAdds = t.addAll [mixedAdds[0], mixedAdds[2], mixedAdds[1]] ∧
      (t.addAll mixedAdds).isEmpty = false := by
  obtain ⟨t, hread⟩ := Option.isSome_iff_exists.mp (show (ofJson? halfEmpty).isSome by decide)
  obtain ⟨fields, hfields, hlists⟩ := lists_read_and_added hread
  obtain rfl := Json.obj.inj hfields
  obtain ⟨hrules, hsame, -, hempty⟩ := hlists mixedAdds
  refine ⟨t, hread, ?_, (hsame _).mpr fun l => ?_, ?_⟩
  · rw [hrules]
    decide
  · by_cases hb : "b" = l
    · subst hb
      decide
    by_cases hc : "c" = l
    · subst hc
      decide
    · simp [rulesAdded, mixedAdds, hb, hc]
  · rw [Bool.eq_false_iff, ne_eq, hempty]
    exact fun h => h.2 "a" (by decide)

/-- A label that is read with an empty list is counted, although no label has a rule. -/
theorem not_forall_size_eq_ncard_rules :
    ¬ ∀ (fields : List (String × Json)) (t : RuleTable) (adds : List (String × Rule)),
      ofJson? (.obj fields) = some t →
        (∀ l, (t.addAll adds).rulesFor l = (rulesRead? fields l).getD [] ++ rulesAdded l adds) ∧
        (∀ more, (∀ l, rulesAdded l adds = rulesAdded l more) → t.addAll adds = t.addAll more) ∧
        (t.addAll adds).size = {l | (t.addAll adds).rulesFor l ≠ []}.ncard ∧
        ((t.addAll adds).isEmpty ↔ ∀ l, (t.addAll adds).rulesFor l = []) := by
  intro h
  obtain ⟨t, hread⟩ :=
    Option.isSome_iff_exists.mp (show (ofJson? (.obj [("a", .arr [])])).isSome by decide)
  obtain ⟨hrules, -, hsize, -⟩ := h _ t [] hread
  have hfind : t.find? "a" = some [] := by
    rw [find?_ofJson? hread]
    decide
  have hnone : ∀ l, (t.addAll []).rulesFor l = [] := by
    intro l
    rw [hrules]
    by_cases hl : l = "a"
    · subst hl
      decide
    · simp [rulesRead?, rulesAdded, List.lookup_cons, beq_eq_false_iff_ne.2 hl]
  have hzero : t.size = 0 := hsize.trans (by simp [hnone])
  rw [find?, List.eq_nil_of_length_eq_zero hzero] at hfind
  cases hfind

end RuleTable

end ParseTree
