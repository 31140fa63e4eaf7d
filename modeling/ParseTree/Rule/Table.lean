import ParseTree.Rule.Action
import ParseTree.Rule.Condition

/-!
# Rule tables

A rule is an action with the condition under which it applies. A table lists, for every label, the
rules for nodes with that label; the first rule whose condition holds is applied.

Entries are kept in the order of their labels, each label once. So two tables with the same rules
for every label and the same labels are equal, in whatever order their rules were added. A label may
have an empty list of rules, if it was read so.

## Main results

* `rulesFor_add`: adding a rule puts it behind the rules of its label and changes no other label.
* `ext_find?`: tables that list the same rules for every label are equal.
-/

namespace ParseTree

/-- An action and when to apply it. -/
structure Rule where
  when : Condition := .always
  action : Action
  deriving DecidableEq, Repr

/-- For every label, the rules that nodes with this label are tried against. -/
structure RuleTable where
  entries : List (String × List Rule) := []
  sorted : entries.Pairwise (fun x y => x.1 < y.1) := by simp
  deriving DecidableEq

namespace RuleTable

/-- Give `label` new rules in a sorted list of entries. They may depend on those that it has, if it
is in the list. -/
def alter (label : String) (f : Option (List Rule) → List Rule) :
    List (String × List Rule) → List (String × List Rule)
  | [] => [(label, f none)]
  | (k, rules) :: rest =>
    if label < k then (label, f none) :: (k, rules) :: rest
    else if label = k then (k, f (some rules)) :: rest
    else (k, rules) :: alter label f rest

private theorem key_of_mem_alter {label : String} {f : Option (List Rule) → List Rule}
    {es : List (String × List Rule)} {e : String × List Rule} (h : e ∈ alter label f es) :
    e.1 = label ∨ ∃ e' ∈ es, e'.1 = e.1 := by
  induction es with
  | nil => simp_all [alter]
  | cons x es ih =>
    obtain ⟨k, rules⟩ := x
    simp only [alter] at h
    split at h
    · rcases List.mem_cons.1 h with rfl | h
      · exact .inl rfl
      · exact .inr ⟨e, h, rfl⟩
    split at h
    · rcases List.mem_cons.1 h with rfl | h
      · exact .inr ⟨(k, rules), by simp, rfl⟩
      · exact .inr ⟨e, by simp [h], rfl⟩
    · rcases List.mem_cons.1 h with rfl | h
      · exact .inr ⟨(k, rules), by simp, rfl⟩
      · rcases ih h with h | ⟨e', he', hk⟩
        · exact .inl h
        · exact .inr ⟨e', by simp [he'], hk⟩

theorem sorted_alter (label : String) (f : Option (List Rule) → List Rule)
    {es : List (String × List Rule)} (h : es.Pairwise (fun x y => x.1 < y.1)) :
    (alter label f es).Pairwise (fun x y => x.1 < y.1) := by
  induction es with
  | nil => simp [alter]
  | cons x es ih =>
    obtain ⟨k, rules⟩ := x
    obtain ⟨hk, hes⟩ := List.pairwise_cons.1 h
    simp only [alter]
    split
    · rename_i hlt
      refine List.pairwise_cons.2 ⟨fun e he => ?_, h⟩
      rcases List.mem_cons.1 he with rfl | he
      · exact hlt
      · exact String.lt_trans hlt (hk e he)
    split
    · exact List.pairwise_cons.2 ⟨fun e he => hk e he, hes⟩
    · rename_i hnlt hne
      refine List.pairwise_cons.2 ⟨fun e he => ?_, ih hes⟩
      rcases key_of_mem_alter he with h' | ⟨e', he', hkey⟩
      · exact h' ▸ Std.lt_of_le_of_ne (String.not_lt.1 hnlt) (Ne.symm hne)
      · exact hkey ▸ hk e' he'

/-- Give one label new rules. -/
def modify (t : RuleTable) (label : String) (f : Option (List Rule) → List Rule) : RuleTable :=
  ⟨alter label f t.entries, sorted_alter label f t.sorted⟩

/-- Append a rule to the rules of a label. Earlier rules take precedence. -/
def add (t : RuleTable) (label : String) (rule : Rule) : RuleTable :=
  t.modify label fun rules => rules.getD [] ++ [rule]

/-- The table with the given lists of rules. Of two entries for a label the later one counts.
Entries are taken from the last to the first, so that sorted ones are each put at the front. -/
def ofEntries (es : List (String × List Rule)) : RuleTable :=
  es.foldr (fun e t => t.modify e.1 fun rules => rules.getD e.2) {}

/-- The rules listed for a label, if the label is in the table. -/
def find? (t : RuleTable) (label : String) : Option (List Rule) :=
  t.entries.lookup label

/-- The rules for a label, in order of precedence. -/
def rulesFor (t : RuleTable) (label : String) : List Rule :=
  (t.find? label).getD []

/-- The number of labels in the table. -/
def size (t : RuleTable) : Nat :=
  t.entries.length

/-- Whether the table has no label. -/
def isEmpty (t : RuleTable) : Bool :=
  t.entries.isEmpty

/-- The rule that applies to node `i`: the first one for its label whose condition holds. -/
def match? (t : RuleTable) (a : Arena) (i : NodeId) : Option Rule :=
  (t.rulesFor (a.node i).label).find? fun r => r.when.holds a i

/-- Apply the matching rule to node `i`. A rule that fails is reported, with the node as the attempt
left it. -/
def transform (t : RuleTable) (input : String) (a : Arena) (i : NodeId) : Arena × List Event :=
  match t.match? a i with
  | none => (a, [])
  | some rule =>
    match rule.action.apply input a i with
    | ⟨.ok _, a, log⟩ => (a, log)
    | ⟨.error e, a, log⟩ =>
      (a, log ++ [⟨.debug, "rule left the node unchanged",
        [("error", e.message), ("node", a.describe i)]⟩])

/-! ## Tables as maps -/

/-- A label before all keys has no entry. -/
theorem lookup_eq_none_of_lt {label : String} {es : List (String × List Rule)}
    (h : ∀ e ∈ es, label < e.1) : es.lookup label = none := by
  induction es with
  | nil => rfl
  | cons e es ih =>
    have hne : (label == e.1) = false :=
      beq_eq_false_iff_ne.2 fun he => String.lt_irrefl label (by simpa [← he] using h e (by simp))
    rw [List.lookup_cons, hne]
    exact ih fun e' he' => h e' (by simp [he'])

private theorem lookup_alter (label other : String) (f : Option (List Rule) → List Rule)
    {es : List (String × List Rule)} (h : es.Pairwise (fun x y => x.1 < y.1)) :
    (alter label f es).lookup other =
      if other = label then some (f (es.lookup label)) else es.lookup other := by
  induction es with
  | nil =>
    by_cases ho : other = label
    · simp [alter, ho]
    · simp [alter, ho, List.lookup_cons, beq_eq_false_iff_ne.2 ho]
  | cons e es ih =>
    obtain ⟨k, rules⟩ := e
    obtain ⟨hk, hes⟩ := List.pairwise_cons.1 h
    simp only [alter]
    split
    · rename_i hlt
      have hnone : ((k, rules) :: es).lookup label = none :=
        lookup_eq_none_of_lt fun e he => by
          rcases List.mem_cons.1 he with rfl | he
          · exact hlt
          · exact String.lt_trans hlt (hk e he)
      rw [List.lookup_cons, hnone]
      by_cases ho : other = label
      · simp [ho]
      · simp [ho, beq_eq_false_iff_ne.2 ho]
    split
    · rename_i hnlt heq
      subst heq
      by_cases ho : other = label
      · simp [ho]
      · simp [ho, List.lookup_cons, beq_eq_false_iff_ne.2 ho]
    · rename_i hnlt hne
      rw [List.lookup_cons, List.lookup_cons, ih hes, List.lookup_cons,
        beq_eq_false_iff_ne.2 hne]
      by_cases hok : other = k
      · simp [hok, Ne.symm hne]
      · simp [beq_eq_false_iff_ne.2 hok]

theorem find?_modify (t : RuleTable) (label other : String)
    (f : Option (List Rule) → List Rule) :
    (t.modify label f).find? other =
      if other = label then some (f (t.find? label)) else t.find? other :=
  lookup_alter label other f t.sorted

/-- **Adding a rule** puts it behind the rules of its label; the rules of other labels stay. -/
theorem rulesFor_add (t : RuleTable) (label other : String) (rule : Rule) :
    (t.add label rule).rulesFor other =
      if other = label then t.rulesFor other ++ [rule] else t.rulesFor other := by
  simp only [rulesFor, add, find?_modify]
  by_cases h : other = label
  · subst h; simp
  · simp [h]

private theorem entries_ext {es fs : List (String × List Rule)}
    (he : es.Pairwise (fun x y => x.1 < y.1)) (hf : fs.Pairwise (fun x y => x.1 < y.1))
    (h : ∀ label, es.lookup label = fs.lookup label) : es = fs := by
  induction es generalizing fs with
  | nil =>
    cases fs with
    | nil => rfl
    | cons f fs => obtain ⟨l, rules⟩ := f; simpa using h l
  | cons e es ih =>
    obtain ⟨k, rules⟩ := e
    obtain ⟨hk, hes⟩ := List.pairwise_cons.1 he
    cases fs with
    | nil => simpa using h k
    | cons f fs =>
      obtain ⟨l, rules'⟩ := f
      obtain ⟨hl, hfs⟩ := List.pairwise_cons.1 hf
      have hkl : k = l := by
        refine String.le_antisymm (String.not_lt.1 fun hlt => ?_) (String.not_lt.1 fun hlt => ?_)
        · have hnone : ((k, rules) :: es).lookup l = none :=
            lookup_eq_none_of_lt fun e he => by
              rcases List.mem_cons.1 he with rfl | he
              · exact hlt
              · exact String.lt_trans hlt (hk e he)
          simp [h l] at hnone
        · have hnone : ((l, rules') :: fs).lookup k = none :=
            lookup_eq_none_of_lt fun e he => by
              rcases List.mem_cons.1 he with rfl | he
              · exact hlt
              · exact String.lt_trans hlt (hl e he)
          simp [← h k] at hnone
      subst hkl
      have hrules : rules = rules' := by simpa using h k
      subst hrules
      congr 1
      refine ih hes hfs fun label => ?_
      by_cases hlab : label = k
      · subst hlab
        rw [lookup_eq_none_of_lt hk, lookup_eq_none_of_lt hl]
      · simpa [List.lookup_cons, beq_eq_false_iff_ne.2 hlab] using h label

/-- Tables that list the same rules for every label are equal. -/
theorem ext_find? {t u : RuleTable} (h : ∀ label, t.find? label = u.find? label) : t = u := by
  obtain ⟨es, he⟩ := t
  obtain ⟨fs, hf⟩ := u
  have : es = fs := entries_ext he hf h
  subst this
  rfl

end RuleTable

end ParseTree
