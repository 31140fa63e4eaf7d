import ParseTree.Json
import ParseTree.Rule.Table

/-!
# Rule tables as data

The written form of rule tables. A name with arguments is an object with one field, whose key is the
name; a name without arguments is a string. Reading also takes such a name as an object whose field
is null, a rule as an array of its condition and its action, and a rule without a condition.

## Main results

* `Condition.ofJson?_toJson`, `Action.ofJson?_toJson_edit`: what is written is read back.
* `RuleTable.find?_ofEntries`: a table that is read has the entries that are written.
-/

namespace ParseTree

/-! ## Conditions -/

/-- The written form of a condition. -/
def Condition.toJson : Condition → Json
  | always => .str "always"
  | parentIs labels => .obj [("parent_is", .ofStrings labels)]
  | parentIsNot labels => .obj [("parent_is_not", .ofStrings labels)]
  | grandparentIsNot labels => .obj [("grandparent_is_not", .ofStrings labels)]
  | notOnlyChild => .str "not_only_child"

/-- The conditions that take no argument, by name. -/
def Condition.plainForms : List (String × Condition) :=
  [("always", always), ("not_only_child", notOnlyChild)]

/-- The conditions that take a list of labels, by name. -/
def Condition.labelForms : List (String × (List String → Condition)) :=
  [("parent_is", parentIs), ("parent_is_not", parentIsNot),
    ("grandparent_is_not", grandparentIsNot)]

/-- Read a condition. -/
def Condition.ofJson? : Json → Option Condition
  | .str name => Condition.plainForms.lookup name
  | .obj [(name, .null)] => Condition.plainForms.lookup name
  | .obj [(name, arg)] => do return (← Condition.labelForms.lookup name) (← arg.strings?)
  | _ => none

private theorem Condition.ofJson?_labels (name : String) (labels : List String) :
    Condition.ofJson? (.obj [(name, .ofStrings labels)]) =
      (Condition.labelForms.lookup name).map (fun f => f labels) := by
  have h : (Json.ofStrings labels).strings? = some labels := Json.strings?_ofStrings labels
  cases hl : Condition.labelForms.lookup name with
  | none => simp [Json.ofStrings, ofJson?, hl]
  | some f =>
    simp only [Json.ofStrings] at h
    simp [Json.ofStrings, ofJson?, hl, h]

theorem Condition.ofJson?_toJson (c : Condition) : Condition.ofJson? c.toJson = some c := by
  cases c with
  | always => rfl
  | notOnlyChild => rfl
  | parentIs labels => exact ofJson?_labels _ labels
  | parentIsNot labels => exact ofJson?_labels _ labels
  | grandparentIsNot labels => exact ofJson?_labels _ labels

/-! ## Edits -/

/-- The written form of an edit. -/
def Edit.toJson : Edit → Json
  | literal => .str "literal"
  | foldUnder => .str "fold_under"
  | foldOver => .str "fold_over"
  | gather label => .obj [("gather", .str label)]
  | gatherWithSiblings label => .obj [("gather_with_siblings", .str label)]
  | gatherWithNext label count =>
    .obj [("gather_with_next", .obj [("count", .ofWord count), ("to", .str label)])]
  | gatherChildren label => .obj [("gather_children", .str label)]
  | gatherFirstChild label => .obj [("gather_first_child", .str label)]
  | tear => .str "tear"
  | tearAs key => .obj [("tear_as", .str key)]
  | insert position key =>
    .obj [("insert", .obj [("id", .str key), ("position", .ofWord position)])]

/-- The edits that take no argument, by name. -/
def Edit.plainForms : List (String × Edit) :=
  [("literal", literal), ("fold_under", foldUnder), ("fold_over", foldOver), ("tear", tear)]

/-- The edits that take a text, by name. -/
def Edit.textForms : List (String × (String → Edit)) :=
  [("gather", gather), ("gather_with_siblings", gatherWithSiblings),
    ("gather_children", gatherChildren), ("gather_first_child", gatherFirstChild),
    ("tear_as", tearAs)]

/-- Read the arguments of an edit that takes several. Further arguments are ignored. -/
def Edit.ofArguments? (name : String) (args : List (String × Json)) : Option Edit :=
  if name = "gather_with_next" then do
    let label ← (← args.lookup "to").str?
    let count ← (← args.lookup "count").word?
    return gatherWithNext label count
  else if name = "insert" then do
    let position ← (← args.lookup "position").word?
    let key ← (← args.lookup "id").str?
    return insert position key
  else none

/-- Read the edit with the given name and argument. -/
def Edit.ofArgument? (name : String) : Json → Option Edit
  | .null => Edit.plainForms.lookup name
  | .str text => (Edit.textForms.lookup name).map fun f => f text
  | .obj args => Edit.ofArguments? name args
  | _ => none

/-! ## Actions -/

mutual

/-- The written form of an action. -/
def Action.toJson : Action → Json
  | .edit e => e.toJson
  | .sequence actions => .obj [("sequence", .arr (Action.toJsonAll actions))]

/-- The written forms of a list of actions. -/
def Action.toJsonAll : List Action → List Json
  | [] => []
  | x :: xs => Action.toJson x :: Action.toJsonAll xs

end

mutual

/-- Read an action. -/
def Action.ofJson? : Json → Option Action
  | .str name => (Edit.plainForms.lookup name).map .edit
  | .obj [(name, .arr items)] =>
    if name = "sequence" then (Action.ofJsonAll? items).map .sequence else none
  | .obj [(name, arg)] => (Edit.ofArgument? name arg).map .edit
  | _ => none

/-- Read a list of actions. -/
def Action.ofJsonAll? : List Json → Option (List Action)
  | [] => some []
  | j :: js => do
    let x ← Action.ofJson? j
    let xs ← Action.ofJsonAll? js
    return x :: xs

end

theorem Action.ofJson?_toJson_edit (e : Edit) : Action.ofJson? e.toJson = some (.edit e) := by
  cases e with
  | gatherWithNext label count =>
    simp [Edit.toJson, Action.ofJson?, Edit.ofArgument?, Edit.ofArguments?, List.lookup_cons,
      Json.str?]
  | insert position key =>
    simp [Edit.toJson, Action.ofJson?, Edit.ofArgument?, Edit.ofArguments?, List.lookup_cons,
      Json.str?]
  | literal => rfl
  | foldUnder => rfl
  | foldOver => rfl
  | gather label => rfl
  | gatherWithSiblings label => rfl
  | gatherChildren label => rfl
  | gatherFirstChild label => rfl
  | tear => rfl
  | tearAs key => rfl

/-! ## Rules and tables -/

/-- The written form of a rule. -/
def Rule.toJson (r : Rule) : Json :=
  .obj [("action", r.action.toJson), ("when", r.when.toJson)]

/-- Read a rule. -/
def Rule.ofJson? : Json → Option Rule
  | .arr [c, x] => do return { when := ← Condition.ofJson? c, action := ← Action.ofJson? x }
  | .obj fields => do
    let when ←
      match fields.lookup "when" with
      | some c => Condition.ofJson? c
      | none => some .always
    let action ← Action.ofJson? (← fields.lookup "action")
    return { when, action }
  | _ => none

/-- The written form of a list of rules. -/
def Rule.toJsonAll (rules : List Rule) : Json :=
  .arr (rules.map Rule.toJson)

/-- Read a list of rules. -/
def Rule.ofJsonAll? (j : Json) : Option (List Rule) := do
  (← j.arr?).mapM Rule.ofJson?

namespace RuleTable

/-- The written form of a table: an object whose keys are the labels. -/
def toJson (t : RuleTable) : Json :=
  .obj (t.entries.map fun e => (e.1, Rule.toJsonAll e.2))

/-- Read the rules of one label. -/
def entryOfJson? (field : String × Json) : Option (String × List Rule) :=
  (Rule.ofJsonAll? field.2).map fun rules => (field.1, rules)

/-- Read a table. -/
def ofJson? : Json → Option RuleTable
  | .obj fields => (fields.mapM entryOfJson?).map ofEntries
  | _ => none

/-- Where no label occurs twice, the table has the listed entries, in whatever order they are. -/
theorem find?_ofEntries {es : List (String × List Rule)} (h : (es.map Prod.fst).Nodup)
    (label : String) : (ofEntries es).find? label = es.lookup label := by
  induction es with
  | nil => rfl
  | cons e es ih =>
    obtain ⟨k, rules⟩ := e
    obtain ⟨he, hes⟩ := List.nodup_cons.1 h
    rw [ofEntries, List.foldr_cons, ← ofEntries, find?_modify, List.lookup_cons]
    by_cases hl : label = k
    · subst hl
      have hnone : es.lookup label = none :=
        List.lookup_eq_none_iff.2 fun e hmem =>
          bne_iff_ne.2 fun heq => he (List.mem_map.2 ⟨e, hmem, heq.symm⟩)
      simp [ih hes, hnone]
    · simp [beq_eq_false_iff_ne.2 hl, hl, ih hes]

/-- No label occurs twice in a table. -/
theorem nodup_labels (t : RuleTable) : (t.entries.map Prod.fst).Nodup :=
  List.pairwise_map.2 (t.sorted.imp fun h => String.ne_of_lt h)

end RuleTable

end ParseTree
