import ParseTree.Forest.Derivation
import ParseTree.Walk

/-!
# Commands

The operations that may change an arena, as data. A run of commands is then a list, and what every
run keeps can be stated of all lists. Each command gives the node it made or moved to, if there is
one.
-/

namespace ParseTree

/-- An operation on an arena. -/
inductive Command where
  | make (label : String) (kind : Kind) (left right : Nat)
  | makeSymbol (symbols : SymbolTable) (label left right : Nat)
  | push (parent : NodeId) (label : String) (kind : Kind) (left right : Nat)
  | addChild (parent : NodeId) (child : Option NodeId)
  | setChild (parent : NodeId) (child : Option NodeId)
  | setSibling (i : NodeId) (sibling : Option NodeId)
  | setParent (i : NodeId) (parent : Option NodeId)
  | deleteChild (parent child : NodeId)
  | setLabel (i : NodeId) (label : String)
  | setKind (i : NodeId) (kind : Kind)
  | setLeft (i : NodeId) (left : Nat)
  | setRight (i : NodeId) (right : Nat)
  | foldOver (i : NodeId)
  | foldUnder (i : NodeId)
  | gather (i : NodeId) (label : String)
  | gatherWithSiblings (i : NodeId) (label : String) (siblings : List NodeId)
  | tear (i : NodeId)
  | tearInto (i : NodeId) (key : String)
  | insert (i : NodeId) (position : Nat) (key : String)
  | clone (i : NodeId)
  | apply (action : Action) (i : NodeId) (input : String)
  | transform (rules : RuleTable) (i : NodeId) (input : String)
  | toAst (rules : RuleTable) (root : NodeId) (input : String)
  deriving DecidableEq

namespace Command

/-- The outcome of an operation that always succeeds and gives a node. -/
private def made (r : NodeId × Arena) : Outcome (Option NodeId) :=
  .ok r.2 (some r.1)

/-- The outcome of an operation that always succeeds and gives nothing. -/
private def done (a : Arena) : Outcome (Option NodeId) :=
  .ok a none

/-- Carry out a command. -/
def run (c : Command) (a : Arena) : Outcome (Option NodeId) :=
  match c with
  | .make label kind left right => made (a.make label kind left right)
  | .makeSymbol symbols label left right => made (a.makeSymbol symbols label left right)
  | .push parent label kind left right => made (a.push parent label kind left right)
  | .addChild parent (some child) => done (a.addChild parent child)
  | .addChild _ none => done a
  | .setChild parent child => done (a.setChild parent child)
  | .setSibling i sibling => done (a.setSibling i sibling)
  | .setParent i parent => done (a.setParent i parent)
  | .deleteChild parent child => (a.deleteChild parent child).map fun _ => none
  | .setLabel i label => done (a.setLabel i label)
  | .setKind i kind => done (a.setKind i kind)
  | .setLeft i left => done (a.setLeft i left)
  | .setRight i right => done (a.setRight i right)
  | .foldOver i => (a.foldOver i).map fun _ => none
  | .foldUnder i => (a.foldUnder i).map fun _ => none
  | .gather i label => made (a.gather i label)
  | .gatherWithSiblings i label siblings => (a.gatherWithSiblings i label siblings).map some
  | .tear i => (a.tear i).map fun _ => none
  | .tearInto i key => (a.tearInto i key).map fun _ => none
  | .insert i position key => (a.insert i position key).map some
  | .clone i => made (a.cloneSubtree i)
  | .apply action i input => (action.apply input a i).map some
  | .transform rules i input =>
    let (a, log) := rules.transform input a i
    ⟨.ok none, a, log⟩
  | .toAst rules root input =>
    let w := walk (Scheme.ofTable rules) input a root ()
    ⟨.ok (some root), w.arena, w.log.toList⟩

/-- The arena after a list of commands, which goes on after a command that fails. -/
def runAll (cs : List Command) (a : Arena) : Arena :=
  cs.foldl (fun a c => (c.run a).arena) a

@[simp] theorem runAll_nil (a : Arena) : runAll [] a = a := rfl

@[simp] theorem runAll_cons (c : Command) (cs : List Command) (a : Arena) :
    runAll (c :: cs) a = runAll cs (c.run a).arena := rfl

theorem runAll_append (cs ds : List Command) (a : Arena) :
    runAll (cs ++ ds) a = runAll ds (runAll cs a) := by
  simp [runAll]

end Command

end ParseTree
