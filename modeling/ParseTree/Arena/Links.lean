import ParseTree.Arena.Siblings

/-!
# Link primitives

The operations that set links. Each keeps the four links of a node in step as far as its own
arguments go: whoever joins a child list gets its parent link, and the parent's last child is the
node at the end of the new list. None of them looks at the rest of the tree.

## Main results

* `node_adopt`: adoption changes the parent link of the adopted nodes and nothing else.
-/

namespace ParseTree

namespace Arena

/-- Point every node of a list to `parent`. -/
def adopt (a : Arena) (parent : Option NodeId) (ids : List NodeId) : Arena :=
  ids.foldl (fun a i => a.setParent i parent) a

/-- Make `child` and the chain of its right siblings the children of `parent`. The former children
keep their links. -/
def setChild (a : Arena) (parent : NodeId) (child : Option NodeId) : Arena :=
  let list := a.chain a.size child
  (a.adopt (some parent) list).update parent fun n =>
    { n with firstChild := child, lastChild := list.getLast? }

/-- Append `child` and the chain of its right siblings to the children of `parent`. -/
def addChild (a : Arena) (parent child : NodeId) : Arena :=
  match (a.node parent).lastChild with
  | none => a.setChild parent (some child)
  | some last =>
    let a := a.update last fun n => { n with nextSibling := some child }
    let list := a.chain a.size (some child)
    (a.adopt (some parent) list).update parent fun n => { n with lastChild := list.getLast? }

/-- Replace everything to the right of `i` by `sibling` and its right siblings, which become
children of the parent of `i`. -/
def setSibling (a : Arena) (i : NodeId) (sibling : Option NodeId) : Arena :=
  let parent := (a.node i).parent
  let a := a.update i fun n => { n with nextSibling := sibling }
  let list := a.chain a.size sibling
  let a := a.adopt parent list
  match parent with
  | none => a
  | some p => a.update p fun n => { n with lastChild := some (list.getLastD i) }

/-- Put the chain from `head` to `tail` where `i` stands after `prev` in the child list of `parent`,
or nothing if there is no such chain. Node `i` loses its parent and its sibling. -/
def splice (a : Arena) (parent : NodeId) (prev : Option NodeId) (i : NodeId)
    (replacement : Option (NodeId × NodeId)) : Arena :=
  let after := (a.node i).nextSibling
  let a :=
    match replacement with
    | some (_, tail) => a.update tail fun n => { n with nextSibling := after }
    | none => a
  let head :=
    match replacement with
    | some (head, _) => some head
    | none => after
  let a :=
    match prev with
    | none => a.update parent fun n => { n with firstChild := head }
    | some prev => a.update prev fun n => { n with nextSibling := head }
  let a :=
    match after with
    | none => a.update parent fun n => { n with lastChild := (replacement.map Prod.snd).or prev }
    | some _ => a
  a.update i fun n => { n with parent := none, nextSibling := none }

/-- Take `child`, which follows `prev`, out of the child list of `parent` and let its children take
its place. Node `child` is left without links. -/
def promote (a : Arena) (parent : NodeId) (prev : Option NodeId) (child : NodeId) : Arena :=
  let list := a.children child
  let a := a.adopt (some parent) list
  let replacement :=
    match list.head?, list.getLast? with
    | some head, some tail => some (head, tail)
    | _, _ => none
  (a.splice parent prev child replacement).update child fun n =>
    { n with firstChild := none, lastChild := none }

/-! ## Creation below a parent -/

/-- Make a node and append it to the children of `parent`. -/
def push (a : Arena) (parent : NodeId) (label : String) (kind : Kind) (left right : Nat) :
    NodeId × Arena :=
  let (child, a) := a.make label kind left right
  (child, a.addChild parent child)

/-- Push `n` nodes, each below the one before it, the first below `parent`, and give the lowest. -/
def pushChain (label : String) (kind : Kind) (left right : Nat) :
    Nat → Arena → NodeId → NodeId × Arena
  | 0, a, parent => (parent, a)
  | n + 1, a, parent =>
    let (child, a) := a.push parent label kind left right
    pushChain label kind left right n a child

/-- Push `n` nodes below `parent`. -/
def pushFan (label : String) (kind : Kind) (left right : Nat) : Nat → Arena → NodeId → Arena
  | 0, a, _ => a
  | n + 1, a, parent =>
    pushFan label kind left right n (a.push parent label kind left right).2 parent

/-! ## What adoption does to the nodes -/

@[simp] theorem size_setParent (a : Arena) (i : NodeId) (parent : Option NodeId) :
    (a.setParent i parent).size = a.size := by
  simp [setParent]

@[simp] theorem size_adopt (a : Arena) (parent : Option NodeId) (ids : List NodeId) :
    (a.adopt parent ids).size = a.size := by
  induction ids generalizing a with
  | nil => rfl
  | cons i ids ih => simpa [adopt] using ih (a.setParent i parent)

/-- **Adoption** changes the parent link of the adopted nodes and nothing else. -/
theorem node_adopt (a : Arena) (parent : Option NodeId) (ids : List NodeId) (j : NodeId) :
    (a.adopt parent ids).node j =
      if j ∈ ids ∧ j < a.size then { a.node j with parent } else a.node j := by
  induction ids generalizing a with
  | nil => simp [adopt]
  | cons i ids ih =>
    have h := ih (a.setParent i parent)
    simp only [adopt, List.foldl_cons] at h ⊢
    rw [h]
    simp only [setParent, node_update, size_update]
    by_cases hij : i = j
    · subst hij; by_cases hi : i < a.size <;> simp [hi]
    · simp [hij, Ne.symm hij]

end Arena

end ParseTree
