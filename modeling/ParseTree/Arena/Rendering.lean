import ParseTree.Arena.Siblings

/-!
# Tree strings

A subtree is drawn as its label followed by its children in parentheses. A node with one child that
is not an epsilon node keeps that child on its line; otherwise each child gets a line of its own,
with two blanks of indentation per level. Epsilon nodes are left out with all that is below them.
Terminals are quoted by kind, and the sentinel for the end of the stream is drawn as `ambig`.

A drawing is made with a stack of what is still to be drawn. When a node is taken off, its label is
drawn, and then its closing parenthesis goes onto the stack and its children on top of it. A node
that is still on the stack is told its level and whether it begins a line, and a closing parenthesis
whether the children in front of it stayed on the line.

## Main results

* `drawRound_childless`, `drawRound_enter`, `drawRound_leave`: the equations of a round, that of a
  node with children on its list of children.
-/

namespace ParseTree

/-- The label of the sentinel that ends the token stream. -/
def endOfStream : String := " EOS $"

/-- The mark put before a label, by kind. -/
def Kind.openingMark : Kind → String
  | .caseInsensitiveTerminal => "\""
  | .caseSensitiveTerminal => "'"
  | .characterTerminal => "`"
  | _ => ""

/-- The mark put after a label, by kind. -/
def Kind.closingMark : Kind → String
  | .caseInsensitiveTerminal => "\""
  | .caseSensitiveTerminal => "'"
  | _ => ""

/-- A label as it is drawn. -/
def Node.drawnLabel (n : Node) : String :=
  n.kind.openingMark ++ (if n.label = endOfStream then "ambig" else n.label) ++ n.kind.closingMark

/-- End the line and indent the next one by `depth` levels. -/
def newLine (out : String) (depth : Nat) : String :=
  (out.push '\n').pushn ' ' (2 * depth)

/-- Begin what is drawn for a node or a closing parenthesis, on a line of its own or not. -/
def startAt (out : String) (depth : Nat) (ownLine : Bool) : String :=
  if ownLine then newLine out depth else out

/-- What is still to be drawn: a node with what is below it, or the closing parenthesis of one. -/
inductive Pending where
  | enter (i : NodeId) (depth : Nat) (ownLine : Bool)
  | leave (depth : Nat) (inline : Bool)
  deriving DecidableEq, Repr

/-- The state of a drawing. -/
structure Drawing where
  /-- What is still to be drawn, first things first. -/
  stack : List Pending
  /-- What has been drawn. -/
  out : String

namespace Arena

/-- Whether a node is drawn. -/
def isShown (a : Arena) (i : NodeId) : Bool :=
  (a.node i).kind != .epsilon

/-- Whether the children of a node whose first child is `first` stay on its line. -/
def drawsInline (a : Arena) (first : NodeId) : Bool :=
  a.isShown first && (a.node first).nextSibling.isNone

/-- Put a child onto the stack if it is drawn. -/
def pushShown (a : Arena) (depth : Nat) (ownLine : Bool) (stack : List Pending) (child : NodeId) :
    List Pending :=
  if a.isShown child then .enter child depth ownLine :: stack else stack

/-- One round of drawing. An empty stack stays as it is. -/
def drawRound (a : Arena) : Drawing → Drawing
  | ⟨[], out⟩ => ⟨[], out⟩
  | ⟨.enter i depth ownLine :: stack, out⟩ =>
    let out := startAt out depth ownLine ++ (a.node i).drawnLabel
    match (a.node i).firstChild with
    | none => ⟨stack, out⟩
    | some first =>
      let inline := a.drawsInline first
      -- put on in order, the last child is on top, so the list is turned round
      let children := a.foldChain (a.pushShown (depth + 1) (!inline)) a.size (some first) []
      ⟨children.reverse ++ .leave depth inline :: stack, out.push '('⟩
  | ⟨.leave depth inline :: stack, out⟩ => ⟨stack, (startAt out depth (!inline)).push ')'⟩

/-- What has been drawn after at most `n` rounds. -/
def drawPending (a : Arena) : Nat → Drawing → String
  | 0, d => d.out
  | n + 1, d => if d.stack.isEmpty then d.out else a.drawPending n (a.drawRound d)

/-- The drawing of the subtree at `i`, empty for an epsilon node. Every node is entered once and
left once; the surplus is for links that a caller has damaged. -/
def treeString (a : Arena) (i : NodeId) : String :=
  if a.isShown i then a.drawPending (surplus + 2 * a.size) ⟨[.enter i 0 false], ""⟩ else ""

/-! ## The rounds -/

section Rounds

variable {a : Arena} {i first : NodeId}

theorem drawRound_childless (h : (a.node i).firstChild = none) (depth : Nat) (ownLine : Bool)
    (stack : List Pending) (out : String) :
    a.drawRound ⟨.enter i depth ownLine :: stack, out⟩ =
      ⟨stack, startAt out depth ownLine ++ (a.node i).drawnLabel⟩ := by
  rw [drawRound, h]

theorem foldl_pushShown (a : Arena) (depth : Nat) (ownLine : Bool) (l : List NodeId)
    (stack : List Pending) :
    l.foldl (a.pushShown depth ownLine) stack =
      ((l.filter a.isShown).map fun c => .enter c depth ownLine).reverse ++ stack := by
  induction l generalizing stack with
  | nil => rfl
  | cons c l ih =>
    rw [List.foldl_cons, ih, pushShown, List.filter_cons]
    split <;> simp

/-- **A node with children** puts those that are shown onto the stack, and its closing parenthesis
below them. -/
theorem drawRound_enter (h : (a.node i).firstChild = some first) (depth : Nat) (ownLine : Bool)
    (stack : List Pending) (out : String) :
    a.drawRound ⟨.enter i depth ownLine :: stack, out⟩ =
      ⟨((a.children i).filter a.isShown).map
          (fun c => .enter c (depth + 1) (!a.drawsInline first)) ++
        .leave depth (a.drawsInline first) :: stack,
        (startAt out depth ownLine ++ (a.node i).drawnLabel).push '('⟩ := by
  rw [drawRound, h, children, h]
  simp only [foldChain_eq_foldl, foldl_pushShown, List.append_nil, List.reverse_reverse]

theorem drawRound_leave (a : Arena) (depth : Nat) (inline : Bool) (stack : List Pending)
    (out : String) :
    a.drawRound ⟨.leave depth inline :: stack, out⟩ =
      ⟨stack, (startAt out depth (!inline)).push ')'⟩ := rfl

end Rounds

end Arena

end ParseTree
