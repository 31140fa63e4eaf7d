import ParseTree.Proofs.Separation

/-!
# What operators write besides links

The *content* of a node is all of it but its links. Most operators set links only. A fold over
relabels the parent, gathering relabels the node that gets the new level, and that is all.

`Keeps` says of a field that the nodes of a set have kept it. One proof for each operator serves all
fields that do not look at links: the whole content on a set of nodes that are not written to, or,
on all nodes, those parts of the content that nothing writes to.

## Main results

* `content_splice`, `content_promote`, `content_setChild`, `content_linkAfter`: the primitives set
  links only.
* `keeps_foldOver`, `keeps_gatherWithSiblings`: the operators that write more, and where.
* `Command.origin_run`: no command gives a node another identity or another tear store.
-/

namespace ParseTree

/-- What a node stands for, without its links. -/
def Node.content (n : Node) : Node :=
  n.detached n.identity

namespace Arena

variable {β : Type} {field : Node → β} {K : Set NodeId} {a b d : Arena} {i p c x : NodeId}
  {o prev : Option NodeId} {replacement : Option (NodeId × NodeId)} {l siblings : List NodeId}

/-! ## Primitives -/

theorem content_update {f : Node → Node} (hf : ∀ n, (f n).content = n.content) :
    ((a.update i f).node x).content = (a.node x).content :=
  proj_update Node.content hf

theorem content_adopt : ((a.adopt o l).node x).content = (a.node x).content :=
  proj_adopt Node.content fun _ _ => rfl

theorem content_linkFront : ((a.linkFront p prev o).node x).content = (a.node x).content := by
  cases prev <;> exact content_update fun _ => rfl

theorem content_linkBack {after : Option NodeId} :
    ((a.linkBack p after o).node x).content = (a.node x).content := by
  cases after with
  | none => exact content_update fun _ => rfl
  | some _ => rfl

theorem content_splice :
    ((a.splice p prev i replacement).node x).content = (a.node x).content := by
  cases replacement with
  | none =>
    rw [splice_none]
    refine Eq.trans (content_update fun _ => rfl) ?_
    rw [content_linkBack, content_linkFront]
  | some e =>
    rw [splice_some]
    refine Eq.trans (content_update fun _ => rfl) ?_
    rw [content_linkBack, content_linkFront]
    exact content_update fun _ => rfl

/-- **Promotion changes links only.** -/
theorem content_promote : ((a.promote p prev i).node x).content = (a.node x).content := by
  rw [promote_eq]
  refine Eq.trans (content_update fun _ => rfl) ?_
  rw [content_splice, content_adopt]

theorem content_setChild : ((a.setChild p o).node x).content = (a.node x).content := by
  unfold setChild
  refine Eq.trans (content_update fun _ => rfl) ?_
  exact content_adopt

theorem content_addChild : ((a.addChild p c).node x).content = (a.node x).content := by
  unfold addChild
  split
  · exact content_setChild
  · refine Eq.trans (content_update fun _ => rfl) ?_
    rw [content_adopt]
    exact content_update fun _ => rfl

@[simp] theorem size_setSibling : (a.setSibling i o).size = a.size := by
  unfold setSibling
  dsimp only
  split <;> simp

@[simp] theorem stores_setSibling : (a.setSibling i o).stores = a.stores := by
  unfold setSibling
  dsimp only
  split <;> simp

@[simp] theorem nextIdentity_setSibling : (a.setSibling i o).nextIdentity = a.nextIdentity := by
  unfold setSibling
  dsimp only
  split <;> simp

theorem content_setSibling : ((a.setSibling i o).node x).content = (a.node x).content := by
  have hadopt {q : Option NodeId} {l : List NodeId} :
      (((a.update i fun n => { n with nextSibling := o }).adopt q l).node x).content =
        (a.node x).content := by
    rw [content_adopt]
    exact content_update fun _ => rfl
  unfold setSibling
  dsimp only
  split
  · exact hadopt
  · refine Eq.trans (content_update fun _ => rfl) ?_
    exact hadopt

theorem content_linkAfter : ((a.linkAfter i prev c).node x).content = (a.node x).content := by
  rw [linkAfter_eq, content_linkBack]
  refine Eq.trans (content_update fun _ => rfl) ?_
  exact content_linkFront

/-! ## Fields that are kept -/

/-- **The nodes of `K` have kept a field** that they had, on the way from `a` to `b`. -/
structure Keeps (field : Node → β) (K : Set NodeId) (a b : Arena) : Prop where
  size_le : a.size ≤ b.size
  eq : ∀ x ∈ K, x < a.size → field (b.node x) = field (a.node x)

namespace Keeps

theorem refl (field : Node → β) (K : Set NodeId) (a : Arena) : Keeps field K a a :=
  ⟨Nat.le_refl _, fun _ _ _ => rfl⟩

theorem of_refused {α : Type} {outcome : Outcome α} (hno : a.Refused outcome) :
    Keeps field K a outcome.arena :=
  hno.arena_eq.symm ▸ refl field K a

theorem trans (h : Keeps field K a b) (h' : Keeps field K b d) : Keeps field K a d where
  size_le := Nat.le_trans h.size_le h'.size_le
  eq x hx hlt := (h'.eq x hx (Nat.lt_of_lt_of_le hlt h.size_le)).trans (h.eq x hx hlt)

end Keeps

/-- A field is written to nodes outside `K`, or what is written does not show in the field. -/
theorem keeps_update {f : Node → Node} (h : i ∉ K ∨ ∀ n, field (f n) = field n) :
    Keeps field K a (a.update i f) where
  size_le := Nat.le_of_eq (size_update ..).symm
  eq x hx _ := by
    rcases h with hi | hf
    · rw [node_update_of_ne f fun hix : i = x => hi (hix ▸ hx)]
    · exact proj_update field hf

theorem keeps_make (label : String) (kind : Kind) (left right : Nat) :
    Keeps field K a (a.make label kind left right).2 where
  size_le := by simp
  eq x _ hlt := by rw [node_make, if_neg (Nat.ne_of_lt hlt)]

theorem keeps_copy (i : NodeId) : Keeps field K a (a.copy i).2 where
  size_le := by simp
  eq x _ hlt := by rw [node_copy, if_neg (Nat.ne_of_lt hlt)]

end Arena

/-- A field of nodes that does not look at links. -/
def Node.LinkFree {β : Type} (field : Node → β) : Prop :=
  ∀ n : Node, field n.content = field n

namespace Node.LinkFree

open Arena

variable {β : Type} {field : Node → β} {K : Set NodeId} {a b : Arena} {i p c x : NodeId}
  {o prev : Option NodeId} {l siblings : List NodeId}

theorem eq_of_content (hf : LinkFree field) {m n : Node} (h : m.content = n.content) :
    field m = field n := by
  rw [← hf m, h, hf n]

theorem keeps (hf : LinkFree field) (hsize : b.size = a.size)
    (hb : ∀ x, (b.node x).content = (a.node x).content) : Keeps field K a b :=
  ⟨Nat.le_of_eq hsize.symm, fun x _ _ => hf.eq_of_content (hb x)⟩

/-- Links are set. -/
theorem keeps_links (hf : LinkFree field) {f : Node → Node} (h : ∀ n, (f n).content = n.content) :
    Keeps field K a (a.update i f) :=
  hf.keeps (size_update ..) fun _ => content_update h

/-! ## Operators -/

theorem keeps_promote (hf : LinkFree field) : Keeps field K a (a.promote p prev i) :=
  hf.keeps size_promote fun _ => content_promote

theorem keeps_deleteChild (hf : LinkFree field) (p c : NodeId) :
    Keeps field K a (a.deleteChild p c).arena := by
  rcases a.deleteChild_outcome p c with hno | ⟨prev, -, hok⟩
  · exact .of_refused hno
  · exact hok ▸ hf.keeps_promote

theorem keeps_foldUnder (hf : LinkFree field) (i : NodeId) :
    Keeps field K a (a.foldUnder i).arena := by
  rcases a.foldUnder_outcome i with hno | ⟨p, prev, -, -, hok⟩
  · exact .of_refused hno
  · exact hok ▸ hf.keeps_promote

/-- A fold over writes the label of the parent. -/
theorem keeps_foldOver (hf : LinkFree field)
    (h : (∀ p ∈ (a.node i).parent, p ∉ K) ∨ ∀ n label, field { n with label } = field n) :
    Keeps field K a (a.foldOver i).arena := by
  rcases a.foldOver_outcome i with hno | ⟨p, prev, hp, -, hok⟩
  · exact .of_refused hno
  · rw [hok]
    exact hf.keeps_promote.trans (keeps_update (h.imp (fun h => h p hp) fun h n => h n _))

/-- Gathering copies the node, and then it writes the label and the kind of the node. -/
theorem keeps_gather_copy (hf : LinkFree field)
    (h : i ∉ K ∨ ∀ n label kind, field { n with label, kind } = field n) (label : String) :
    Keeps field K (a.copy i).2 (a.gather i label).2 := by
  have hchild {d : Arena} {q : NodeId} {o : Option NodeId} : Keeps field K d (d.setChild q o) :=
    hf.keeps size_setChild fun _ => content_setChild
  have hlabel {d : Arena} : Keeps field K d (d.setLabel i label) :=
    keeps_update (h.imp_right fun h n => h n label n.kind)
  have hkind {d : Arena} : Keeps field K d (d.setKind i .nonTerminal) :=
    keeps_update (h.imp_right fun h n => h n n.label .nonTerminal)
  rw [gather_snd]
  exact hchild.trans (hlabel.trans (hkind.trans hchild))

theorem keeps_gather (hf : LinkFree field)
    (h : i ∉ K ∨ ∀ n label kind, field { n with label, kind } = field n) (label : String) :
    Keeps field K a (a.gather i label).2 :=
  (keeps_copy i).trans (hf.keeps_gather_copy h label)

/-- The copy that gathering makes has the fields of the node that do not tell nodes apart. -/
theorem field_gather_copy (hf : LinkFree field)
    (h : i ∉ K ∨ ∀ n label kind, field { n with label, kind } = field n)
    (hcopy : ∀ n identity, field (n.detached identity) = field n) (hK : a.size ∈ K)
    (label : String) : field ((a.gather i label).2.node a.size) = field (a.node i) := by
  have hlt : a.size < (a.copy i).2.size := by simp
  rw [(hf.keeps_gather_copy h label).eq a.size hK hlt, node_copy, if_pos rfl, hcopy]

/-- Moving siblings below a node writes its right extent. -/
theorem keeps_gatherRest (hf : LinkFree field)
    (h : i ∉ K ∨ ∀ n right, field { n with right } = field n) :
    Keeps field K a (a.gatherRest i c siblings o) := by
  cases hfirst : siblings.head? with
  | none =>
    rw [Arena.gatherRest, hfirst]
    exact .refl field K a
  | some first =>
  cases hlast : siblings.getLast? with
  | none =>
    rw [Arena.gatherRest, hfirst, hlast]
    exact .refl field K a
  | some last =>
  rw [gatherRest_eq hfirst hlast]
  dsimp only
  have hredirected : Keeps field K a (a.redirected c first last) :=
    hf.keeps (by simp [redirected]) fun _ => proj_redirected Node.content fun _ _ => rfl
  refine hredirected.trans ?_
  generalize a.redirected c first last = d
  have hadopted : Keeps field K d (d.adoptedBy i (d.chain d.size (some c)) last o) := by
    refine (hf.keeps (size_adopt ..) fun _ => content_adopt).trans (keeps_update ?_)
    refine h.imp_right fun h n => ?_
    rw [← h n, ← hf, ← hf { n with right := _ }]
    rfl
  refine hadopted.trans ?_
  split
  · exact hf.keeps_links fun _ => rfl
  · exact .refl field K _

theorem keeps_gatherWithSiblings (hf : LinkFree field)
    (h : i ∉ K ∨ ∀ n label kind right, field { n with label, kind, right } = field n)
    (label : String) (siblings : List NodeId) :
    Keeps field K a (a.gatherWithSiblings i label siblings).arena := by
  rcases a.gatherWithSiblings_outcome i label siblings with hno | ⟨after, -, hok⟩
  · exact .of_refused hno
  · rw [hok]
    refine (hf.keeps_gather ?_ label).trans (hf.keeps_gatherRest ?_)
    · exact h.imp_right fun h n label kind => h n label kind n.right
    · exact h.imp_right fun h n right => h n n.label n.kind right

theorem keeps_tear (hf : LinkFree field) (i : NodeId) : Keeps field K a (a.tear i).arena := by
  rcases a.tear_outcome i with hno | ⟨p, prev, -, -, hok⟩
  · exact .of_refused hno
  · rw [hok]
    show Keeps field K a (a.splice p prev i none)
    exact hf.keeps size_splice fun _ => content_splice

theorem keeps_addChild (hf : LinkFree field) (p c : NodeId) : Keeps field K a (a.addChild p c) :=
  hf.keeps size_addChild fun _ => content_addChild

theorem keeps_copyChildren (hf : LinkFree field) (p : NodeId) (l : List NodeId)
    (stack : List (NodeId × NodeId)) (a : Arena) :
    Keeps field K a (copyChildren p l stack a).2 := by
  induction l generalizing a stack with
  | nil => exact .refl field K a
  | cons i l ih =>
    rw [copyChildren_cons]
    exact ((keeps_copy i).trans (hf.keeps_addChild p a.size)).trans (ih ..)

theorem keeps_copyPending (hf : LinkFree field) (n : Nat) (stack : List (NodeId × NodeId))
    (a : Arena) : Keeps field K a (copyPending n stack a) := by
  induction n generalizing a stack with
  | zero => exact .refl field K a
  | succ n ih =>
    cases stack with
    | nil => exact .refl field K a
    | cons e stack => exact (hf.keeps_copyChildren ..).trans (ih ..)

theorem keeps_cloneSubtree (hf : LinkFree field) (i : NodeId) :
    Keeps field K a (a.cloneSubtree i).2 :=
  (keeps_copy i).trans (hf.keeps_copyPending ..)

theorem keeps_tearInto (hf : LinkFree field) (i : NodeId) (key : String) :
    Keeps field K a (a.tearInto i key).arena := by
  rcases a.tearInto_outcome i key with hno | ⟨p, prev, -, -, hok⟩
  · exact .of_refused hno
  · rw [hok]
    refine (hf.keeps_cloneSubtree i).trans ?_
    show Keeps field K (a.cloneSubtree i).2
      (((a.cloneSubtree i).2.updateStore ((a.cloneSubtree i).2.node p).store fun s =>
        s.insert key a.size).splice p prev i none)
    exact hf.keeps size_splice fun _ => content_splice

theorem keeps_insert (hf : LinkFree field) (i : NodeId) (position : Nat) (key : String) :
    Keeps field K a (a.insert i position key).arena := by
  rcases a.insert_outcome i position key with hno | ⟨stored, prev, -, -, hok⟩
  · exact .of_refused hno
  · rw [hok]
    refine (hf.keeps_cloneSubtree stored).trans ?_
    show Keeps field K (a.cloneSubtree stored).2
      ((a.cloneSubtree stored).2.linkAfter i prev a.size)
    exact hf.keeps size_linkAfter fun _ => content_linkAfter

end Node.LinkFree

/-! ## What nothing writes to -/

/-- The identity and the tear store of a node. -/
def Node.origin (n : Node) : Nat × Nat :=
  (n.identity, n.store)

theorem Node.linkFree_content : LinkFree Node.content :=
  fun _ => rfl

theorem Node.linkFree_origin : LinkFree Node.origin :=
  fun _ => rfl

namespace Command

open Arena Node

/-- **No command gives a node another identity or another tear store.** -/
theorem origin_run {a : Arena} {c : Command} (hedit : c.isEdit) :
    Keeps Node.origin Set.univ a (c.run a).arena := by
  have hf := linkFree_origin
  have hwrite {i : NodeId} {f : Node → Node} (h : ∀ n, (f n).origin = n.origin) :
      Keeps Node.origin Set.univ a (a.update i f) := keeps_update (.inr h)
  cases c with
  | make label kind left right => exact keeps_make label kind left right
  | makeSymbol symbols label left right => exact keeps_make _ _ left right
  | push p label kind left right =>
    exact (keeps_make label kind left right).trans (hf.keeps_addChild p a.size)
  | addChild p child =>
    cases child with
    | none => exact .refl ..
    | some child => exact hf.keeps_addChild p child
  | setChild p child => exact hf.keeps size_setChild fun _ => content_setChild
  | setSibling i sibling => exact hf.keeps size_setSibling fun _ => content_setSibling
  | setParent i parent => exact hwrite fun _ => rfl
  | deleteChild p child => simpa only [run, Outcome.arena_map] using hf.keeps_deleteChild p child
  | setLabel i label => exact hwrite fun _ => rfl
  | setKind i kind => exact hwrite fun _ => rfl
  | setLeft i left => exact hwrite fun _ => rfl
  | setRight i right => exact hwrite fun _ => rfl
  | foldOver i => simpa only [run, Outcome.arena_map] using hf.keeps_foldOver (.inr fun _ _ => rfl)
  | foldUnder i => simpa only [run, Outcome.arena_map] using hf.keeps_foldUnder i
  | gather i label => exact hf.keeps_gather (.inr fun _ _ _ => rfl) label
  | gatherWithSiblings i label siblings =>
    simpa only [run, Outcome.arena_map] using
      hf.keeps_gatherWithSiblings (.inr fun _ _ _ _ => rfl) label siblings
  | tear i => simpa only [run, Outcome.arena_map] using hf.keeps_tear i
  | tearInto i key => simpa only [run, Outcome.arena_map] using hf.keeps_tearInto i key
  | insert i position key =>
    simpa only [run, Outcome.arena_map] using hf.keeps_insert i position key
  | clone i => exact hf.keeps_cloneSubtree i
  | apply action i input => simp [isEdit] at hedit
  | transform rules i input => simp [isEdit] at hedit
  | toAst rules root input => simp [isEdit] at hedit

end Command

end ParseTree
