import ParseTree.Proofs.Outcomes

/-!
# Links that lead to slots

The links that lists are read by are those to first children and to next siblings. If commands are
given slots of the arena, then these links lead to slots, even where links were set one by one: what
an operator writes into such a link it has read from one, or has just allocated. So whatever has
become of the trees, nothing is looked up that is not there.

The bound on the slots stays the same while an operator allocates; it is the size of the arena after
the operator.

## Main results

* `LinksBelow.splice`, `LinksBelow.setChild`, `LinksBelow.linkAfter`: what primitives write.
* `Linked.linksBelow`: links that are in order lead to slots.
* `Command.linksBelow_run`: links that lead to slots do so after a command.
-/

namespace ParseTree

/-- The first child and the next sibling of the node, if it has them, are among the first `n` slots.
-/
def Node.LinksBelow (n : Nat) (m : Node) : Prop :=
  (∀ c ∈ m.firstChild, c < n) ∧ ∀ s ∈ m.nextSibling, s < n

/-- A node without links leads nowhere. -/
theorem Node.linksBelow_of_unlinked {n : Nat} {m : Node} (hfirst : m.firstChild = none)
    (hnext : m.nextSibling = none) : m.LinksBelow n := by
  simp [LinksBelow, hfirst, hnext]

namespace Arena

variable {a b : Arena} {n k : Nat} {i p c x : NodeId} {o prev : Option NodeId}
  {l siblings : List NodeId}

/-! ## Links that lead to slots -/

/-- All first children and next siblings are among the first `n` slots. -/
def LinksBelow (a : Arena) (n : Nat) : Prop :=
  ∀ x, (a.node x).LinksBelow n

theorem linksBelow_empty : ({} : Arena).LinksBelow n :=
  fun _ => Node.linksBelow_of_unlinked rfl rfl

/-- Members of a list are slots, if the slots have links to slots. -/
theorem chain_lt (h : ∀ x < n, (a.node x).LinksBelow n) (k : Nat) (ho : ∀ x ∈ o, x < n) :
    ∀ x ∈ a.chain k o, x < n := by
  induction k generalizing o with
  | zero => simp
  | succ k ih =>
    cases o with
    | none => simp
    | some i =>
      have hi : i < n := ho i rfl
      rw [chain_some]
      exact List.forall_mem_cons.mpr ⟨hi, ih (h i hi).2⟩

namespace LinksBelow

theorem mono (h : a.LinksBelow n) (hn : n ≤ k) : a.LinksBelow k :=
  fun x => ⟨fun c hc => Nat.lt_of_lt_of_le ((h x).1 c hc) hn,
    fun s hs => Nat.lt_of_lt_of_le ((h x).2 s hs) hn⟩

/-! ## What is read -/

theorem children (h : a.LinksBelow n) (i : NodeId) : ∀ x ∈ a.children i, x < n :=
  chain_lt (fun x _ => h x) a.size (h i).1

/-- Siblings that follow a slot are slots, and so is what comes after them. -/
theorem follow? (h : a.LinksBelow n) {after : Option NodeId} (ho : ∀ x ∈ o, x < n)
    (hfollow : a.follow? o siblings = some after) :
    (∀ x ∈ siblings, x < n) ∧ ∀ x ∈ after, x < n := by
  induction siblings generalizing o with
  | nil =>
    obtain rfl := Option.some.inj hfollow
    exact ⟨by simp, ho⟩
  | cons s siblings ih =>
    rw [Arena.follow?] at hfollow
    split at hfollow
    · next hs =>
      obtain ⟨hsiblings, hafter⟩ := ih (h s).2 hfollow
      exact ⟨List.forall_mem_cons.mpr ⟨ho s hs, hsiblings⟩, hafter⟩
    · cases hfollow

/-! ## What is written -/

theorem update (h : a.LinksBelow n) {f : Node → Node}
    (hf : ∀ m : Node, m.LinksBelow n → (f m).LinksBelow n) : (a.update i f).LinksBelow n := by
  intro x
  rw [node_update]
  split
  · exact hf _ (h x)
  · exact h x

theorem updateFirst (h : a.LinksBelow n) (ho : ∀ x ∈ o, x < n) :
    (a.update i fun n => { n with firstChild := o }).LinksBelow n :=
  h.update fun _ hm => ⟨ho, hm.2⟩

theorem updateNext (h : a.LinksBelow n) (ho : ∀ x ∈ o, x < n) :
    (a.update i fun n => { n with nextSibling := o }).LinksBelow n :=
  h.update fun _ hm => ⟨hm.1, ho⟩

/-- Other fields are changed. -/
theorem updateRest (h : a.LinksBelow n) {f : Node → Node}
    (hf : ∀ m, (f m).firstChild = m.firstChild ∧ (f m).nextSibling = m.nextSibling) :
    (a.update i f).LinksBelow n :=
  h.update fun m hm => ⟨(hf m).1 ▸ hm.1, (hf m).2 ▸ hm.2⟩

theorem updateLast (h : a.LinksBelow n) (o : Option NodeId) :
    (a.update i fun n => { n with lastChild := o }).LinksBelow n :=
  h.updateRest fun _ => ⟨rfl, rfl⟩

theorem updateStore (h : a.LinksBelow n) (s : Nat) (f : TearStore → TearStore) :
    (a.updateStore s f).LinksBelow n :=
  fun x => h x

theorem adopt (h : a.LinksBelow n) (o : Option NodeId) (l : List NodeId) :
    (a.adopt o l).LinksBelow n := by
  intro x
  rw [node_adopt]
  split
  · exact h x
  · exact h x

theorem make (h : a.LinksBelow n) (label : String) (kind : Kind) (left right : Nat) :
    (a.make label kind left right).2.LinksBelow n := by
  intro x
  rw [node_make]
  split
  · exact Node.linksBelow_of_unlinked rfl rfl
  · exact h x

theorem copy (h : a.LinksBelow n) (i : NodeId) : (a.copy i).2.LinksBelow n := by
  intro x
  rw [node_copy]
  split
  · exact Node.linksBelow_of_unlinked rfl rfl
  · exact h x

/-! ## Link primitives -/

theorem setChild (h : a.LinksBelow n) (ho : ∀ x ∈ o, x < n) : (a.setChild p o).LinksBelow n :=
  (h.adopt _ _).update fun _ hm => ⟨ho, hm.2⟩

theorem addChild (h : a.LinksBelow n) (hc : c < n) : (a.addChild p c).LinksBelow n := by
  have hsome : ∀ x ∈ some c, x < n := by simpa using hc
  unfold Arena.addChild
  split
  · exact h.setChild hsome
  · exact ((h.updateNext hsome).adopt _ _).updateLast _

theorem setSibling (h : a.LinksBelow n) (ho : ∀ x ∈ o, x < n) :
    (a.setSibling i o).LinksBelow n := by
  unfold Arena.setSibling
  dsimp only
  split
  · exact (h.updateNext ho).adopt _ _
  · exact ((h.updateNext ho).adopt _ _).updateLast _

theorem linkFront (h : a.LinksBelow n) (ho : ∀ x ∈ o, x < n) :
    (a.linkFront p prev o).LinksBelow n := by
  cases prev with
  | none => exact h.updateFirst ho
  | some q => exact h.updateNext ho

theorem linkBack (h : a.LinksBelow n) (after o : Option NodeId) :
    (a.linkBack p after o).LinksBelow n := by
  cases after with
  | none => exact h.updateLast o
  | some _ => exact h

/-- A node leaves its list. -/
theorem detach (h : a.LinksBelow n) :
    (a.update i fun n => { n with parent := none, nextSibling := none }).LinksBelow n :=
  h.update fun _ hm => ⟨hm.1, by simp⟩

theorem splice (h : a.LinksBelow n) {replacement : Option (NodeId × NodeId)}
    (hreplacement : ∀ e ∈ replacement, e.1 < n) :
    (a.splice p prev i replacement).LinksBelow n := by
  have hafter : ∀ x ∈ (a.node i).nextSibling, x < n := (h i).2
  cases replacement with
  | none =>
    rw [splice_none]
    exact ((h.linkFront hafter).linkBack _ _).detach
  | some e =>
    obtain ⟨head, tail⟩ := e
    have hhead : ∀ x ∈ some head, x < n := by simpa using hreplacement (head, tail) rfl
    rw [splice_some]
    exact (((h.updateNext hafter).linkFront hhead).linkBack _ _).detach

theorem promote (h : a.LinksBelow n) : (a.promote p prev c).LinksBelow n := by
  have hends : ∀ e ∈ ends (a.children c), e.1 < n := by
    intro e he
    have hhead : (a.children c).head? = some e.1 := by
      rw [← map_fst_ends, Option.mem_def.mp he, Option.map_some]
    exact h.children c _ (List.mem_of_head? hhead)
  rw [promote_eq]
  exact ((h.adopt _ _).splice hends).update fun _ hm => ⟨by simp, hm.2⟩

theorem linkAfter (h : a.LinksBelow n) (hc : c < n) : (a.linkAfter i prev c).LinksBelow n := by
  have hsome : ∀ x ∈ some c, x < n := by simpa using hc
  have hnext : ∀ x ∈ a.nextOf i prev, x < n := by
    cases prev with
    | none => exact (h i).1
    | some q => exact (h q).2
  rw [linkAfter_eq]
  refine linkBack (update (h.linkFront hsome) fun m hm => ?_) _ _
  exact ⟨hm.1, hnext⟩

/-! ## Operators -/

theorem deleteChild (h : a.LinksBelow n) (p c : NodeId) :
    (a.deleteChild p c).arena.LinksBelow n := by
  rcases a.deleteChild_outcome p c with hno | ⟨prev, -, hok⟩
  · rwa [hno.arena_eq]
  · exact hok ▸ h.promote

theorem foldUnder (h : a.LinksBelow n) (i : NodeId) : (a.foldUnder i).arena.LinksBelow n := by
  rcases a.foldUnder_outcome i with hno | ⟨p, prev, -, -, hok⟩
  · rwa [hno.arena_eq]
  · exact hok ▸ h.promote

theorem foldOver (h : a.LinksBelow n) (i : NodeId) : (a.foldOver i).arena.LinksBelow n := by
  rcases a.foldOver_outcome i with hno | ⟨p, prev, -, -, hok⟩
  · rwa [hno.arena_eq]
  · rw [hok]
    exact h.promote.updateRest fun _ => ⟨rfl, rfl⟩

theorem gather (h : a.LinksBelow n) (hn : a.size < n) (i : NodeId) (label : String) :
    (a.gather i label).2.LinksBelow n := by
  have hdown : ((a.copy i).2.setChild a.size ((a.copy i).2.node i).firstChild).LinksBelow n :=
    (h.copy i).setChild (h.copy i i).1
  rw [gather_snd]
  generalize (a.copy i).2.setChild a.size ((a.copy i).2.node i).firstChild = d at hdown ⊢
  have hlabel : (d.setLabel i label).LinksBelow n := hdown.updateRest fun _ => ⟨rfl, rfl⟩
  have hkind : ((d.setLabel i label).setKind i .nonTerminal).LinksBelow n :=
    hlabel.updateRest fun _ => ⟨rfl, rfl⟩
  exact hkind.setChild (by simpa using hn)

theorem gatherRest (h : a.LinksBelow n) (hsiblings : ∀ x ∈ siblings, x < n)
    (ho : ∀ x ∈ o, x < n) : (a.gatherRest i c siblings o).LinksBelow n := by
  cases hfirst : siblings.head? with
  | none =>
    rw [Arena.gatherRest, hfirst]
    exact h
  | some first =>
  cases hlast : siblings.getLast? with
  | none =>
    rw [Arena.gatherRest, hfirst, hlast]
    exact h
  | some last =>
  have hfirstLt : ∀ x ∈ some first, x < n := by simpa using hsiblings _ (List.mem_of_head? hfirst)
  rw [gatherRest_eq hfirst hlast]
  dsimp only
  have hredirected : (a.redirected c first last).LinksBelow n :=
    (h.updateNext (by simp)).updateNext hfirstLt
  generalize a.redirected c first last = d at hredirected ⊢
  have hadopted : (d.adoptedBy i (d.chain d.size (some c)) last o).LinksBelow n :=
    (hredirected.adopt _ _).update fun _ hm => ⟨hm.1, ho⟩
  split
  · exact hadopted.updateLast _
  · exact hadopted

theorem gatherWithSiblings (h : a.LinksBelow n) {label : String}
    (hn : (a.gatherWithSiblings i label siblings).arena.size ≤ n) :
    (a.gatherWithSiblings i label siblings).arena.LinksBelow n := by
  rcases a.gatherWithSiblings_outcome i label siblings with hno | ⟨after, hfollow, hok⟩
  · rwa [hno.arena_eq]
  · obtain ⟨hsiblings, hafter⟩ := h.follow? (h i).2 hfollow
    rw [hok] at hn ⊢
    replace hn : ((a.gather i label).2.gatherRest i a.size siblings after).size ≤ n := hn
    rw [size_gatherRest, size_gather] at hn
    exact (h.gather hn i label).gatherRest hsiblings hafter

theorem tear (h : a.LinksBelow n) (i : NodeId) : (a.tear i).arena.LinksBelow n := by
  rcases a.tear_outcome i with hno | ⟨p, prev, -, -, hok⟩
  · rwa [hno.arena_eq]
  · rw [hok]
    show (a.splice p prev i none).LinksBelow n
    exact h.splice (by simp)

/-! ## Copies -/

theorem copyChildren (h : a.LinksBelow n) {stack : List (NodeId × NodeId)}
    (hn : (copyChildren p l stack a).2.size ≤ n) : (copyChildren p l stack a).2.LinksBelow n := by
  induction l generalizing a stack with
  | nil => exact h
  | cons i l ih =>
    rw [copyChildren_cons] at hn ⊢
    have hgrows := (Node.linkFree_content.keeps_copyChildren (K := Set.univ) p l
      (if (((a.copy i).2.addChild p a.size).node i).firstChild.isSome then (i, a.size) :: stack
        else stack) ((a.copy i).2.addChild p a.size)).size_le
    rw [size_addChild, size_copy] at hgrows
    have hlt : a.size < n := Nat.lt_of_lt_of_le hgrows hn
    exact ih ((h.copy i).addChild hlt) hn

theorem copyPending (h : a.LinksBelow n) {stack : List (NodeId × NodeId)}
    (hn : (copyPending k stack a).size ≤ n) : (copyPending k stack a).LinksBelow n := by
  induction k generalizing a stack with
  | zero => exact h
  | succ k ih =>
    match stack with
    | [] => exact h
    | (i, c) :: stack =>
      have hgrows := (Node.linkFree_content.keeps_copyPending (K := Set.univ) k
        (Arena.copyChildren c (a.children i) stack a).1
        (Arena.copyChildren c (a.children i) stack a).2).size_le
      exact ih (h.copyChildren (Nat.le_trans hgrows hn)) hn

theorem cloneSubtree (h : a.LinksBelow n) (hn : (a.cloneSubtree i).2.size ≤ n) :
    (a.cloneSubtree i).2.LinksBelow n :=
  (h.copy i).copyPending hn

theorem tearInto (h : a.LinksBelow n) {key : String} (hn : (a.tearInto i key).arena.size ≤ n) :
    (a.tearInto i key).arena.LinksBelow n := by
  rcases a.tearInto_outcome i key with hno | ⟨p, prev, -, -, hok⟩
  · rwa [hno.arena_eq]
  · rw [hok] at hn ⊢
    replace hn : (((a.cloneSubtree i).2.updateStore ((a.cloneSubtree i).2.node p).store fun s =>
      s.insert key a.size).splice p prev i none).size ≤ n := hn
    rw [size_splice] at hn
    show LinksBelow (((a.cloneSubtree i).2.updateStore ((a.cloneSubtree i).2.node p).store fun s =>
      s.insert key a.size).splice p prev i none) n
    exact ((h.cloneSubtree hn).updateStore _ _).splice (by simp)

theorem insert (h : a.LinksBelow n) {position : Nat} {key : String}
    (hn : (a.insert i position key).arena.size ≤ n) :
    (a.insert i position key).arena.LinksBelow n := by
  rcases a.insert_outcome i position key with hno | ⟨stored, prev, -, -, hok⟩
  · rwa [hno.arena_eq]
  · rw [hok] at hn ⊢
    replace hn : ((a.cloneSubtree stored).2.linkAfter i prev a.size).size ≤ n := hn
    rw [size_linkAfter] at hn
    show LinksBelow ((a.cloneSubtree stored).2.linkAfter i prev a.size) n
    exact (h.cloneSubtree hn).linkAfter (Nat.lt_of_lt_of_le (a.size_lt_cloneSubtree stored) hn)

end LinksBelow

/-- Links that are in order lead to slots. -/
theorem Linked.linksBelow (h : a.Linked) : a.LinksBelow a.size := by
  refine fun x => ⟨fun c hc => ?_, fun s hs => ?_⟩
  · exact h.lt_size_of_mem (List.mem_of_mem_head? ((h.childList x).firstChild.symm.trans hc))
  · cases hp : (a.node x).parent with
    | none =>
      rw [h.nextSibling_of_root hp] at hs
      cases hs
    | some p =>
      obtain ⟨before, after, hlist⟩ := h.exists_children_eq hp
      rw [h.nextSibling_eq hlist] at hs
      exact h.lt_size_of_mem (p := p) (by simp [hlist, List.mem_of_head? hs])

end Arena

/-! ## Commands -/

namespace Command

open Arena

variable {a : Arena} {c : Command}

/-- The nodes that a command looks up are there. -/
def InRange (a : Arena) (c : Command) : Prop :=
  ∀ i ∈ c.slots, i < a.size

instance : Decidable (InRange a c) :=
  inferInstanceAs (Decidable (∀ i ∈ c.slots, i < a.size))

/-- A command that edits the arena by itself and is given slots of the arena. -/
def IsStep (a : Arena) (c : Command) : Prop :=
  c.isEdit = true ∧ c.InRange a

/-- **One step.** Links that lead to slots do so after a command that was given slots. -/
theorem linksBelow_run (ha : a.LinksBelow a.size) (hc : c.IsStep a) :
    (c.run a).arena.LinksBelow (c.run a).arena.size := by
  obtain ⟨hedit, hc⟩ := hc
  have hle : a.size ≤ (c.run a).arena.size := (origin_run hedit).size_le
  have hslot {i : NodeId} (hi : i ∈ c.slots) : i < (c.run a).arena.size :=
    Nat.lt_of_lt_of_le (hc i hi) hle
  have hn : (c.run a).arena.size ≤ (c.run a).arena.size := Nat.le_refl _
  replace ha := ha.mono hle
  -- The size of the outcome is a bound that does not change on the way to it.
  generalize hsize : (c.run a).arena.size = n at ha hslot hn hle
  have hfields {i : NodeId} {f : Node → Node}
      (hf : ∀ m, (f m).firstChild = m.firstChild ∧ (f m).nextSibling = m.nextSibling) :
      (a.update i f).LinksBelow n := ha.updateRest hf
  cases c with
  | make label kind left right => exact ha.make label kind left right
  | makeSymbol symbols label left right => exact ha.make _ _ left right
  | push p label kind left right =>
    have hpush : ((a.make label kind left right).2.addChild p a.size).size = n := hsize
    rw [size_addChild, size_make] at hpush
    exact (ha.make label kind left right).addChild (Nat.lt_of_lt_of_eq a.size.lt_succ_self hpush)
  | addChild p child =>
    cases child with
    | none => exact ha
    | some child => exact ha.addChild (hslot (by simp [slots]))
  | setChild p child => exact ha.setChild fun x hx => hslot (by simp [slots, Option.mem_def.mp hx])
  | setSibling i sibling =>
    exact ha.setSibling fun x hx => hslot (by simp [slots, Option.mem_def.mp hx])
  | setParent i parent => exact hfields fun _ => ⟨rfl, rfl⟩
  | deleteChild p child => simpa only [run, Outcome.arena_map] using ha.deleteChild p child
  | setLabel i label => exact hfields fun _ => ⟨rfl, rfl⟩
  | setKind i kind => exact hfields fun _ => ⟨rfl, rfl⟩
  | setLeft i left => exact hfields fun _ => ⟨rfl, rfl⟩
  | setRight i right => exact hfields fun _ => ⟨rfl, rfl⟩
  | foldOver i => simpa only [run, Outcome.arena_map] using ha.foldOver i
  | foldUnder i => simpa only [run, Outcome.arena_map] using ha.foldUnder i
  | gather i label =>
    have hgather : (a.gather i label).2.size = n := hsize
    rw [size_gather] at hgather
    exact ha.gather (Nat.lt_of_lt_of_eq a.size.lt_succ_self hgather) i label
  | gatherWithSiblings i label siblings =>
    simp only [run, Outcome.arena_map] at hsize ⊢
    exact ha.gatherWithSiblings (Nat.le_of_eq hsize)
  | tear i => simpa only [run, Outcome.arena_map] using ha.tear i
  | tearInto i key =>
    simp only [run, Outcome.arena_map] at hsize ⊢
    exact ha.tearInto (Nat.le_of_eq hsize)
  | insert i position key =>
    simp only [run, Outcome.arena_map] at hsize ⊢
    exact ha.insert (Nat.le_of_eq hsize)
  | clone i => exact ha.cloneSubtree (Nat.le_of_eq hsize)
  | apply | transform | toAst => cases hedit

end Command

end ParseTree
