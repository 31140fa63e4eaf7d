import ParseTree.Proofs.Runs

/-!
# Trees of one arena do not interfere

All trees share one arena, and operators write to nodes that they find by following links. What they
can find is limited: if no link from outside leads into a set of nodes, then an operator that begins
outside stays outside. `Sealed` says that a set of nodes is like this, and `Frames` that a step has
left the nodes of the set alone and the set sealed. The tree of a root is sealed in a linked arena.

Links are all that matters here. The arena need not stay linked, and so nothing is asked of the
operators but that the nodes they are given lie outside. Copying reads anywhere, but writes to the
copy.

## Main results

* `Sealed.update`, `Sealed.adopt`, `Sealed.splice`, `Sealed.addChild`: what primitives write to.
* `Linked.sealed_tree`: the tree of a root is sealed.
* `Command.frames_run`: a command whose targets lie outside leaves a sealed set alone.
* `Command.node_eq_of_run`: runs of commands on other trees leave a tree alone.
-/

namespace ParseTree

/-- No link of the node leads into `T`. -/
structure Node.Avoids (T : Set NodeId) (n : Node) : Prop where
  parent : ∀ p ∈ n.parent, p ∉ T
  firstChild : ∀ c ∈ n.firstChild, c ∉ T
  nextSibling : ∀ s ∈ n.nextSibling, s ∉ T
  lastChild : ∀ c ∈ n.lastChild, c ∉ T

/-- A node without links leads nowhere. -/
theorem Node.avoids_of_unlinked {T : Set NodeId} {n : Node} (hparent : n.parent = none)
    (hfirst : n.firstChild = none) (hnext : n.nextSibling = none) (hlast : n.lastChild = none) :
    n.Avoids T := by
  constructor <;> simp [*]

namespace Arena

variable {a b d : Arena} {T : Set NodeId} {i p c r x : NodeId} {o prev : Option NodeId}
  {l siblings : List NodeId}

/-! ## Links at both ends of a place in a list -/

/-- Let what comes before a place in the list of `p` lead to `head`. -/
def linkFront (a : Arena) (p : NodeId) (prev head : Option NodeId) : Arena :=
  match prev with
  | none => a.update p fun n => { n with firstChild := head }
  | some prev => a.update prev fun n => { n with nextSibling := head }

/-- If nothing comes after a place in the list of `p`, the list ends with `last`. -/
def linkBack (a : Arena) (p : NodeId) (after last : Option NodeId) : Arena :=
  match after with
  | none => a.update p fun n => { n with lastChild := last }
  | some _ => a

theorem splice_none (a : Arena) (p : NodeId) (prev : Option NodeId) (i : NodeId) :
    a.splice p prev i none =
      ((a.linkFront p prev (a.node i).nextSibling).linkBack p (a.node i).nextSibling prev).update i
        fun n => { n with parent := none, nextSibling := none } :=
  rfl

theorem splice_some (a : Arena) (p : NodeId) (prev : Option NodeId) (i head tail : NodeId) :
    a.splice p prev i (some (head, tail)) =
      (((a.update tail fun n => { n with nextSibling := (a.node i).nextSibling }).linkFront p prev
        (some head)).linkBack p (a.node i).nextSibling (some tail)).update i
          fun n => { n with parent := none, nextSibling := none } :=
  rfl

/-- What comes after `prev` in the list of `i`. -/
def nextOf (a : Arena) (i : NodeId) (prev : Option NodeId) : Option NodeId :=
  match prev with
  | none => (a.node i).firstChild
  | some prev => (a.node prev).nextSibling

theorem linkAfter_eq (a : Arena) (i : NodeId) (prev : Option NodeId) (c : NodeId) :
    a.linkAfter i prev c =
      ((a.linkFront i prev (some c)).update c
        fun n => { n with parent := some i, nextSibling := a.nextOf i prev }).linkBack i
          (a.nextOf i prev) (some c) :=
  rfl

/-! ## Sealed sets -/

/-- **A sealed set of nodes.** No link leads into it from outside. -/
structure Sealed (a : Arena) (T : Set NodeId) : Prop where
  lt_size : ∀ x ∈ T, x < a.size
  avoids : ∀ x ∉ T, (a.node x).Avoids T

/-- The step from `a` to `b` leaves the nodes of `T` alone, and `T` is sealed afterwards. -/
structure Frames (a b : Arena) (T : Set NodeId) : Prop where
  sealed : b.Sealed T
  node_eq : ∀ x ∈ T, b.node x = a.node x

/-- A step is followed by another one. -/
theorem Frames.bind (h : a.Frames b T) (next : b.Sealed T → b.Frames d T) : a.Frames d T where
  sealed := (next h.sealed).sealed
  node_eq x hx := ((next h.sealed).node_eq x hx).trans (h.node_eq x hx)

namespace Sealed

/-! ## What is read outside -/

theorem refl (h : a.Sealed T) : a.Frames a T :=
  ⟨h, fun _ _ => rfl⟩

theorem size_not_mem (h : a.Sealed T) : a.size ∉ T :=
  fun hx => Nat.lt_irrefl _ (h.lt_size _ hx)

/-- Siblings of nodes outside are outside. -/
theorem chain (h : a.Sealed T) (n : Nat) (ho : ∀ x ∈ o, x ∉ T) : ∀ x ∈ a.chain n o, x ∉ T := by
  induction n generalizing o with
  | zero => simp
  | succ n ih =>
    cases o with
    | none => simp
    | some i =>
      have hi : i ∉ T := ho i rfl
      intro x hx
      rw [chain_some] at hx
      rcases List.mem_cons.mp hx with rfl | hx
      · exact hi
      · exact ih (h.avoids i hi).nextSibling x hx

/-- Children of nodes outside are outside. -/
theorem children (h : a.Sealed T) (hi : i ∉ T) : ∀ x ∈ a.children i, x ∉ T :=
  h.chain a.size (h.avoids i hi).firstChild

theorem predecessorFrom (h : a.Sealed T) (c : NodeId) (n : Nat) (hprev : ∀ x ∈ prev, x ∉ T)
    (ho : ∀ x ∈ o, x ∉ T) : ∀ q ∈ a.predecessorFrom c n prev o, ∀ x ∈ q, x ∉ T := by
  induction n generalizing prev o with
  | zero => simp [Arena.predecessorFrom]
  | succ n ih =>
    cases o with
    | none => simp [Arena.predecessorFrom]
    | some i =>
      have hi : i ∉ T := ho i rfl
      rw [Arena.predecessorFrom]
      split
      · rintro q hq x hx
        obtain rfl := Option.some.inj hq
        exact hprev x hx
      · refine ih (fun x hx => ?_) (h.avoids i hi).nextSibling
        obtain rfl := Option.some.inj hx
        exact hi

/-- The sibling before a child of a node outside is outside. -/
theorem predecessor? (h : a.Sealed T) (hp : p ∉ T) {prev : Option NodeId}
    (hprev : a.predecessor? p c = some prev) : ∀ x ∈ prev, x ∉ T :=
  h.predecessorFrom c a.size (by simp) (h.avoids p hp).firstChild prev hprev

/-- Siblings that follow a node outside are outside, and so is what comes after them. -/
theorem follow? (h : a.Sealed T) {after : Option NodeId} (ho : ∀ x ∈ o, x ∉ T)
    (hfollow : a.follow? o siblings = some after) :
    (∀ x ∈ siblings, x ∉ T) ∧ ∀ x ∈ after, x ∉ T := by
  induction siblings generalizing o with
  | nil =>
    obtain rfl := Option.some.inj hfollow
    exact ⟨by simp, ho⟩
  | cons s siblings ih =>
    rw [Arena.follow?] at hfollow
    split at hfollow
    · next hs =>
      have hsT : s ∉ T := ho s hs
      obtain ⟨hsiblings, hafter⟩ := ih (h.avoids s hsT).nextSibling hfollow
      exact ⟨by simpa [hsT] using hsiblings, hafter⟩
    · cases hfollow

/-! ## What is written outside -/

/-- **A node outside is changed**, and its new links lead nowhere inside either. -/
theorem update (h : a.Sealed T) (hi : i ∉ T) {f : Node → Node}
    (hf : ∀ n : Node, n.Avoids T → (f n).Avoids T) : a.Frames (a.update i f) T where
  sealed := by
    refine ⟨fun x hx => (size_update a i f).symm ▸ h.lt_size x hx, fun x hx => ?_⟩
    rw [node_update]
    split
    · exact hf _ (h.avoids x hx)
    · exact h.avoids x hx
  node_eq x hx := node_update_of_ne f fun hix => hi (hix ▸ hx)

/-- A node outside is changed, but not its links. -/
theorem updateFields (h : a.Sealed T) (hi : i ∉ T) {f : Node → Node}
    (hf : ∀ n, (f n).parent = n.parent ∧ (f n).firstChild = n.firstChild ∧
      (f n).nextSibling = n.nextSibling ∧ (f n).lastChild = n.lastChild) :
    a.Frames (a.update i f) T := by
  refine h.update hi fun n hn => ?_
  obtain ⟨hparent, hfirst, hnext, hlast⟩ := hf n
  exact ⟨hparent ▸ hn.parent, hfirst ▸ hn.firstChild, hnext ▸ hn.nextSibling, hlast ▸ hn.lastChild⟩

theorem updateFirst (h : a.Sealed T) (hi : i ∉ T) (ho : ∀ x ∈ o, x ∉ T) :
    a.Frames (a.update i fun n => { n with firstChild := o }) T :=
  h.update hi fun _ hn => ⟨hn.parent, ho, hn.nextSibling, hn.lastChild⟩

theorem updateNext (h : a.Sealed T) (hi : i ∉ T) (ho : ∀ x ∈ o, x ∉ T) :
    a.Frames (a.update i fun n => { n with nextSibling := o }) T :=
  h.update hi fun _ hn => ⟨hn.parent, hn.firstChild, ho, hn.lastChild⟩

theorem updateLast (h : a.Sealed T) (hi : i ∉ T) (ho : ∀ x ∈ o, x ∉ T) :
    a.Frames (a.update i fun n => { n with lastChild := o }) T :=
  h.update hi fun _ hn => ⟨hn.parent, hn.firstChild, hn.nextSibling, ho⟩

theorem adopt (h : a.Sealed T) (ho : ∀ x ∈ o, x ∉ T) (hl : ∀ x ∈ l, x ∉ T) :
    a.Frames (a.adopt o l) T where
  sealed := by
    refine ⟨fun x hx => (size_adopt a o l).symm ▸ h.lt_size x hx, fun x hx => ?_⟩
    have hx := h.avoids x hx
    rw [node_adopt]
    split
    · exact ⟨ho, hx.firstChild, hx.nextSibling, hx.lastChild⟩
    · exact hx
  node_eq x hx := by
    rw [node_adopt, if_neg]
    exact fun hmem => hl x hmem.1 hx

/-- A new node without links. -/
theorem push (h : a.Sealed T) {fresh : Node} (hfresh : fresh.Avoids T)
    (hsize : b.size = a.size + 1)
    (hb : ∀ x, b.node x = if x = a.size then fresh else a.node x) : a.Frames b T where
  sealed := by
    refine ⟨fun x hx => hsize ▸ Nat.lt_succ_of_lt (h.lt_size x hx), fun x hx => ?_⟩
    rw [hb]
    split
    · exact hfresh
    · exact h.avoids x hx
  node_eq x hx := by rw [hb, if_neg (Nat.ne_of_lt (h.lt_size x hx))]

theorem make (h : a.Sealed T) (label : String) (kind : Kind) (left right : Nat) :
    a.Frames (a.make label kind left right).2 T :=
  h.push (Node.avoids_of_unlinked rfl rfl rfl rfl) (size_make ..)
    (node_make a label kind left right)

theorem copy (h : a.Sealed T) (i : NodeId) : a.Frames (a.copy i).2 T :=
  h.push (Node.avoids_of_unlinked rfl rfl rfl rfl) (size_copy ..) (node_copy a i)

theorem updateStore (h : a.Sealed T) (s : Nat) (f : TearStore → TearStore) :
    a.Frames (a.updateStore s f) T :=
  ⟨⟨h.lt_size, h.avoids⟩, fun _ _ => rfl⟩

/-! ## Link primitives -/

theorem setChild (h : a.Sealed T) (hp : p ∉ T) (ho : ∀ x ∈ o, x ∉ T) :
    a.Frames (a.setChild p o) T := by
  have hchain : ∀ x ∈ a.chain a.size o, x ∉ T := h.chain a.size ho
  refine (h.adopt (by simpa using hp) hchain).bind fun h => h.update hp fun n hn => ?_
  exact ⟨hn.parent, ho, hn.nextSibling, fun x hx => hchain x (List.mem_of_getLast? hx)⟩

theorem addChild (h : a.Sealed T) (hp : p ∉ T) (hc : c ∉ T) : a.Frames (a.addChild p c) T := by
  have hsome : ∀ x ∈ some c, x ∉ T := by simpa using hc
  unfold Arena.addChild
  split
  · exact h.setChild hp hsome
  · next last hlast =>
    have hlast : last ∉ T := (h.avoids p hp).lastChild last hlast
    refine (h.updateNext hlast hsome).bind fun h => ?_
    have hchain := h.chain (size (a.update last fun n => { n with nextSibling := some c })) hsome
    refine (h.adopt (by simpa using hp) hchain).bind fun h => h.updateLast hp fun x hx => ?_
    exact hchain x (List.mem_of_getLast? hx)

theorem getLastD_not_mem (hi : i ∉ T) (hl : ∀ x ∈ l, x ∉ T) : l.getLastD i ∉ T := by
  rw [List.getLastD_eq_getLast?]
  cases hlast : l.getLast? with
  | none => exact hi
  | some last => exact hl last (List.mem_of_getLast? hlast)

theorem setSibling (h : a.Sealed T) (hi : i ∉ T) (ho : ∀ x ∈ o, x ∉ T) :
    a.Frames (a.setSibling i o) T := by
  have hparent := (h.avoids i hi).parent
  unfold Arena.setSibling
  refine (h.updateNext hi ho).bind fun h => ?_
  have hchain := h.chain (size (a.update i fun n => { n with nextSibling := o })) ho
  refine (h.adopt hparent hchain).bind fun h => ?_
  dsimp only
  split
  · exact h.refl
  · next q hq =>
    refine h.updateLast (hparent q hq) fun x hx => ?_
    obtain rfl := Option.some.inj hx
    exact getLastD_not_mem hi hchain

theorem setParent (h : a.Sealed T) (hi : i ∉ T) (ho : ∀ x ∈ o, x ∉ T) :
    a.Frames (a.setParent i o) T :=
  h.update hi fun _ hn => ⟨ho, hn.firstChild, hn.nextSibling, hn.lastChild⟩

theorem linkFront (h : a.Sealed T) (hp : p ∉ T) (hprev : ∀ x ∈ prev, x ∉ T)
    (ho : ∀ x ∈ o, x ∉ T) : a.Frames (a.linkFront p prev o) T := by
  cases prev with
  | none => exact h.updateFirst hp ho
  | some q => exact h.updateNext (hprev q rfl) ho

theorem linkBack (h : a.Sealed T) (hp : p ∉ T) (ho : ∀ x ∈ o, x ∉ T) (after : Option NodeId) :
    a.Frames (a.linkBack p after o) T := by
  cases after with
  | none => exact h.updateLast hp ho
  | some _ => exact h.refl

/-- A node leaves its list. -/
theorem detach (h : a.Sealed T) (hi : i ∉ T) :
    a.Frames (a.update i fun n => { n with parent := none, nextSibling := none }) T :=
  h.update hi fun _ hn => ⟨by simp, hn.firstChild, by simp, hn.lastChild⟩

theorem splice (h : a.Sealed T) (hp : p ∉ T) (hprev : ∀ x ∈ prev, x ∉ T) (hi : i ∉ T)
    {replacement : Option (NodeId × NodeId)}
    (hreplacement : ∀ e ∈ replacement, e.1 ∉ T ∧ e.2 ∉ T) :
    a.Frames (a.splice p prev i replacement) T := by
  have hafter := (h.avoids i hi).nextSibling
  cases replacement with
  | none =>
    rw [splice_none]
    exact (h.linkFront hp hprev hafter).bind fun h =>
      (h.linkBack hp hprev _).bind fun h => h.detach hi
  | some e =>
    obtain ⟨head, tail⟩ := e
    obtain ⟨hhead, htail⟩ := hreplacement (head, tail) rfl
    rw [splice_some]
    exact (h.updateNext htail hafter).bind fun h =>
      (h.linkFront hp hprev (by simpa using hhead)).bind fun h =>
        (h.linkBack hp (by simpa using htail) _).bind fun h => h.detach hi

theorem promote (h : a.Sealed T) (hp : p ∉ T) (hprev : ∀ x ∈ prev, x ∉ T) (hc : c ∉ T) :
    a.Frames (a.promote p prev c) T := by
  have hkids : ∀ x ∈ a.children c, x ∉ T := h.children hc
  have hends : ∀ e ∈ ends (a.children c), e.1 ∉ T ∧ e.2 ∉ T := by
    intro e he
    unfold ends at he
    split at he
    · next head tail hhead htail =>
      obtain rfl := Option.some.inj he
      exact ⟨hkids _ (List.mem_of_head? hhead), hkids _ (List.mem_of_getLast? htail)⟩
    · cases he
  rw [promote_eq]
  refine (h.adopt (by simpa using hp) hkids).bind fun h =>
    (h.splice hp hprev hc hends).bind fun h => h.update hc fun n hn => ?_
  exact ⟨hn.parent, by simp, hn.nextSibling, by simp⟩

theorem nextOf (h : a.Sealed T) (hi : i ∉ T) (hprev : ∀ x ∈ prev, x ∉ T) :
    ∀ x ∈ a.nextOf i prev, x ∉ T := by
  cases prev with
  | none => exact (h.avoids i hi).firstChild
  | some q => exact (h.avoids q (hprev q rfl)).nextSibling

theorem linkAfter (h : a.Sealed T) (hi : i ∉ T) (hprev : ∀ x ∈ prev, x ∉ T) (hc : c ∉ T) :
    a.Frames (a.linkAfter i prev c) T := by
  have hnext := h.nextOf hi hprev
  have hsome : ∀ x ∈ some c, x ∉ T := by simpa using hc
  rw [linkAfter_eq]
  refine (h.linkFront hi hprev hsome).bind fun h => ?_
  refine (h.update hc fun n hn => ?_).bind fun h => h.linkBack hi hsome _
  exact ⟨by simpa using hi, hn.firstChild, hnext, hn.lastChild⟩

/-! ## Operators -/

theorem of_refused (h : a.Sealed T) {α : Type} {outcome : Outcome α} (hno : a.Refused outcome) :
    a.Frames outcome.arena T :=
  hno.arena_eq.symm ▸ h.refl

theorem deleteChild (h : a.Sealed T) (hp : p ∉ T) (hc : c ∉ T) :
    a.Frames (a.deleteChild p c).arena T := by
  rcases a.deleteChild_outcome p c with hno | ⟨prev, hprev, hok⟩
  · exact h.of_refused hno
  · rw [hok]
    exact h.promote hp (h.predecessor? hp hprev) hc

theorem foldUnder (h : a.Sealed T) (hi : i ∉ T) : a.Frames (a.foldUnder i).arena T := by
  rcases a.foldUnder_outcome i with hno | ⟨p, prev, hp, hprev, hok⟩
  · exact h.of_refused hno
  · have hp : p ∉ T := (h.avoids i hi).parent p hp
    rw [hok]
    exact h.promote hp (h.predecessor? hp hprev) hi

theorem setLabel (h : a.Sealed T) (hi : i ∉ T) (label : String) :
    a.Frames (a.setLabel i label) T :=
  h.updateFields hi fun _ => ⟨rfl, rfl, rfl, rfl⟩

theorem setKind (h : a.Sealed T) (hi : i ∉ T) (kind : Kind) : a.Frames (a.setKind i kind) T :=
  h.updateFields hi fun _ => ⟨rfl, rfl, rfl, rfl⟩

theorem setLeft (h : a.Sealed T) (hi : i ∉ T) (left : Nat) : a.Frames (a.setLeft i left) T :=
  h.updateFields hi fun _ => ⟨rfl, rfl, rfl, rfl⟩

theorem setRight (h : a.Sealed T) (hi : i ∉ T) (right : Nat) : a.Frames (a.setRight i right) T :=
  h.updateFields hi fun _ => ⟨rfl, rfl, rfl, rfl⟩

theorem foldOver (h : a.Sealed T) (hi : i ∉ T) : a.Frames (a.foldOver i).arena T := by
  rcases a.foldOver_outcome i with hno | ⟨p, prev, hp, hprev, hok⟩
  · exact h.of_refused hno
  · have hp : p ∉ T := (h.avoids i hi).parent p hp
    rw [hok]
    exact (h.promote hp (h.predecessor? hp hprev) hi).bind fun h => h.setLabel hp _

theorem gather (h : a.Sealed T) (hi : i ∉ T) (label : String) :
    a.Frames (a.gather i label).2 T := by
  have hc : a.size ∉ T := h.size_not_mem
  rw [gather_snd]
  refine (h.copy i).bind fun h => (h.setChild hc (h.avoids i hi).firstChild).bind fun h => ?_
  exact (h.setLabel hi label).bind fun h => (h.setKind hi .nonTerminal).bind fun h =>
    h.setChild hi (by simpa using hc)

theorem gatherRest (h : a.Sealed T) (hi : i ∉ T) (hc : c ∉ T) (hsiblings : ∀ x ∈ siblings, x ∉ T)
    (ho : ∀ x ∈ o, x ∉ T) : a.Frames (a.gatherRest i c siblings o) T := by
  cases hfirst : siblings.head? with
  | none =>
    rw [Arena.gatherRest, hfirst]
    exact h.refl
  | some first =>
  cases hlast : siblings.getLast? with
  | none =>
    rw [Arena.gatherRest, hfirst, hlast]
    exact h.refl
  | some last =>
  have hfirstT : ∀ x ∈ some first, x ∉ T := by simpa using hsiblings _ (List.mem_of_head? hfirst)
  have hlastT : last ∉ T := hsiblings _ (List.mem_of_getLast? hlast)
  have hsome : ∀ x ∈ some i, x ∉ T := by simpa using hi
  rw [gatherRest_eq hfirst hlast]
  dsimp only
  have hredirected : a.Frames (a.redirected c first last) T :=
    (h.updateNext hlastT (by simp)).bind fun h => h.updateNext hc hfirstT
  refine hredirected.bind fun h => ?_
  generalize a.redirected c first last = d at h ⊢
  have hchain := h.chain d.size (o := some c) (by simpa using hc)
  have hadopted : d.Frames (d.adoptedBy i (d.chain d.size (some c)) last o) T :=
    (h.adopt hsome hchain).bind fun h => h.update hi fun n hn =>
      ⟨hn.parent, hn.firstChild, ho, by simpa using hlastT⟩
  refine hadopted.bind fun h => ?_
  generalize d.adoptedBy i (d.chain d.size (some c)) last o = e at h ⊢
  split
  · next q hq => exact h.updateLast ((h.avoids i hi).parent q hq) hsome
  · exact h.refl

theorem gatherWithSiblings (h : a.Sealed T) (hi : i ∉ T) (label : String)
    (siblings : List NodeId) : a.Frames (a.gatherWithSiblings i label siblings).arena T := by
  rcases a.gatherWithSiblings_outcome i label siblings with hno | ⟨after, hfollow, hok⟩
  · exact h.of_refused hno
  · obtain ⟨hsiblings, hafter⟩ := h.follow? (h.avoids i hi).nextSibling hfollow
    rw [hok]
    exact (h.gather hi label).bind fun hgather =>
      hgather.gatherRest hi h.size_not_mem hsiblings hafter

theorem tear (h : a.Sealed T) (hi : i ∉ T) : a.Frames (a.tear i).arena T := by
  rcases a.tear_outcome i with hno | ⟨p, prev, hp, hprev, hok⟩
  · exact h.of_refused hno
  · have hp : p ∉ T := (h.avoids i hi).parent p hp
    rw [hok]
    show a.Frames (a.splice p prev i none) T
    exact h.splice hp (h.predecessor? hp hprev) hi (by simp)

/-! ## Copies -/

/-- Copies are appended to nodes outside, wherever the originals are. -/
theorem copyChildren (h : a.Sealed T) (hp : p ∉ T) {stack : List (NodeId × NodeId)}
    (hstack : ∀ e ∈ stack, e.2 ∉ T) (l : List NodeId) :
    a.Frames (copyChildren p l stack a).2 T ∧ ∀ e ∈ (copyChildren p l stack a).1, e.2 ∉ T := by
  induction l generalizing a stack with
  | nil => exact ⟨h.refl, hstack⟩
  | cons i l ih =>
    have hc : a.size ∉ T := h.size_not_mem
    have hadd : a.Frames ((a.copy i).2.addChild p a.size) T :=
      (h.copy i).bind fun h => h.addChild hp hc
    rw [copyChildren_cons]
    generalize (a.copy i).2.addChild p a.size = b at hadd ⊢
    have hpushed : ∀ e ∈ if (b.node i).firstChild.isSome then (i, a.size) :: stack else stack,
        e.2 ∉ T := by
      intro e he
      split at he
      · rcases List.mem_cons.mp he with rfl | he
        · exact hc
        · exact hstack e he
      · exact hstack e he
    obtain ⟨hframes, hstack⟩ := ih hadd.sealed hpushed
    exact ⟨hadd.bind fun _ => hframes, hstack⟩

theorem copyPending (h : a.Sealed T) {stack : List (NodeId × NodeId)}
    (hstack : ∀ e ∈ stack, e.2 ∉ T) (n : Nat) : a.Frames (copyPending n stack a) T := by
  induction n generalizing a stack with
  | zero => exact h.refl
  | succ n ih =>
    cases stack with
    | nil => exact h.refl
    | cons e stack =>
      obtain ⟨i, c⟩ := e
      have hc : c ∉ T := hstack (i, c) List.mem_cons_self
      obtain ⟨hframes, hstack⟩ := h.copyChildren hc
        (fun e he => hstack e (List.mem_cons_of_mem _ he)) (a.children i)
      exact hframes.bind fun h => ih h hstack

theorem cloneSubtree (h : a.Sealed T) (i : NodeId) : a.Frames (a.cloneSubtree i).2 T := by
  refine (h.copy i).bind fun hcopy => hcopy.copyPending (fun e he => ?_) _
  obtain rfl := List.mem_singleton.mp he
  exact h.size_not_mem

theorem tearInto (h : a.Sealed T) (hi : i ∉ T) (key : String) :
    a.Frames (a.tearInto i key).arena T := by
  rcases a.tearInto_outcome i key with hno | ⟨p, prev, hp, hprev, hok⟩
  · exact h.of_refused hno
  · have hp : p ∉ T := (h.avoids i hi).parent p hp
    have hprev := h.predecessor? hp hprev
    rw [hok]
    refine (h.cloneSubtree i).bind fun h => ?_
    show (a.cloneSubtree i).2.Frames
      (((a.cloneSubtree i).2.updateStore ((a.cloneSubtree i).2.node p).store fun s =>
        s.insert key a.size).splice p prev i none) T
    exact (h.updateStore _ _).bind fun h => h.splice hp hprev hi (by simp)

theorem insert (h : a.Sealed T) (hi : i ∉ T) (position : Nat) (key : String) :
    a.Frames (a.insert i position key).arena T := by
  have hc : a.size ∉ T := h.size_not_mem
  rcases a.insert_outcome i position key with hno | ⟨stored, prev, -, hprev, hok⟩
  · exact h.of_refused hno
  · rw [hok]
    exact (h.cloneSubtree stored).bind fun h =>
      h.linkAfter hi (fun x hx => h.children hi x (hprev x hx)) hc

end Sealed

/-! ## The tree of a root -/

/-- **The tree of a root is sealed** in a linked arena. -/
theorem Linked.sealed_tree (h : a.Linked) (hr : r < a.size) (hroot : (a.node r).parent = none) :
    a.Sealed {x | a.Within x r} where
  lt_size x hx := by
    rcases within_iff.mp hx with rfl | hx
    · exact hr
    · exact hx.lt_size
  avoids x hx := by
    have hchild : ∀ c ∈ a.children x, ¬ a.Within c r := by
      intro c hc hcr
      have hcx : (a.node c).parent = some x := h.mem_children.mp hc
      have hne : c ≠ r := by
        rintro rfl
        simp [hroot] at hcx
      exact hx ((hcr.below hne).within_parent hcx)
    have hlist := h.childList x
    refine ⟨fun p hp hpr => hx ((Within.of_parent hp).trans hpr), fun c hc => ?_, fun s hs => ?_,
      fun c hc => ?_⟩
    · exact hchild c (List.mem_of_head? (hlist.firstChild ▸ hc))
    · -- a node with a sibling has a parent, and shares it with the sibling
      intro hsr
      cases hp : (a.node x).parent with
      | none =>
        rw [h.nextSibling_of_root hp] at hs
        cases hs
      | some p =>
        obtain ⟨before, after, hlist⟩ := h.exists_children_eq hp
        rw [h.nextSibling_eq hlist] at hs
        have hsp : (a.node s).parent = some p :=
          h.mem_children.mp (by simp [hlist, List.mem_of_head? hs])
        have hne : s ≠ r := by
          rintro rfl
          simp [hroot] at hsp
        exact hx ((Within.of_parent hp).trans ((hsr.below hne).within_parent hsp))
    · exact hchild c (List.mem_of_getLast? (hlist.lastChild ▸ hc))

/-- The tree of a root that was left alone has the nodes that it had. -/
theorem Frames.within_iff (h : a.Frames b {x | a.Within x r}) : b.Within x r ↔ a.Within x r := by
  constructor
  · intro hxr
    induction hxr using Relation.ReflTransGen.head_induction_on with
    | refl => rfl
    | @head x p hxp _ ih =>
      by_contra hx
      exact (h.sealed.avoids x hx).parent p hxp ih
  · intro hxr
    induction hxr using Relation.ReflTransGen.head_induction_on with
    | refl => rfl
    | @head x p hxp hpr ih =>
      have hnode : b.node x = a.node x := h.node_eq x ((Within.of_parent hxp).trans hpr)
      exact (Within.of_parent (hnode ▸ hxp)).trans ih

end Arena

/-! ## Runs -/

namespace Command

open Arena

variable {a : Arena} {T : Set NodeId} {c : Command} {cs : List Command} {r : NodeId}

/-- The nodes that a command works on. What is cloned is only read, and siblings to be gathered are
found by following links. -/
def targets : Command → List NodeId
  | .clone _ => []
  | c => c.slots

/-- Whether a command edits the arena by itself, as opposed to carrying out actions. -/
def isEdit : Command → Bool
  | .apply .. | .transform .. | .toAst .. => false
  | _ => true

/-- **One step.** A command that works on nodes outside a sealed set leaves the set alone. -/
theorem frames_run (h : a.Sealed T) (hedit : c.isEdit) (hc : ∀ i ∈ c.targets, i ∉ T) :
    a.Frames (c.run a).arena T := by
  cases c with
  | make label kind left right => exact h.make label kind left right
  | makeSymbol symbols label left right => exact h.make _ _ left right
  | push p label kind left right =>
    exact (h.make label kind left right).bind fun hmake =>
      hmake.addChild (hc p (by simp [targets, slots])) h.size_not_mem
  | addChild p child =>
    cases child with
    | none => exact h.refl
    | some child =>
      exact h.addChild (hc p (by simp [targets, slots])) (hc child (by simp [targets, slots]))
  | setChild p child =>
    exact h.setChild (hc p (by simp [targets, slots]))
      fun x hx => hc x (by simp [targets, slots, Option.mem_def.mp hx])
  | setSibling i sibling =>
    exact h.setSibling (hc i (by simp [targets, slots]))
      fun x hx => hc x (by simp [targets, slots, Option.mem_def.mp hx])
  | setParent i parent =>
    exact h.setParent (hc i (by simp [targets, slots]))
      fun x hx => hc x (by simp [targets, slots, Option.mem_def.mp hx])
  | deleteChild p child =>
    simpa only [run, Outcome.arena_map] using
      h.deleteChild (hc p (by simp [targets, slots])) (hc child (by simp [targets, slots]))
  | setLabel i label => exact h.setLabel (hc i (by simp [targets, slots])) label
  | setKind i kind => exact h.setKind (hc i (by simp [targets, slots])) kind
  | setLeft i left => exact h.setLeft (hc i (by simp [targets, slots])) left
  | setRight i right => exact h.setRight (hc i (by simp [targets, slots])) right
  | foldOver i =>
    simpa only [run, Outcome.arena_map] using h.foldOver (hc i (by simp [targets, slots]))
  | foldUnder i =>
    simpa only [run, Outcome.arena_map] using h.foldUnder (hc i (by simp [targets, slots]))
  | gather i label => exact h.gather (hc i (by simp [targets, slots])) label
  | gatherWithSiblings i label siblings =>
    simpa only [run, Outcome.arena_map] using
      h.gatherWithSiblings (hc i (by simp [targets, slots])) label siblings
  | tear i => simpa only [run, Outcome.arena_map] using h.tear (hc i (by simp [targets, slots]))
  | tearInto i key =>
    simpa only [run, Outcome.arena_map] using h.tearInto (hc i (by simp [targets, slots])) key
  | insert i position key =>
    simpa only [run, Outcome.arena_map] using
      h.insert (hc i (by simp [targets, slots])) position key
  | clone i => exact h.cloneSubtree i
  | apply action i input => simp [isEdit] at hedit
  | transform rules i input => simp [isEdit] at hedit
  | toAst rules root input => simp [isEdit] at hedit

/-- **A run** of such commands leaves the set alone. -/
theorem frames_runAll (h : a.Sealed T)
    (hcs : ∀ c ∈ cs, c.isEdit ∧ ∀ i ∈ c.targets, i ∉ T) : a.Frames (runAll cs a) T := by
  induction cs generalizing a with
  | nil => exact h.refl
  | cons c cs ih =>
    obtain ⟨hedit, hc⟩ := hcs c List.mem_cons_self
    exact (frames_run h hedit hc).bind fun h =>
      ih h fun c hmem => hcs c (List.mem_cons_of_mem _ hmem)

/-- **Trees of one arena do not interfere.** Commands that work on nodes of other trees leave the
tree of a root as it is, with all fields and links of its nodes, whether they succeed or fail. -/
theorem node_eq_of_run (ha : a.Linked) (hr : r < a.size) (hroot : (a.node r).parent = none)
    (hcs : ∀ c ∈ cs, c.isEdit ∧ ∀ i ∈ c.targets, ¬ a.Within i r) :
    ∀ x, ((runAll cs a).Within x r ↔ a.Within x r) ∧
      (a.Within x r → (runAll cs a).node x = a.node x) := by
  have hframes := frames_runAll (ha.sealed_tree hr hroot) hcs
  exact fun x => ⟨hframes.within_iff, hframes.node_eq x⟩

/-- The tree of node 0, where node 1 was torn with its child, and the stored copy, nodes 4 and 5. -/
def tornTree : Arena :=
  runAll [.make "r" .nonTerminal 0 3, .push 0 "x" .nonTerminal 0 2, .push 1 "y" .terminal 0 1,
    .push 0 "z" .terminal 2 3, .tearInto 1 "k"] {}

theorem linked_tornTree : tornTree.Linked :=
  (runAll_wellFormed wellFormed_empty (by decide)).linked

/-- What was torn is inserted again and the copy is edited; the stored subtree is cloned. -/
def editsBeside : List Command :=
  [.insert 0 0 "k", .deleteChild 6 7, .clone 4, .foldOver 6, .setLabel 1 "w",
    .gatherWithSiblings 3 "g" [4], .tear 3]

theorem node_eq_of_editsBeside :
    (runAll editsBeside tornTree).node 4 = tornTree.node 4 ∧
      (runAll editsBeside tornTree).node 5 = tornTree.node 5 := by
  have hroot : (tornTree.node 4).parent = none := by decide
  have hparent : (tornTree.node 5).parent = some 4 := by decide
  have hother : ∀ c ∈ editsBeside, c.isEdit ∧ ∀ i ∈ c.targets, tornTree.root i ≠ 4 := by decide
  have hrun := node_eq_of_run linked_tornTree (by decide) hroot fun c hc =>
    ⟨(hother c hc).1, fun i hi hin =>
      (hother c hc).2 i hi (linked_tornTree.root_eq_iff.mpr ⟨hin, hroot⟩)⟩
  exact ⟨(hrun 4).2 (.refl _ 4), (hrun 5).2 (.of_parent hparent)⟩

end Command

end ParseTree
