import ParseTree.Proofs.CloneSize
import ParseTree.Proofs.Contents

/-!
# One arena behind another

`a ++ b` has the nodes and tear stores of `b` behind those of `a`. Links lead to the same nodes as
in `b`, which are now found at higher slots. What an operation does to the nodes of `b` does not
depend on what stands in front of them: it can be carried out in `b`, and `a` be put in front
afterwards. Every primitive has an equation that says so.

Reading and writing links need no further hypothesis. Bounds on the length of chains are larger in
`a ++ b` than in `b`, so that equations about whole lists ask for the chains to end.

## Main results

* `update_append`, `updateStore_append`, `make_append`, `copy_append`: writing behind `a`.
* `children_append`, `predecessor?_append`: lists of a linked arena, behind `a`.
* `splice_append`, `promote_append`, `addChild_append`, `linkAfter_append`: link primitives.
-/

namespace ParseTree

/-- The node as it is found behind arena `a`. -/
def Node.behind (a : Arena) (n : Node) : Node :=
  { n with
    identity := a.nextIdentity + n.identity
    store := a.stores.size + n.store
    parent := n.parent.map (a.size + ·)
    firstChild := n.firstChild.map (a.size + ·)
    nextSibling := n.nextSibling.map (a.size + ·)
    lastChild := n.lastChild.map (a.size + ·) }

/-- The tear store as it is found behind arena `a`. -/
def TearStore.behind (a : Arena) (s : TearStore) : TearStore :=
  ⟨s.entries.map fun e => (e.1, a.size + e.2)⟩

theorem TearStore.find?_behind (a : Arena) (s : TearStore) (key : String) :
    (s.behind a).find? key = (s.find? key).map (a.size + ·) := by
  obtain ⟨entries⟩ := s
  simp only [find?, behind]
  induction entries with
  | nil => rfl
  | cons e entries ih =>
    rw [List.map_cons, List.lookup_cons, List.lookup_cons, ih]
    cases key == e.1 <;> rfl

theorem TearStore.insert_behind (a : Arena) (s : TearStore) (key : String) (root : NodeId) :
    (s.behind a).insert key (a.size + root) = (s.insert key root).behind a := by
  simp [insert, behind, List.filter_map, Function.comp_def]

attribute [ext] Arena

namespace Arena

/-- **The nodes of `b` behind those of `a`**, and the same for tear stores. -/
instance : Append Arena where
  append a b :=
    { nodes := a.nodes ++ b.nodes.map (Node.behind a)
      stores := a.stores ++ b.stores.map (TearStore.behind a)
      nextIdentity := a.nextIdentity + b.nextIdentity }

variable {a b d : Arena} {i p c : NodeId} {o : Option NodeId} {l : List NodeId}
  {stack : List (NodeId × NodeId)}

theorem nodes_append (a b : Arena) : (a ++ b).nodes = a.nodes ++ b.nodes.map (Node.behind a) :=
  rfl

theorem stores_append (a b : Arena) :
    (a ++ b).stores = a.stores ++ b.stores.map (TearStore.behind a) :=
  rfl

theorem nextIdentity_append (a b : Arena) :
    (a ++ b).nextIdentity = a.nextIdentity + b.nextIdentity :=
  rfl

@[simp] theorem size_append (a b : Arena) : (a ++ b).size = a.size + b.size := by
  simp [size, nodes_append]

@[simp] theorem append_empty (a : Arena) : a ++ ({} : Arena) = a := by
  ext1
  · simp [nodes_append]
  · simp [stores_append]
  · rfl

/-! ## Reading -/

theorem node_append (a : Arena) (hi : i < b.size) :
    (a ++ b).node (a.size + i) = (b.node i).behind a := by
  have hi : i < b.nodes.size := hi
  simp [node, nodes_append, size, Array.getD_eq_getD_getElem?, hi]

/-- A slot that is not in `b` is not in `a ++ b`. -/
theorem node_append_of_le (a : Arena) (hi : b.size ≤ i) : (a ++ b).node (a.size + i) = .blank := by
  refine node_of_size_le ?_
  rw [size_append]
  exact Nat.add_le_add_left hi _

/-- What does not depend on identity, store and links is read as in `b`. -/
theorem read_append {α : Type} {f : Node → α} (a b : Arena) (i : NodeId)
    (hf : ∀ n : Node, f (n.behind a) = f n) : f ((a ++ b).node (a.size + i)) = f (b.node i) := by
  rcases Nat.lt_or_ge i b.size with hi | hi
  · rw [node_append a hi, hf]
  · rw [node_append_of_le a hi, node_of_size_le hi]

@[simp] theorem label_append (a b : Arena) (i : NodeId) :
    ((a ++ b).node (a.size + i)).label = (b.node i).label :=
  read_append a b i fun _ => rfl

@[simp] theorem left_append (a b : Arena) (i : NodeId) :
    ((a ++ b).node (a.size + i)).left = (b.node i).left :=
  read_append a b i fun _ => rfl

@[simp] theorem right_append (a b : Arena) (i : NodeId) :
    ((a ++ b).node (a.size + i)).right = (b.node i).right :=
  read_append a b i fun _ => rfl

/-- A link leads to the same node as in `b`. -/
theorem link_append {f : Node → Option NodeId} (a b : Arena) (i : NodeId)
    (hf : ∀ n : Node, f (n.behind a) = (f n).map (a.size + ·)) (hblank : f .blank = none) :
    f ((a ++ b).node (a.size + i)) = (f (b.node i)).map (a.size + ·) := by
  rcases Nat.lt_or_ge i b.size with hi | hi
  · rw [node_append a hi, hf]
  · rw [node_append_of_le a hi, node_of_size_le hi, hblank]
    rfl

@[simp] theorem parent_append (a b : Arena) (i : NodeId) :
    ((a ++ b).node (a.size + i)).parent = (b.node i).parent.map (a.size + ·) :=
  link_append a b i (fun _ => rfl) rfl

@[simp] theorem firstChild_append (a b : Arena) (i : NodeId) :
    ((a ++ b).node (a.size + i)).firstChild = (b.node i).firstChild.map (a.size + ·) :=
  link_append a b i (fun _ => rfl) rfl

@[simp] theorem nextSibling_append (a b : Arena) (i : NodeId) :
    ((a ++ b).node (a.size + i)).nextSibling = (b.node i).nextSibling.map (a.size + ·) :=
  link_append a b i (fun _ => rfl) rfl

@[simp] theorem lastChild_append (a b : Arena) (i : NodeId) :
    ((a ++ b).node (a.size + i)).lastChild = (b.node i).lastChild.map (a.size + ·) :=
  link_append a b i (fun _ => rfl) rfl

/-- Entries lead to the same trees as in `b`. -/
theorem torn?_append (a : Arena) (hi : i < b.size) (key : String) :
    (a ++ b).torn? (a.size + i) key = (b.torn? i key).map (a.size + ·) := by
  have hstore : ((a ++ b).node (a.size + i)).store = a.stores.size + (b.node i).store := by
    rw [node_append a hi]
    rfl
  rw [torn?, torn?, storeOf, storeOf, hstore]
  by_cases hs : (b.node i).store < b.stores.size
  · rw [← TearStore.find?_behind]
    simp [stores_append, Array.getD_eq_getD_getElem?, hs]
  · simp [stores_append, Array.getD_eq_getD_getElem?, hs]

/-! ## Writing -/

/-- Changing a member behind other members. -/
theorem modify_append {α : Type} (xs ys : Array α) (m : Nat) {u f g : α → α}
    (h : ∀ x, g (u x) = u (f x)) :
    (xs ++ ys.map u).modify (xs.size + m) g = xs ++ (ys.modify m f).map u := by
  refine Array.ext (by simp) fun k hk _ => ?_
  rw [Array.getElem_modify]
  rcases Nat.lt_or_ge k xs.size with hlt | hle
  · rw [if_neg (by omega), Array.getElem_append_left hlt, Array.getElem_append_left hlt]
  · rw [Array.getElem_append_right hle, Array.getElem_append_right hle, Array.getElem_map,
      Array.getElem_map, Array.getElem_modify]
    by_cases hm : m = k - xs.size
    · rw [if_pos (by omega), if_pos hm, h]
    · rw [if_neg (by omega), if_neg hm]

/-- **Writing behind `a`** writes the same into `b`. -/
theorem update_append {f g : Node → Node} (a b : Arena) (i : NodeId)
    (h : ∀ n : Node, g (n.behind a) = (f n).behind a) :
    (a ++ b).update (a.size + i) g = a ++ b.update i f := by
  ext1
  · exact modify_append a.nodes b.nodes i h
  · rfl
  · rfl

theorem updateStore_append {f g : TearStore → TearStore} (a b : Arena) (s : Nat)
    (h : ∀ t : TearStore, g (t.behind a) = (f t).behind a) :
    (a ++ b).updateStore (a.stores.size + s) g = a ++ b.updateStore s f := by
  ext1
  · rfl
  · exact modify_append a.stores b.stores s h
  · rfl

theorem make_append (a b : Arena) (label : String) (kind : Kind) (left right : Nat) :
    ((a ++ b).make label kind left right).2 = a ++ (b.make label kind left right).2 := by
  ext1
  · simp [make, nodes_append, stores_append, nextIdentity_append, Node.behind]
  · simp [make, stores_append, TearStore.behind]
  · rfl

theorem copy_append (a : Arena) (hi : i < b.size) :
    ((a ++ b).copy (a.size + i)).2 = a ++ (b.copy i).2 := by
  ext1
  · simp only [copy, node_append a hi]
    simp [nodes_append, nextIdentity_append, Node.detached, Node.behind]
  · rfl
  · rfl

/-! ## Chains -/

/-- Following links meets the same nodes as in `b`. -/
theorem chain_append (a b : Arena) (n : Nat) (o : Option NodeId) :
    (a ++ b).chain n (o.map (a.size + ·)) = (b.chain n o).map (a.size + ·) := by
  induction n generalizing o with
  | zero => rfl
  | succ n ih =>
    cases o with
    | none => simp
    | some i => rw [Option.map_some, chain_some, chain_some, nextSibling_append, ih, List.map_cons]

theorem follow?_append (a b : Arena) (o : Option NodeId) (l : List NodeId) :
    (a ++ b).follow? (o.map (a.size + ·)) (l.map (a.size + ·)) =
      (b.follow? o l).map (Option.map (a.size + ·)) := by
  induction l generalizing o with
  | nil => rfl
  | cons i l ih =>
    have hiff : o.map (a.size + ·) = some (a.size + i) ↔ o = some i := by
      cases o <;> simp
    rw [List.map_cons, follow?, follow?, nextSibling_append, ih]
    by_cases ho : o = some i
    · rw [if_pos ho, if_pos (hiff.mpr ho)]
    · rw [if_neg ho, if_neg (ho ∘ hiff.mp)]
      rfl

/-- The chain that begins with `o` comes to an end. -/
def Ends (a : Arena) (o : Option NodeId) : Prop :=
  ∃ l, a.Strung none l ∧ o = l.head? ∧ ∀ x ∈ l, x < a.size

theorem Ends.lt_size (h : b.Ends o) : ∀ x ∈ o, x < b.size := by
  obtain ⟨l, -, rfl, hlt⟩ := h
  exact fun x hx => hlt x (List.mem_of_head? hx)

theorem ends_none (a : Arena) : a.Ends none :=
  ⟨[], trivial, rfl, by simp⟩

theorem ends_of_nextSibling_none (hc : c < b.size) (hnext : (b.node c).nextSibling = none) :
    b.Ends (some c) :=
  ⟨[c], ⟨hnext, trivial⟩, rfl, by simpa using hc⟩

theorem Linked.ends_firstChild (h : b.Linked) (i : NodeId) : b.Ends (b.node i).firstChild :=
  ⟨b.children i, (h.childList i).strung, (h.childList i).firstChild, fun _ => h.lt_size_of_mem⟩

theorem Linked.ends_nextSibling (h : b.Linked) (i : NodeId) : b.Ends (b.node i).nextSibling := by
  cases hi : (b.node i).parent with
  | none =>
    rw [h.nextSibling_of_root hi]
    exact b.ends_none
  | some p =>
    obtain ⟨hstr, hnext⟩ := h.strung_rightSiblings i
    obtain ⟨before, after, hp⟩ := h.exists_children_eq hi
    refine ⟨_, hstr, hnext, fun x hx => h.lt_size_of_mem (p := p) ?_⟩
    rw [h.rightSiblings_eq hp] at hx
    rw [hp]
    exact List.mem_append_right _ (List.mem_cons_of_mem _ hx)

/-- If a chain comes to an end, the larger bound of `a ++ b` makes no difference. -/
theorem Ends.chain_append (h : b.Ends o) (a : Arena) :
    (a ++ b).chain (a ++ b).size (o.map (a.size + ·)) = (b.chain b.size o).map (a.size + ·) := by
  obtain ⟨l, hstr, rfl, hlt⟩ := h
  have hlen : l.length ≤ b.size := length_le_size hstr.nodup hlt
  have hlen' : l.length ≤ (a ++ b).size := by
    rw [size_append]
    exact Nat.le_trans hlen (Nat.le_add_left ..)
  rw [Arena.chain_append, hstr.chain_eq hlen, hstr.chain_eq hlen']

theorem Linked.children_append (h : b.Linked) (a : Arena) (i : NodeId) :
    (a ++ b).children (a.size + i) = (b.children i).map (a.size + ·) := by
  rw [children, firstChild_append, (h.ends_firstChild i).chain_append]
  rfl

theorem Linked.rightSiblings_append (h : b.Linked) (a : Arena) (i : NodeId) :
    (a ++ b).rightSiblings (a.size + i) = (b.rightSiblings i).map (a.size + ·) := by
  rw [rightSiblings, nextSibling_append, (h.ends_nextSibling i).chain_append]
  rfl

/-- The nodes that make up a list of `b` make up a list of `a ++ b`. -/
theorem IsChildList.append (h : b.IsChildList i l) (a : Arena) :
    (a ++ b).IsChildList (a.size + i) (l.map (a.size + ·)) where
  firstChild := by rw [firstChild_append, h.firstChild, List.head?_map]
  strung := by
    have hstr := h.strung
    clear h
    induction l with
    | nil => trivial
    | cons c l ih =>
      refine ⟨?_, ih hstr.2⟩
      rw [nextSibling_append, hstr.1, Option.or_none, Option.or_none, List.head?_map]
  lastChild := by rw [lastChild_append, h.lastChild, List.getLast?_map]
  parent := by
    intro x hx
    obtain ⟨c, hc, rfl⟩ := List.mem_map.mp hx
    rw [parent_append, h.parent c hc]
    rfl

theorem Linked.predecessor?_append (h : b.Linked) (a : Arena) (p c : NodeId) :
    (a ++ b).predecessor? (a.size + p) (a.size + c) =
      (b.predecessor? p c).map (Option.map (a.size + ·)) := by
  by_cases hc : c ∈ b.children p
  · obtain ⟨before, after, hp⟩ := List.append_of_mem hc
    have hlist := h.childList p
    rw [hp] at hlist
    have hlist' := hlist.append a
    rw [List.map_append, List.map_cons] at hlist'
    rw [hlist.predecessor?_eq, hlist'.predecessor?_eq, List.getLast?_map]
    rfl
  · have hnone : b.predecessor? p c = none := by
      rw [← Option.not_isSome_iff_eq_none, isSome_predecessor?]
      exact hc
    rw [hnone, Option.map_none, ← Option.not_isSome_iff_eq_none, isSome_predecessor?,
      h.children_append]
    simpa using hc

/-! ## Link primitives -/

theorem setLabel_append (a b : Arena) (i : NodeId) (label : String) :
    (a ++ b).setLabel (a.size + i) label = a ++ b.setLabel i label :=
  update_append a b i fun _ => rfl

theorem setKind_append (a b : Arena) (i : NodeId) (kind : Kind) :
    (a ++ b).setKind (a.size + i) kind = a ++ b.setKind i kind :=
  update_append a b i fun _ => rfl

theorem updateNext_append (a b : Arena) (i : NodeId) (o : Option NodeId) :
    (a ++ b).update (a.size + i) (fun n => { n with nextSibling := o.map (a.size + ·) }) =
      a ++ b.update i fun n => { n with nextSibling := o } :=
  update_append a b i fun _ => rfl

theorem updateFirst_append (a b : Arena) (i : NodeId) (o : Option NodeId) :
    (a ++ b).update (a.size + i) (fun n => { n with firstChild := o.map (a.size + ·) }) =
      a ++ b.update i fun n => { n with firstChild := o } :=
  update_append a b i fun _ => rfl

theorem updateLast_append (a b : Arena) (i : NodeId) (o : Option NodeId) :
    (a ++ b).update (a.size + i) (fun n => { n with lastChild := o.map (a.size + ·) }) =
      a ++ b.update i fun n => { n with lastChild := o } :=
  update_append a b i fun _ => rfl

theorem adopt_append (a b : Arena) (o : Option NodeId) (l : List NodeId) :
    (a ++ b).adopt (o.map (a.size + ·)) (l.map (a.size + ·)) = a ++ b.adopt o l := by
  induction l generalizing b with
  | nil => rfl
  | cons i l ih =>
    have hparent : (a ++ b).setParent (a.size + i) (o.map (a.size + ·)) = a ++ b.setParent i o :=
      update_append a b i fun _ => rfl
    rw [List.map_cons, adopt, List.foldl_cons, hparent]
    exact ih (b.setParent i o)

theorem linkFront_append (a b : Arena) (p : NodeId) (prev o : Option NodeId) :
    (a ++ b).linkFront (a.size + p) (prev.map (a.size + ·)) (o.map (a.size + ·)) =
      a ++ b.linkFront p prev o := by
  cases prev with
  | none => exact updateFirst_append a b p o
  | some q => exact updateNext_append a b q o

theorem linkBack_append (a b : Arena) (p : NodeId) (o last : Option NodeId) :
    (a ++ b).linkBack (a.size + p) (o.map (a.size + ·)) (last.map (a.size + ·)) =
      a ++ b.linkBack p o last := by
  cases o with
  | none => exact updateLast_append a b p last
  | some _ => rfl

theorem setChild_append (h : b.Ends o) (a : Arena) (p : NodeId) :
    (a ++ b).setChild (a.size + p) (o.map (a.size + ·)) = a ++ b.setChild p o := by
  rw [setChild, h.chain_append, show some (a.size + p) = (some p).map (a.size + ·) from rfl,
    adopt_append, List.getLast?_map]
  exact update_append a _ p fun _ => rfl

/-- A root that is appended is a chain of its own. -/
theorem Linked.addChild_append (h : b.Linked) (a : Arena) (p : NodeId) (hc : c < b.size)
    (hroot : (b.node c).parent = none) :
    (a ++ b).addChild (a.size + p) (a.size + c) = a ++ b.addChild p c := by
  have hnext : (b.node c).nextSibling = none := h.nextSibling_of_root hroot
  rw [Arena.addChild, Arena.addChild, lastChild_append]
  cases hlast : (b.node p).lastChild with
  | none => exact setChild_append (ends_of_nextSibling_none hc hnext) a p
  | some last =>
    have hne : last ≠ c := by
      rintro rfl
      rw [(h.childList p).lastChild] at hlast
      simp [h.mem_children.mp (List.mem_of_getLast? hlast)] at hroot
    have hends : (b.update last fun n => { n with nextSibling := some c }).Ends (some c) := by
      refine ends_of_nextSibling_none (by rwa [size_update]) ?_
      rw [node_update_of_ne _ hne, hnext]
    have hfirst := updateNext_append a b last (some c)
    have hsome (x : NodeId) : some (a.size + x) = (some x).map (a.size + ·) := rfl
    dsimp only [Option.map_some]
    rw [hsome c, hfirst, hends.chain_append, hsome p, adopt_append, List.getLast?_map]
    exact updateLast_append a _ p _

theorem splice_append (a b : Arena) (p : NodeId) (prev : Option NodeId) (i : NodeId)
    (e : Option (NodeId × NodeId)) :
    (a ++ b).splice (a.size + p) (prev.map (a.size + ·)) (a.size + i)
        (e.map (Prod.map (a.size + ·) (a.size + ·))) = a ++ b.splice p prev i e := by
  have hdetach (d : Arena) : (a ++ d).update (a.size + i)
      (fun n => { n with parent := none, nextSibling := none }) =
        a ++ d.update i fun n => { n with parent := none, nextSibling := none } :=
    update_append a d i fun _ => rfl
  cases e with
  | none =>
    rw [Option.map_none, splice_none, splice_none, nextSibling_append, linkFront_append,
      linkBack_append, hdetach]
  | some e =>
    obtain ⟨head, tail⟩ := e
    rw [Option.map_some, Prod.map_apply, splice_some, splice_some, nextSibling_append,
      updateNext_append, show some (a.size + head) = (some head).map (a.size + ·) from rfl,
      linkFront_append, show some (a.size + tail) = (some tail).map (a.size + ·) from rfl,
      linkBack_append, hdetach]

theorem ends_map (a : Arena) (l : List NodeId) :
    ends (l.map (a.size + ·)) = (ends l).map (Prod.map (a.size + ·) (a.size + ·)) := by
  rw [ends, ends, List.head?_map, List.getLast?_map]
  cases l.head? <;> cases l.getLast? <;> rfl

theorem Linked.promote_append (h : b.Linked) (a : Arena) (p : NodeId) (prev : Option NodeId)
    (c : NodeId) :
    (a ++ b).promote (a.size + p) (prev.map (a.size + ·)) (a.size + c) =
      a ++ b.promote p prev c := by
  rw [promote_eq, promote_eq, h.children_append, ends_map,
    show some (a.size + p) = (some p).map (a.size + ·) from rfl, adopt_append, splice_append]
  exact update_append a _ c fun _ => rfl

theorem nextOf_append (a b : Arena) (i : NodeId) (prev : Option NodeId) :
    (a ++ b).nextOf (a.size + i) (prev.map (a.size + ·)) =
      (b.nextOf i prev).map (a.size + ·) := by
  cases prev with
  | none => exact firstChild_append a b i
  | some q => exact nextSibling_append a b q

theorem linkAfter_append (a b : Arena) (i : NodeId) (prev : Option NodeId) (c : NodeId) :
    (a ++ b).linkAfter (a.size + i) (prev.map (a.size + ·)) (a.size + c) =
      a ++ b.linkAfter i prev c := by
  have hlink (d : Arena) : (a ++ d).update (a.size + c) (fun n =>
      { n with parent := some (a.size + i), nextSibling := (b.nextOf i prev).map (a.size + ·) }) =
        a ++ d.update c fun n => { n with parent := some i, nextSibling := b.nextOf i prev } :=
    update_append a d c fun _ => rfl
  rw [linkAfter_eq, linkAfter_eq, nextOf_append,
    show some (a.size + c) = (some c).map (a.size + ·) from rfl, linkFront_append, hlink,
    linkBack_append]

/-! ## Copies of subtrees -/

/-- A round of counting in `b` is a round behind `a`, on a stack of nodes of `b`. -/
theorem Linked.countRound_append (h : b.Linked) (a : Arena) :
    Function.Semiconj (Prod.map (List.map (a.size + ·)) id) b.countRound (a ++ b).countRound := by
  rintro ⟨_ | ⟨i, stack⟩, count⟩
  · rfl
  · have hfilter : ((b.children i).map (a.size + ·)).filter
        (fun c => ((a ++ b).node c).firstChild.isSome) =
          ((b.children i).filter fun c => (b.node c).firstChild.isSome).map (a.size + ·) := by
      rw [List.filter_map]
      refine congrArg _ (List.filter_congr fun c _ => ?_)
      rw [Function.comp_apply, firstChild_append, Option.isSome_map]
    simp only [Prod.map_apply, id_eq, List.map_cons, countRound_cons, h.children_append, hfilter,
      List.length_map, List.map_append, List.map_reverse]

/-- Subtrees of `b` are as large as they were. -/
theorem Linked.countNodes_append (h : b.Linked) (a : Arena) (i : NodeId) :
    (a ++ b).countNodes (a.size + i) = b.countNodes i := by
  have hle : b.countNodes i ≤ surplus + (a ++ b).size := by
    have hsize := h.countNodes_le i
    have hsurplus := two_le_surplus
    rw [size_append]
    omega
  have hrounds := ((h.countRound_append a).iterate_right (surplus + (a ++ b).size)) ([i], 1)
  rw [h.iterate_countRound_root hle] at hrounds
  rw [countNodes, countPending_eq_iterate]
  exact congrArg Prod.snd hrounds.symm

theorem Extension.copyChildren_append (hb : b.Linked) (h : b.Extension d) (a : Arena)
    (hp : b.size ≤ p) (hpd : p < d.size) (hl : ∀ x ∈ l, x < d.size) :
    Arena.copyChildren (a.size + p) (l.map (a.size + ·))
        (stack.map (Prod.map (a.size + ·) (a.size + ·))) (a ++ d) =
      ((Arena.copyChildren p l stack d).1.map (Prod.map (a.size + ·) (a.size + ·)),
        a ++ (Arena.copyChildren p l stack d).2) := by
  induction l generalizing d stack with
  | nil => rfl
  | cons i l ih =>
    have hi : i < d.size := hl i List.mem_cons_self
    have hadd := h.addChild_copy hb hp hpd i
    have hcopy := h.linked.extension_copy i
    have heq : ((a ++ d).copy (a.size + i)).2.addChild (a.size + p) (a ++ d).size =
        a ++ (d.copy i).2.addChild p d.size := by
      rw [copy_append a hi, size_append]
      exact hcopy.linked.addChild_append a p hcopy.size_lt hcopy.root
    have hsize : ((d.copy i).2.addChild p d.size).size = d.size + 1 := by simp
    have hl' : ∀ x ∈ l, x < ((d.copy i).2.addChild p d.size).size := fun x hx => by
      rw [hsize]
      exact Nat.lt_succ_of_lt (hl x (List.mem_cons_of_mem _ hx))
    rw [List.map_cons, copyChildren_cons, copyChildren_cons]
    dsimp only
    rw [heq, firstChild_append, Option.isSome_map, size_append]
    have hpush (push : Bool) : (if push = true then (a.size + i, a.size + d.size) ::
        stack.map (Prod.map (a.size + ·) (a.size + ·)) else
          stack.map (Prod.map (a.size + ·) (a.size + ·))) =
        (if push = true then (i, d.size) :: stack else stack).map
          (Prod.map (a.size + ·) (a.size + ·)) := by
      cases push <;> rfl
    rw [hpush]
    exact ih hadd (hsize ▸ Nat.lt_succ_of_lt hpd) hl'

theorem Extension.copyPending_append (hb : b.Linked) (h : b.Extension d) (a : Arena)
    (hnew : b.CopiesToNew d stack) (hold : b.CopiesFromOld stack) (n : Nat) :
    Arena.copyPending n (stack.map (Prod.map (a.size + ·) (a.size + ·))) (a ++ d) =
      a ++ Arena.copyPending n stack d := by
  induction n generalizing d stack with
  | zero => rfl
  | succ n ih =>
    cases stack with
    | nil => rfl
    | cons e stack =>
      obtain ⟨i, c⟩ := e
      obtain ⟨hc, hcd⟩ := hnew (i, c) List.mem_cons_self
      have hi : i < b.size := hold (i, c) List.mem_cons_self
      have hnewRest : b.CopiesToNew d stack := fun e he => hnew e (List.mem_cons_of_mem _ he)
      have holdRest : b.CopiesFromOld stack := fun e he => hold e (List.mem_cons_of_mem _ he)
      have hkids : d.children i = b.children i := h.children_eq hb hi
      obtain ⟨hext, hnew'⟩ := h.copyChildren hb hc hcd hnewRest (d.children i)
      have hslots : ∀ k ∈ d.children i, k < b.size := by
        rw [hkids]
        exact fun k hk => hb.lt_size_of_mem hk
      obtain ⟨hold', -⟩ := copiesFromOld_copyChildren hslots holdRest c d
      rw [List.map_cons, Prod.map_apply, Arena.copyPending, Arena.copyPending,
        h.linked.children_append,
        h.copyChildren_append hb a hc hcd fun x hx => h.linked.lt_size_of_mem hx]
      exact ih hext hnew' hold'

/-- **Copying a subtree** of `b` copies it behind `b`. -/
theorem Linked.cloneSubtree_append (h : b.Linked) (a : Arena) (hi : i < b.size) :
    ((a ++ b).cloneSubtree (a.size + i)).2 = a ++ (b.cloneSubtree i).2 := by
  have hcopy : b.Extension (b.copy i).2 := h.extension_copy i
  have hnew : b.CopiesToNew (b.copy i).2 [(i, b.size)] := fun e he => by
    obtain rfl : e = (i, b.size) := List.mem_singleton.mp he
    exact ⟨Nat.le_refl _, hcopy.size_lt⟩
  have hold : b.CopiesFromOld [(i, b.size)] := fun e he => by
    obtain rfl : e = (i, b.size) := List.mem_singleton.mp he
    exact hi
  show copyPending ((a ++ b).countNodes (a.size + i)) [(a.size + i, (a ++ b).size)]
    ((a ++ b).copy (a.size + i)).2 = a ++ (b.cloneSubtree i).2
  rw [h.countNodes_append a i, copy_append a hi, size_append]
  exact hcopy.copyPending_append h a hnew hold (b.countNodes i)

end Arena

end ParseTree
