import Mathlib.Logic.Function.Basic
import ParseTree.Edit.Operators
import ParseTree.Proofs.SameLinks

/-!
# Gathering

Gathering puts a new level between a node and its children: a fresh copy takes the children over and
becomes the only child. Right siblings may then be moved behind the copy. Both steps are stated as
equations of the child lists that they change, which are two in the first step and two in the
second.

What a step does to links takes no more than child lists that are in order, so that it may be used
where a node names a parent that does not list it.

## Main results

* `HasChildLists.gatherLinks`, `HasChildLists.gatherRestLinks`: the links after either step.
* `Linked.gather`: what gathering does to the child lists.
* `Linked.gatherRest`: what moving siblings behind the copy does to them.
* `Linked.gatherWithSiblings`: both together.
* `Strung.follow?_eq_some_iff`: which nodes may be gathered.
-/

namespace ParseTree

namespace Arena

variable {a b : Arena} {i p c x : NodeId} {before after siblings : List NodeId}

/-! ## Gathering one node -/

@[simp] theorem size_setChild {child : Option NodeId} : (a.setChild p child).size = a.size := by
  simp [setChild]

@[simp] theorem stores_setChild {child : Option NodeId} :
    (a.setChild p child).stores = a.stores := by
  simp [setChild]

@[simp] theorem nextIdentity_setChild {child : Option NodeId} :
    (a.setChild p child).nextIdentity = a.nextIdentity := by
  simp [setChild]

theorem parent_setChild {child : Option NodeId} (hlt : ∀ k ∈ a.chain a.size child, k < a.size) :
    ((a.setChild p child).node x).parent =
      if x ∈ a.chain a.size child then some p else (a.node x).parent := by
  simp only [setChild, node_update, node_adopt]
  grind

theorem firstChild_setChild {child : Option NodeId} (hp : p < a.size) :
    ((a.setChild p child).node x).firstChild =
      if x = p then child else (a.node x).firstChild := by
  simp only [setChild, node_update, node_adopt, size_adopt]
  grind

theorem lastChild_setChild {child : Option NodeId} (hp : p < a.size) :
    ((a.setChild p child).node x).lastChild =
      if x = p then (a.chain a.size child).getLast? else (a.node x).lastChild := by
  simp only [setChild, node_update, node_adopt, size_adopt]
  grind

theorem nextSibling_setChild {child : Option NodeId} :
    ((a.setChild p child).node x).nextSibling = (a.node x).nextSibling := by
  simp only [setChild, node_update, node_adopt]
  grind

@[simp] theorem gather_fst (a : Arena) (i : NodeId) (label : String) :
    (a.gather i label).1 = a.size := rfl

@[simp] theorem size_gather (a : Arena) (i : NodeId) (label : String) :
    (a.gather i label).2.size = a.size + 1 := by
  simp [gather, setLabel, setKind]

@[simp] theorem stores_gather (a : Arena) (i : NodeId) (label : String) :
    (a.gather i label).2.stores = a.stores := by
  simp [gather, setLabel, setKind]

@[simp] theorem nextIdentity_gather (a : Arena) (i : NodeId) (label : String) :
    (a.gather i label).2.nextIdentity = a.nextIdentity + 1 := by
  simp [gather, setLabel, setKind]

/-- A new level between `i` and its children, before the labels are set. -/
theorem gather_snd (a : Arena) (i : NodeId) (label : String) :
    (a.gather i label).2 =
      let d := (a.copy i).2.setChild a.size ((a.copy i).2.node i).firstChild
      ((d.setLabel i label).setKind i .nonTerminal).setChild i (some a.size) :=
  rfl

/-- The links after gathering: the copy stands between `i` and the former children of `i`. -/
structure GatherLinks (a b : Arena) (i : NodeId) : Prop where
  parent : ∀ x, (b.node x).parent =
    if x = a.size then some i else if x ∈ a.children i then some a.size else (a.node x).parent
  firstChild : ∀ x, (b.node x).firstChild =
    if x = a.size then (a.children i).head? else if x = i then some a.size
    else (a.node x).firstChild
  nextSibling : ∀ x, (b.node x).nextSibling = (a.node x).nextSibling
  lastChild : ∀ x, (b.node x).lastChild =
    if x = a.size then (a.children i).getLast? else if x = i then some a.size
    else (a.node x).lastChild

theorem HasChildLists.gatherLinks (h : a.HasChildLists) (hi : i < a.size) (label : String) :
    a.GatherLinks (a.gather i label).2 i := by
  have hcopy := sameLinks_copy a i
  obtain ⟨hlists, hkids⟩ := h.of_sameLinks hcopy
  have hcs : (a.copy i).2.size = a.size + 1 := size_copy a i
  generalize hd : (a.copy i).2 = d at hcopy hlists hkids hcs
  have hlist : d.chain d.size (d.node i).firstChild = a.children i := congrFun hkids i
  have hlt : ∀ k ∈ d.chain d.size (d.node i).firstChild, k < d.size := fun k hk =>
    hlists.lt_size_of_mem (p := i) hk
  have hfree : a.node a.size = .blank := node_of_size_le (Nat.le_refl _)
  -- the labels change no link
  have hlabels : (d.setChild a.size (d.node i).firstChild).SameLinks
      (((d.setChild a.size (d.node i).firstChild).setLabel i label).setKind i .nonTerminal) :=
    (sameLinks_setLabel _ i label).trans (sameLinks_setKind _ i .nonTerminal)
  rw [gather_snd, hd]
  dsimp only
  generalize he : ((d.setChild a.size (d.node i).firstChild).setLabel i label).setKind i
    .nonTerminal = e at hlabels
  have hes : e.size = a.size + 1 := by
    rw [← he]
    simp [setLabel, setKind, hcs]
  have hsingle : e.chain e.size (some a.size) = [a.size] := by
    rw [hes, chain_some, hlabels.nextSibling, nextSibling_setChild, hcopy.nextSibling, hfree]
    simp [Node.blank]
  have hcd : a.size < d.size := hcs ▸ Nat.lt_succ_self _
  have hie : i < e.size := hes ▸ Nat.lt_succ_of_lt hi
  refine ⟨fun x => ?_, fun x => ?_, fun x => ?_, fun x => ?_⟩
  · rw [parent_setChild (by rw [hsingle, hes]; simp), hsingle, hlabels.parent,
      parent_setChild hlt, hlist, hcopy.parent]
    simp
  · rw [firstChild_setChild hie, hlabels.firstChild, firstChild_setChild hcd,
      hcopy.firstChild, hcopy.firstChild, (h i).firstChild]
    grind
  · rw [nextSibling_setChild, hlabels.nextSibling, nextSibling_setChild, hcopy.nextSibling]
  · rw [lastChild_setChild hie, hsingle, hlabels.lastChild, lastChild_setChild hcd, hlist,
      hcopy.lastChild]
    grind

namespace GatherLinks

/-- The copy has the list of `i`, which has the copy, and other lists are as they were. -/
theorem isChildList (hl : a.GatherLinks b i) (h : a.HasChildLists) (hi : i < a.size) (j : NodeId) :
    b.IsChildList j
      (Function.update (Function.update a.children i [a.size]) a.size (a.children i) j) := by
  have hfree : a.node a.size = .blank := node_of_size_le (Nat.le_refl _)
  have hne : i ≠ a.size := Nat.ne_of_lt hi
  have hold : ∀ {j x}, x ∈ a.children j → x ≠ a.size := fun hx =>
    Nat.ne_of_lt (h.lt_size_of_mem hx)
  by_cases hjc : j = a.size
  · subst hjc
    rw [Function.update_self]
    refine ⟨by simp [hl.firstChild], (h i).strung.congr fun x _ => hl.nextSibling x,
      by simp [hl.lastChild], fun x hx => ?_⟩
    rw [hl.parent, if_neg (hold hx), if_pos hx]
  rw [Function.update_of_ne hjc]
  by_cases hji : j = i
  · subst hji
    rw [Function.update_self]
    refine ⟨by simp [hl.firstChild, hne], ⟨?_, trivial⟩, by simp [hl.lastChild, hne], ?_⟩
    · rw [hl.nextSibling, hfree]
      rfl
    · simp [hl.parent]
  · rw [Function.update_of_ne hji]
    refine (h j).congr ?_ ?_ (fun x _ => hl.nextSibling x) fun x hx => ?_
    · rw [hl.firstChild, if_neg hjc, if_neg hji]
    · rw [hl.lastChild, if_neg hjc, if_neg hji]
    · rw [hl.parent, if_neg (hold hx), if_neg fun hx' => ?_]
      exact hji (h.eq_of_mem hx hx')

/-- Going up meets the copy once, on the way from a former child of `i`. -/
theorem rooted (hl : a.GatherLinks b i) (h : a.Linked) (hi : i < a.size) (j : NodeId) :
    b.Rooted j := by
  have hne : i ≠ a.size := Nat.ne_of_lt hi
  have hold : ∀ j, j ≠ a.size → b.Rooted j := by
    refine h.induction_up fun j ih hja => ?_
    by_cases hk : j ∈ a.children i
    · have hc : b.Rooted a.size := by
        refine .of_parent (by rw [hl.parent, if_pos rfl]) (ih i ?_ hne)
        exact .of_parent (h.mem_children.mp hk)
      exact .of_parent (by rw [hl.parent, if_neg hja, if_pos hk]) hc
    have hparent : (b.node j).parent = (a.node j).parent := by
      rw [hl.parent, if_neg hja, if_neg hk]
    cases hj : (a.node j).parent with
    | none => exact .of_root (hparent.trans hj)
    | some q =>
      have hqa : q ≠ a.size := Nat.ne_of_lt (h.parent_lt_size hj)
      exact .of_parent (hparent.trans hj) (ih q (.of_parent hj) hqa)
  by_cases hja : j = a.size
  · exact .of_parent (by rw [hl.parent, if_pos hja]) (hold i hne)
  · exact hold j hja

end GatherLinks

/-- **Gathering** puts one new node between `i` and its children. -/
theorem Linked.gather (h : a.Linked) (hi : i < a.size) (label : String) :
    (a.gather i label).2.Linked ∧ (a.gather i label).2.children =
      Function.update (Function.update a.children i [a.size]) a.size (a.children i) := by
  have hl := h.hasChildLists.gatherLinks hi label
  refine Linked.of_childLists (hl.isChildList h.hasChildLists hi) (fun {j q} hj => ?_)
    (fun {j} hj => ?_) (hl.rooted h hi)
  · rw [hl.parent] at hj
    have hmem := @h.mem_children_of_parent j q
    have hqs : (a.node j).parent = some q → q < a.size := h.parent_lt_size
    have hji : j ∈ a.children i → (a.node j).parent = some i := h.mem_children.mp
    by_cases hqc : q = a.size
    · subst hqc
      rw [Function.update_self]
      grind
    rw [Function.update_of_ne hqc]
    by_cases hqi : q = i
    · subst hqi
      rw [Function.update_self]
      grind
    · rw [Function.update_of_ne hqi]
      grind
  · rw [hl.parent] at hj
    rw [hl.nextSibling]
    refine h.nextSibling_of_root ?_
    grind

/-! ## Gathering siblings -/

@[simp] theorem size_gatherRest {next : Option NodeId} :
    (a.gatherRest i c siblings next).size = a.size := by
  unfold gatherRest
  split
  · dsimp only
    split <;> simp
  · rfl

@[simp] theorem stores_gatherRest {next : Option NodeId} :
    (a.gatherRest i c siblings next).stores = a.stores := by
  unfold gatherRest
  split
  · dsimp only
    split <;> simp
  · rfl

@[simp] theorem nextIdentity_gatherRest {next : Option NodeId} :
    (a.gatherRest i c siblings next).nextIdentity = a.nextIdentity := by
  unfold gatherRest
  split
  · dsimp only
    split <;> simp
  · rfl

/-- The links after the nodes `moved` were moved behind the copy `c` below `i`, which is then
followed by `next`. -/
structure GatherRestLinks (a b : Arena) (i c : NodeId) (moved : List NodeId)
    (next : Option NodeId) : Prop where
  parent : ∀ x, (b.node x).parent =
    if x = c ∨ x ∈ moved then some i else (a.node x).parent
  firstChild : ∀ x, (b.node x).firstChild = (a.node x).firstChild
  nextSibling : ∀ x, (b.node x).nextSibling =
    if moved.getLast? = some x then none else if x = c then moved.head?
    else if x = i then next else (a.node x).nextSibling
  /-- The parent that `i` names is taken to list `i`, and to end with it if nothing follows. -/
  lastChild : ∀ x, (b.node x).lastChild =
    if x = i then moved.getLast? else if next = none ∧ (a.node i).parent = some x then some i
    else (a.node x).lastChild

/-- A node that is made to lead into a chain, the end of which leads nowhere. -/
theorem Strung.cons_of_redirected {stop : Option NodeId} (hs : a.Strung stop siblings)
    (hnd : siblings.Nodup) (hc : (b.node c).nextSibling = siblings.head?)
    (hb : ∀ x ∈ siblings, (b.node x).nextSibling =
      if siblings.getLast? = some x then none else (a.node x).nextSibling) :
    b.Strung none (c :: siblings) := by
  refine ⟨by rw [hc, Option.or_none], hs.retarget hnd (fun x hx hne => ?_) fun x hx => ?_⟩
  · rw [hb x hx, if_neg hne]
  · rw [hb x (List.mem_of_getLast? hx), if_pos hx]

/-- The copy `c` made to lead into the chain from `first` to `last`, as moving begins. -/
def redirected (a : Arena) (c first last : NodeId) : Arena :=
  (a.update last fun n => { n with nextSibling := none }).update c
    fun n => { n with nextSibling := some first }

theorem nextSibling_redirected {first last : NodeId} (hc : c < a.size) (hlast : last < a.size) :
    ((a.redirected c first last).node x).nextSibling =
      if x = c then some first else if x = last then none else (a.node x).nextSibling := by
  rw [redirected, field_update Node.nextSibling (by simpa using hc),
    field_update Node.nextSibling hlast]

theorem proj_redirected {β : Type} {first last : NodeId} (field : Node → β)
    (hf : ∀ n next, field { n with nextSibling := next } = field n) :
    field ((a.redirected c first last).node x) = field (a.node x) :=
  (proj_update field fun _ => hf _ _).trans (proj_update field fun _ => hf _ _)

/-- The nodes `ids` adopted by `i`, the last of them as its last child, and `i` followed by `next`.
-/
def adoptedBy (a : Arena) (i : NodeId) (ids : List NodeId) (last : NodeId) (next : Option NodeId) :
    Arena :=
  (a.adopt (some i) ids).update i fun n =>
    { n with lastChild := some last, nextSibling := next,
             right := ((a.adopt (some i) ids).node last).right }

theorem parent_adoptedBy {ids : List NodeId} {last : NodeId} {next : Option NodeId}
    (hlt : ∀ x ∈ ids, x < a.size) :
    ((a.adoptedBy i ids last next).node x).parent =
      if x ∈ ids then some i else (a.node x).parent := by
  refine (proj_update Node.parent (by intro _; rfl)).trans ?_
  rw [node_adopt]
  grind

theorem firstChild_adoptedBy {ids : List NodeId} {last : NodeId} {next : Option NodeId} :
    ((a.adoptedBy i ids last next).node x).firstChild = (a.node x).firstChild :=
  (proj_update Node.firstChild (by intro _; rfl)).trans
    (proj_adopt Node.firstChild fun _ _ => rfl)

theorem nextSibling_adoptedBy {ids : List NodeId} {last : NodeId} {next : Option NodeId}
    (hi : i < a.size) : ((a.adoptedBy i ids last next).node x).nextSibling =
      if x = i then next else (a.node x).nextSibling := by
  rw [adoptedBy, field_update Node.nextSibling (by rwa [size_adopt]),
    proj_adopt Node.nextSibling fun _ _ => rfl]

theorem lastChild_adoptedBy {ids : List NodeId} {last : NodeId} {next : Option NodeId}
    (hi : i < a.size) : ((a.adoptedBy i ids last next).node x).lastChild =
      if x = i then some last else (a.node x).lastChild := by
  rw [adoptedBy, field_update Node.lastChild (by rwa [size_adopt]),
    proj_adopt Node.lastChild fun _ _ => rfl]

theorem gatherRest_eq {first last : NodeId} {next : Option NodeId}
    (hfirst : siblings.head? = some first) (hlast : siblings.getLast? = some last) :
    a.gatherRest i c siblings next =
      let d := a.redirected c first last
      let e := d.adoptedBy i (d.chain d.size (some c)) last next
      match next, (e.node i).parent with
      | none, some parent => e.update parent fun n => { n with lastChild := some i }
      | _, _ => e := by
  rw [gatherRest, hfirst, hlast]
  rfl

/-- The chain that is adopted begins with the copy and ends with the last node that is moved. -/
theorem Strung.cons_redirected {stop : Option NodeId} {moved : List NodeId}
    (h : a.Strung stop moved) (hnd : moved.Nodup) {first last : NodeId}
    (hfirst : moved.head? = some first) (hlast : moved.getLast? = some last) (hc : c < a.size)
    (hlt : last < a.size) (hcm : c ∉ moved) :
    (a.redirected c first last).Strung none (c :: moved) := by
  refine h.cons_of_redirected hnd ?_ fun x hx => ?_
  · rw [nextSibling_redirected hc hlt, if_pos rfl, hfirst]
  · rw [nextSibling_redirected hc hlt, if_neg (ne_of_mem_of_not_mem hx hcm)]
    grind

theorem firstChild_gatherRest {first last : NodeId} {next : Option NodeId}
    (hfirst : siblings.head? = some first) (hlast : siblings.getLast? = some last) :
    ((a.gatherRest i c siblings next).node x).firstChild = (a.node x).firstChild := by
  rw [gatherRest_eq hfirst hlast]
  dsimp only
  split
  · refine (proj_update Node.firstChild (by intro _; rfl)).trans ?_
    rw [firstChild_adoptedBy, proj_redirected Node.firstChild fun _ _ => rfl]
  · rw [firstChild_adoptedBy, proj_redirected Node.firstChild fun _ _ => rfl]

/-- Three links to next siblings are set, and that of `i` is set last. -/
theorem nextSibling_gatherRest {first last : NodeId} {next : Option NodeId}
    (hfirst : siblings.head? = some first) (hlast : siblings.getLast? = some last)
    (hi : i < a.size) (hc : c < a.size) (hlt : last < a.size) :
    ((a.gatherRest i c siblings next).node x).nextSibling =
      if x = i then next else if x = c then some first else if x = last then none
      else (a.node x).nextSibling := by
  have hi : i < (a.redirected c first last).size := by simpa [redirected] using hi
  rw [gatherRest_eq hfirst hlast]
  dsimp only
  split
  · refine (proj_update Node.nextSibling (by intro _; rfl)).trans ?_
    rw [nextSibling_adoptedBy hi, nextSibling_redirected hc hlt]
  · rw [nextSibling_adoptedBy hi, nextSibling_redirected hc hlt]

/-- Which links are set when `siblings` are gathered. The chain that is adopted meets the nodes
`moved`, which are the siblings if none of them is repeated. -/
theorem Strung.gatherRestLinks {stop next : Option NodeId} {moved : List NodeId}
    (h : a.Strung stop moved) (hs : moved ≠ []) (hhead : siblings.head? = moved.head?)
    (hlast : siblings.getLast? = moved.getLast?) (hnd : (i :: c :: moved).Nodup)
    (hlt : ∀ x ∈ i :: c :: moved, x < a.size)
    (hparent : ∀ p ∈ (a.node i).parent, i ≠ p ∧ p < a.size) :
    a.GatherRestLinks (a.gatherRest i c siblings next) i c moved next := by
  obtain ⟨first, hmf⟩ : ∃ first, moved.head? = some first :=
    Option.ne_none_iff_exists'.mp (by simpa using hs)
  obtain ⟨last, hml⟩ : ∃ last, moved.getLast? = some last :=
    Option.ne_none_iff_exists'.mp (by simpa using hs)
  obtain ⟨hilt, hclt, hlt⟩ : i < a.size ∧ c < a.size ∧ ∀ x ∈ moved, x < a.size := by
    simpa using hlt
  obtain ⟨hi, hnd⟩ := List.nodup_cons.mp hnd
  obtain ⟨hc, hnd⟩ := List.nodup_cons.mp hnd
  have hlastmem : last ∈ moved := List.mem_of_getLast? hml
  have hlastlt : last < a.size := hlt last hlastmem
  have hds : (a.redirected c first last).size = a.size := by simp [redirected]
  have hdlt : ∀ x ∈ c :: moved, x < (a.redirected c first last).size := by
    rw [hds]
    exact List.forall_mem_cons.mpr ⟨hclt, hlt⟩
  have hchain : (a.redirected c first last).chain (a.redirected c first last).size (some c) =
      c :: moved := by
    have hstrung := h.cons_redirected hnd hmf hml hclt hlastlt hc
    exact hstrung.chain_eq (length_le_size hstrung.nodup hdlt)
  -- the arena before the parent of `i` is written to
  generalize he : (a.redirected c first last).adoptedBy i (c :: moved) last next = e
  have hes : e.size = a.size := by rw [← he, adoptedBy, size_update, size_adopt, hds]
  have hep : ∀ x, (e.node x).parent =
      if x = c ∨ x ∈ moved then some i else (a.node x).parent := by
    intro x
    rw [← he, parent_adoptedBy hdlt, proj_redirected Node.parent fun _ _ => rfl]
    simp
  have hel : ∀ x, (e.node x).lastChild =
      if x = i then moved.getLast? else (a.node x).lastChild := by
    intro x
    rw [← he, lastChild_adoptedBy (hds ▸ hilt), proj_redirected Node.lastChild fun _ _ => rfl,
      hml]
  have hei : (e.node i).parent = (a.node i).parent := by
    rw [hep, if_neg (mt List.mem_cons.mpr hi)]
  have hnext : ∀ x, ((a.gatherRest i c siblings next).node x).nextSibling =
      if moved.getLast? = some x then none else if x = c then moved.head?
      else if x = i then next else (a.node x).nextSibling := by
    intro x
    rw [nextSibling_gatherRest (hhead.trans hmf) (hlast.trans hml) hilt hclt hlastlt]
    grind
  refine ⟨fun x => ?_, fun x => firstChild_gatherRest (hhead.trans hmf) (hlast.trans hml), hnext,
    fun x => ?_⟩
  all_goals
    rw [gatherRest_eq (hhead.trans hmf) (hlast.trans hml)]
    dsimp only
    rw [hchain, he, hei]
  · rw [← hep]
    split
    · exact proj_update Node.parent fun _ => rfl
    · rfl
  · cases next with
    | some s => simp [hel]
    | none =>
      cases hp : (a.node i).parent with
      | none => simp [hel]
      | some p =>
        obtain ⟨hip, hpe⟩ := hparent p hp
        rw [field_update Node.lastChild (hes ▸ hpe), hel]
        grind

/-- The only child of `i` is none of the siblings of `i`, and not `i` itself. -/
theorem HasChildLists.not_mem_of_children_eq (h : a.HasChildLists) (hi : a.children i = [c])
    (hp : a.children p = before ++ i :: (siblings ++ after)) (hip : i ≠ p) :
    c ≠ i ∧ c ∉ before ++ i :: (siblings ++ after) := by
  have hci : c ∈ a.children i := by simp [hi]
  have hout : c ∉ before ++ i :: (siblings ++ after) := fun hc =>
    hip (h.eq_of_mem hci (by rwa [hp]))
  refine ⟨?_, hout⟩
  rintro rfl
  simp at hout

/-- The only child of `i` is none of the siblings of `i`, and `i` is not its own parent. -/
theorem Linked.not_mem_of_children_eq (h : a.Linked) (hi : a.children i = [c])
    (hp : a.children p = before ++ i :: (siblings ++ after)) :
    i ≠ p ∧ c ≠ i ∧ c ∉ before ++ i :: (siblings ++ after) := by
  have hip : i ≠ p := h.ne_of_parent (h.parent_eq hp)
  exact ⟨hip, h.hasChildLists.not_mem_of_children_eq hi hp hip⟩

/-- The siblings follow one another, and with `i` and the copy they are different slots. -/
theorem HasChildLists.strung_siblings (h : a.HasChildLists) (hi : a.children i = [c])
    (hp : a.children p = before ++ i :: (siblings ++ after)) (hip : i ≠ p) :
    a.Strung after.head? siblings ∧ (i :: c :: siblings).Nodup ∧
      ∀ x ∈ i :: c :: siblings, x < a.size := by
  obtain ⟨hci, hcs⟩ := h.not_mem_of_children_eq hi hp hip
  have hlist := h p
  rw [hp] at hlist
  have hnd := hlist.nodup
  have hlt : ∀ x ∈ before ++ i :: (siblings ++ after), x < a.size := fun x => hlist.lt_size
  refine ⟨?_, by grind, ?_⟩
  · simpa using (strung_append.mp (strung_append.mp hlist.strung).2.2).1
  · exact List.forall_mem_cons.mpr ⟨hlt i (by simp), List.forall_mem_cons.mpr
      ⟨h.lt_size_of_mem (p := i) (by simp [hi]), fun x hx => hlt x (by simp [hx])⟩⟩

theorem HasChildLists.gatherRestLinks (h : a.HasChildLists) (hi : a.children i = [c])
    (hp : a.children p = before ++ i :: (siblings ++ after)) (hip : i ≠ p) (hs : siblings ≠ []) :
    a.GatherRestLinks (a.gatherRest i c siblings after.head?) i c siblings after.head? := by
  obtain ⟨hstrung, hnd, hlt⟩ := h.strung_siblings hi hp hip
  have hpi : i ∈ a.children p := by simp [hp]
  refine hstrung.gatherRestLinks hs rfl rfl hnd hlt fun q hq => ?_
  obtain rfl : p = q := Option.some.inj ((h.parent_eq hpi).symm.trans hq)
  exact ⟨hip, (h p).owner_lt_size hpi⟩

/-- The chain that is adopted begins with the copy and ends with the last sibling. -/
theorem Linked.strung_redirected (h : a.Linked) (hi : a.children i = [c])
    (hp : a.children p = before ++ i :: (siblings ++ after)) {first last : NodeId}
    (hfirst : siblings.head? = some first) (hlast : siblings.getLast? = some last) :
    (a.redirected c first last).Strung none (c :: siblings) := by
  obtain ⟨hip, -, -⟩ := h.not_mem_of_children_eq hi hp
  obtain ⟨hstrung, hnd, hlt⟩ := h.hasChildLists.strung_siblings hi hp hip
  obtain ⟨hcs, hnd⟩ := List.nodup_cons.mp (List.nodup_cons.mp hnd).2
  exact hstrung.cons_redirected hnd hfirst hlast (hlt c (by simp))
    (hlt last (by simp [List.mem_of_getLast? hlast])) hcs

namespace GatherRestLinks

variable {moved : List NodeId} {next stop : Option NodeId}

/-- The list of `i` is the copy and what was moved. -/
theorem isChildList_gathered (hl : a.GatherRestLinks b i c moved next) (hi : a.IsChildList i [c])
    (hm : a.Strung stop moved) (hs : moved ≠ []) (hnd : (i :: c :: moved).Nodup) :
    b.IsChildList i (c :: moved) := by
  have hlast : ∀ x, moved.getLast? = some x → x ∈ moved := fun x => List.mem_of_getLast?
  refine ⟨?_, hm.cons_of_redirected (by grind) ?_ fun x hx => ?_, ?_, fun x hx => ?_⟩
  · rw [hl.firstChild, hi.firstChild]
    rfl
  · rw [hl.nextSibling]
    grind
  · rw [hl.nextSibling]
    grind
  · rw [hl.lastChild, if_pos rfl, List.getLast?_cons]
    cases hls : moved.getLast? with
    | none => exact absurd (List.getLast?_eq_none_iff.mp hls) hs
    | some x => rfl
  · rw [hl.parent, if_pos (List.mem_cons.mp hx)]

/-- A list without `i` and without what was moved is as it was, unless it is that of the parent that
`i` names and nothing follows `i` any more. -/
theorem isChildList_of_ne (hl : a.GatherRestLinks b i c moved next) {j : NodeId} {l : List NodeId}
    (hlist : a.IsChildList j l) (hji : j ≠ i) (hout : ∀ x ∈ l, x ∉ i :: c :: moved)
    (hj : next = none → (a.node i).parent ≠ some j) : b.IsChildList j l := by
  have hlast : ∀ x, moved.getLast? = some x → x ∈ moved := fun x => List.mem_of_getLast?
  refine hlist.congr (hl.firstChild j) ?_ (fun x hx => ?_) fun x hx => ?_
  · rw [hl.lastChild, if_neg hji, if_neg fun h => hj h.1 h.2]
  · have hx' := hout x hx
    rw [hl.nextSibling]
    grind
  · have hx' := hout x hx
    rw [hl.parent, if_neg (by grind)]

/-- The siblings are missing in the list of `p`. -/
theorem isChildList_left (hl : a.GatherRestLinks b i c siblings after.head?) (h : a.HasChildLists)
    (hi : a.children i = [c]) (hp : a.children p = before ++ i :: (siblings ++ after))
    (hip : i ≠ p) : b.IsChildList p (before ++ i :: after) := by
  obtain ⟨-, hcs⟩ := h.not_mem_of_children_eq hi hp hip
  have hlist := h p
  rw [hp] at hlist
  have hnd := hlist.nodup
  obtain ⟨hsb, hsi⟩ := strung_append.mp hlist.strung
  have hpi : (a.node i).parent = some p := hlist.parent i (by simp)
  have hlast : ∀ x, siblings.getLast? = some x → x ∈ siblings := fun x => List.mem_of_getLast?
  refine ⟨?_, strung_append.mpr ⟨hsb.congr fun x hx => ?_, ?_, ?_⟩, ?_, fun x hx => ?_⟩
  · rw [hl.firstChild, hlist.firstChild]
    cases before <;> simp
  · rw [hl.nextSibling]
    grind
  · rw [hl.nextSibling]
    grind
  · refine (strung_append.mp hsi.2).2.congr fun x hx => ?_
    rw [hl.nextSibling]
    grind
  · rw [hl.lastChild, if_neg (Ne.symm hip), hlist.lastChild, hpi]
    cases after <;> simp [List.getLast?_cons]
  · rw [hl.parent, if_neg (by grind), hlist.parent x (by grind)]

/-- What moving the siblings of a listed node makes of all lists. -/
theorem isChildList (hl : a.GatherRestLinks b i c siblings after.head?) (h : a.HasChildLists)
    (hi : a.children i = [c]) (hp : a.children p = before ++ i :: (siblings ++ after))
    (hip : i ≠ p) (hs : siblings ≠ []) (j : NodeId) :
    b.IsChildList j (Function.update (Function.update a.children p (before ++ i :: after)) i
      (c :: siblings) j) := by
  obtain ⟨hstrung, hnd, -⟩ := h.strung_siblings hi hp hip
  by_cases hji : j = i
  · subst hji
    rw [Function.update_self]
    exact hl.isChildList_gathered (hi ▸ h j) hstrung hs hnd
  rw [Function.update_of_ne hji]
  by_cases hjp : j = p
  · subst hjp
    rw [Function.update_self]
    exact hl.isChildList_left h hi hp hip
  rw [Function.update_of_ne hjp]
  have hpi : (a.node i).parent = some p := h.parent_eq (by simp [hp])
  refine hl.isChildList_of_ne (h j) hji (fun x hx hx' => ?_) fun _ hj => ?_
  · have hxp : x ∈ a.children i ∨ x ∈ a.children p := by
      rw [hi, hp]
      grind
    rcases hxp with hxi | hxp
    · exact hji (h.eq_of_mem hx hxi)
    · exact hjp (h.eq_of_mem hx hxp)
  · exact hjp (Option.some.inj (hj.symm.trans hpi))

end GatherRestLinks

/-- Moving siblings behind the copy shortens the list of `p` and lengthens that of `i`. -/
theorem Linked.gatherRest (h : a.Linked) (hi : a.children i = [c])
    (hp : a.children p = before ++ i :: (siblings ++ after)) (hs : siblings ≠ []) :
    (a.gatherRest i c siblings after.head?).Linked ∧
      (a.gatherRest i c siblings after.head?).children =
        Function.update (Function.update a.children p (before ++ i :: after)) i
          (c :: siblings) := by
  obtain ⟨hip, hcne, -⟩ := h.not_mem_of_children_eq hi hp
  have hl := h.hasChildLists.gatherRestLinks hi hp hip hs
  have hnd := h.nodup_children p
  rw [hp] at hnd
  have hsp : ∀ x, x ∈ before ++ i :: (siblings ++ after) ↔ (a.node x).parent = some p := fun x => by
    rw [← h.mem_children, hp]
  have hlast : ∀ x, siblings.getLast? = some x → x ∈ siblings := fun x => List.mem_of_getLast?
  have hcs : ∀ x, (a.node x).parent = some i ↔ x = c := fun x => by
    rw [← h.mem_children, hi]
    simp
  refine Linked.of_childLists (hl.isChildList h.hasChildLists hi hp hip hs) (fun {j q} hj => ?_)
    (fun {j} hj => ?_) (h.rooted_of_above fun {j q} hj ih => ?_)
  · rw [hl.parent] at hj
    have hmem := @h.mem_children_of_parent j q
    by_cases hqi : q = i
    · subst hqi
      rw [Function.update_self]
      grind
    rw [Function.update_of_ne hqi]
    by_cases hqp : q = p
    · subst hqp
      rw [Function.update_self]
      grind
    · rw [Function.update_of_ne hqp]
      grind
  · rw [hl.parent] at hj
    rw [hl.nextSibling]
    have := @h.nextSibling_of_root j
    grind
  · rw [hl.parent] at hj
    split at hj
    · next hmoved =>
      obtain rfl : i = q := Option.some.inj hj
      rcases hmoved with rfl | hjs
      · exact ih i (.of_parent ((hcs j).mpr rfl))
      · -- the former parent of a sibling is now its grandparent
        have hjp : (a.node j).parent = some p := (hsp j).mp (by simp [hjs])
        refine .of_parent ?_ (ih p (.of_parent hjp))
        rw [hl.parent, if_neg (by grind), h.parent_eq hp]
    · exact ih q (.of_parent hj)

/-! ## Both steps -/

/-- A list can be followed from the head of a chain exactly if it is the front of the chain. -/
theorem Strung.follow?_eq_some_iff {l : List NodeId} (h : a.Strung none l) {next : Option NodeId} :
    a.follow? l.head? siblings = some next ↔
      ∃ after, l = siblings ++ after ∧ next = after.head? := by
  induction siblings generalizing l with
  | nil => simp [follow?, eq_comm]
  | cons s rest ih =>
    rw [follow?]
    cases l with
    | nil => simp
    | cons j l =>
      by_cases hj : j = s
      · subst hj
        have hnext : (a.node j).nextSibling = l.head? := by simpa using h.1
        rw [List.head?_cons, if_pos rfl, hnext, ih h.2]
        simp
      · simp [hj]

theorem Linked.rightSiblings_eq (h : a.Linked) (hp : a.children p = before ++ i :: after) :
    a.rightSiblings i = after := by
  have hlist := h.childList p
  rw [hp] at hlist
  have hstr : a.Strung none after := (strung_append.mp hlist.strung).2.2
  rw [rightSiblings, h.nextSibling_eq hp]
  exact hstr.chain_eq (length_le_size hstr.nodup fun x hx => hlist.lt_size (by simp [hx]))

/-- The right siblings of a node are children of its parent. -/
theorem Linked.rightSiblings_subset (h : a.Linked) (hp : (a.node i).parent = some p) :
    a.rightSiblings i ⊆ a.children p := by
  obtain ⟨before, after, hlist⟩ := h.exists_children_eq hp
  rw [h.rightSiblings_eq hlist, hlist]
  exact fun x hx => List.mem_append_right _ (List.mem_cons_of_mem i hx)

theorem Linked.rightSiblings_of_root (h : a.Linked) (hi : (a.node i).parent = none) :
    a.rightSiblings i = [] := by
  simp [rightSiblings, h.nextSibling_of_root hi]

/-- The right siblings of a node, root or not, are strung behind it. -/
theorem Linked.strung_rightSiblings (h : a.Linked) (i : NodeId) :
    a.Strung none (a.rightSiblings i) ∧ (a.node i).nextSibling = (a.rightSiblings i).head? := by
  cases hi : (a.node i).parent with
  | none =>
    rw [h.rightSiblings_of_root hi]
    exact ⟨trivial, h.nextSibling_of_root hi⟩
  | some p =>
    obtain ⟨before, after, hp⟩ := h.exists_children_eq hi
    rw [h.rightSiblings_eq hp]
    refine ⟨?_, h.nextSibling_eq hp⟩
    have hstr := (h.childList p).strung
    rw [hp] at hstr
    exact (strung_append.mp hstr).2.2

/-- Siblings are gathered exactly if they are the front of the right siblings. -/
theorem Linked.follow?_eq_some_iff (h : a.Linked) {next : Option NodeId} :
    a.follow? (a.node i).nextSibling siblings = some next ↔
      ∃ after, a.rightSiblings i = siblings ++ after ∧ next = after.head? := by
  obtain ⟨hstr, hnext⟩ := h.strung_rightSiblings i
  rw [hnext]
  exact hstr.follow?_eq_some_iff

/-- Without siblings to gather, only the level is added. -/
theorem gatherWithSiblings_nil (a : Arena) (i : NodeId) (label : String) :
    a.gatherWithSiblings i label [] = .ok (a.gather i label).2 a.size := rfl

theorem Linked.children_gather_self (h : a.Linked) (hi : i < a.size) (label : String) :
    (a.gather i label).2.children i = [a.size] := by
  rw [(h.gather hi label).2, Function.update_of_ne (Nat.ne_of_lt hi), Function.update_self]

theorem Linked.children_gather_of_ne (h : a.Linked) (hi : i < a.size) (label : String)
    (hp : p < a.size) (hpi : p ≠ i) : (a.gather i label).2.children p = a.children p := by
  rw [(h.gather hi label).2, Function.update_of_ne (Nat.ne_of_lt hp), Function.update_of_ne hpi]

/-- Gathering siblings puts the new level below the node and then moves them there. -/
theorem Linked.gatherWithSiblings_eq (h : a.Linked) (label : String)
    (hp : a.children p = before ++ i :: (siblings ++ after)) :
    a.gatherWithSiblings i label siblings =
      .ok ((a.gather i label).2.gatherRest i a.size siblings after.head?) a.size := by
  have hfollow : a.follow? (a.node i).nextSibling siblings = some after.head? :=
    h.follow?_eq_some_iff.mpr ⟨after, h.rightSiblings_eq hp, rfl⟩
  rw [Arena.gatherWithSiblings, hfollow]
  rfl

/-- **Gathering with siblings**: the siblings leave the list of `p` and follow the copy. -/
theorem Linked.gatherWithSiblings (h : a.Linked) (label : String)
    (hp : a.children p = before ++ i :: (siblings ++ after)) :
    ∃ b, a.gatherWithSiblings i label siblings = .ok b a.size ∧ b.Linked ∧
      b.size = a.size + 1 ∧ b.stores = a.stores ∧
      b.children = Function.update (Function.update (Function.update a.children
        p (before ++ i :: after)) i (a.size :: siblings)) a.size (a.children i) := by
  have hpi : (a.node i).parent = some p := h.parent_eq hp
  have hi : i < a.size := lt_size_of_parent hpi
  have hip : i ≠ p := h.ne_of_parent hpi
  have hic : i ≠ a.size := Nat.ne_of_lt hi
  have hpc : p ≠ a.size := Nat.ne_of_lt (h.parent_lt_size hpi)
  obtain ⟨hlinked, hkids⟩ := h.gather hi label
  have hsize : (a.gather i label).2.size = a.size + 1 := size_gather a i label
  by_cases hs : siblings = []
  · subst hs
    refine ⟨_, gatherWithSiblings_nil a i label, hlinked, hsize, stores_gather a i label, ?_⟩
    rw [hkids]
    funext j
    simp only [Function.update_apply]
    grind
  · have hi' := h.children_gather_self hi label
    have hp' := (h.children_gather_of_ne hi label (h.parent_lt_size hpi) hip.symm).trans hp
    obtain ⟨hlinked', hkids'⟩ := hlinked.gatherRest hi' hp' hs
    refine ⟨_, h.gatherWithSiblings_eq label hp, hlinked', ?_, ?_, ?_⟩
    · rw [size_gatherRest, hsize]
    · rw [stores_gatherRest, stores_gather]
    · rw [hkids', hkids]
      funext j
      simp only [Function.update_apply]
      grind

end Arena

end ParseTree
