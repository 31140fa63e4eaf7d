import ParseTree.Proofs.CloneShape
import ParseTree.Proofs.EditCommands

/-!
# Spans stay nested

An arena is *span-nested* if every node ends no earlier than it starts, children lie within their
parent, and no node starts before the sibling in front of it ends. Operators move nodes between
levels and hardly ever change an extent, so that nesting must survive the moves.

What has to be checked is one list at a time. A list of spans is `Spaced` between two bounds if they
follow one another in the order of the list, and an arena is span-nested if and only if the children
of every node are spaced between its two ends (`Linked.spanNested_iff`). Moving nodes is then an
operation on lists: a span may be left out, and it may be replaced by what is spaced within it,
which is what promotion does. The other way round, spans that follow one another may be replaced by
a single one that begins with the first of them and ends with the last. This is why gathering must
write the right end of the wrapper, and why that is enough.

## Main results

* `Spaced.promote`, `Spaced.gather`: the two ways in which lists of spans change.
* `Linked.spanNested_iff`: nesting, list by list.
* `Command.spanNested_runAll`: every run of operators that do not insert, walks with rule tables
  among them, keeps spans nested.
-/

namespace ParseTree

/-- Where a node starts and where it ends. -/
def Node.extent (n : Node) : Nat × Nat :=
  (n.left, n.right)

theorem Node.linkFree_extent : LinkFree Node.extent :=
  fun _ => rfl

/-! ## Lists of spans -/

/-- The spans of a list follow one another between `lo` and `hi`. -/
inductive Spaced : Nat → List (Nat × Nat) → Nat → Prop
  | nil {lo hi : Nat} : lo ≤ hi → Spaced lo [] hi
  | cons {lo hi : Nat} {s : Nat × Nat} {l : List (Nat × Nat)} :
      lo ≤ s.1 → s.1 ≤ s.2 → Spaced s.2 l hi → Spaced lo (s :: l) hi

namespace Spaced

variable {lo lo' hi hi' mid : Nat} {s e : Nat × Nat} {k l m : List (Nat × Nat)}

theorem cons_iff : Spaced lo (s :: l) hi ↔ lo ≤ s.1 ∧ s.1 ≤ s.2 ∧ Spaced s.2 l hi :=
  ⟨fun | .cons hlo hs hl => ⟨hlo, hs, hl⟩, fun ⟨hlo, hs, hl⟩ => .cons hlo hs hl⟩

theorem le (h : Spaced lo l hi) : lo ≤ hi := by
  induction h with
  | nil h => exact h
  | cons hlo hs _ ih => exact Nat.le_trans hlo (Nat.le_trans hs ih)

/-- A list may begin anywhere further to the left. -/
theorem mono_left (h : Spaced lo l hi) (hlo : lo' ≤ lo) : Spaced lo' l hi := by
  cases h with
  | nil h => exact .nil (Nat.le_trans hlo h)
  | cons h hs hl => exact .cons (Nat.le_trans hlo h) hs hl

/-- **Lists that are joined** meet somewhere. -/
theorem append_iff : Spaced lo (l ++ m) hi ↔ ∃ mid, Spaced lo l mid ∧ Spaced mid m hi := by
  constructor
  · intro h
    induction l generalizing lo with
    | nil => exact ⟨lo, .nil (Nat.le_refl lo), h⟩
    | cons s l ih =>
      obtain ⟨hlo, hs, hrest⟩ := cons_iff.mp h
      obtain ⟨mid, hl, hm⟩ := ih hrest
      exact ⟨mid, .cons hlo hs hl, hm⟩
  · rintro ⟨mid, hl, hm⟩
    induction hl with
    | nil hlo => exact hm.mono_left hlo
    | cons hlo hs _ ih => exact .cons hlo hs (ih hm)

/-- Where a span stands in a list: behind what is in front of it, and before what follows. -/
theorem middle_iff : Spaced lo (l ++ s :: m) hi ↔
    ∃ mid, Spaced lo l mid ∧ mid ≤ s.1 ∧ s.1 ≤ s.2 ∧ Spaced s.2 m hi := by
  simp only [append_iff, cons_iff]

/-- Every span of the list lies between the bounds. -/
theorem of_mem (h : Spaced lo l hi) (hs : s ∈ l) : lo ≤ s.1 ∧ s.2 ≤ hi := by
  obtain ⟨before, after, rfl⟩ := List.append_of_mem hs
  obtain ⟨mid, hbefore, hmid, -, hafter⟩ := middle_iff.mp h
  exact ⟨Nat.le_trans hbefore.le hmid, hafter.le⟩

/-- Of two neighbours the first ends before the second starts. -/
theorem neighbours (h : Spaced lo (l ++ s :: e :: m) hi) : s.2 ≤ e.1 := by
  obtain ⟨mid, -, -, -, hnext⟩ := middle_iff.mp h
  exact (cons_iff.mp hnext).1

/-- **A span gives way to what lies within it.** -/
theorem promote (h : Spaced lo (l ++ s :: m) hi) (hk : Spaced s.1 k s.2) :
    Spaced lo (l ++ k ++ m) hi := by
  obtain ⟨mid, hl, hmid, -, hm⟩ := middle_iff.mp h
  exact append_iff.mpr ⟨s.2, append_iff.mpr ⟨mid, hl, hk.mono_left hmid⟩, hm⟩

/-- A span is left out. -/
theorem leaveOut (h : Spaced lo (l ++ s :: m) hi) : Spaced lo (l ++ m) hi := by
  obtain ⟨mid, hl, hmid, hs, hm⟩ := middle_iff.mp h
  exact append_iff.mpr ⟨mid, hl, hm.mono_left (Nat.le_trans hmid hs)⟩

/-- **Spans that follow one another make one span**, from where the first of them starts to where
the last of them ends, and they are spaced within it. -/
theorem gather (h : Spaced lo (l ++ s :: (k ++ m)) hi) (hlast : k.getLast? = some e) :
    Spaced lo (l ++ (s.1, e.2) :: m) hi ∧ Spaced s.1 (s :: k) e.2 := by
  obtain ⟨k, rfl⟩ := List.getLast?_eq_some_iff.mp hlast
  obtain ⟨mid, hl, hmid, hs, hrest⟩ := middle_iff.mp h
  rw [List.append_assoc, List.singleton_append] at hrest
  obtain ⟨next, hk, hnext, he, hm⟩ := middle_iff.mp hrest
  have hinner : Spaced s.2 (k ++ [e]) e.2 :=
    middle_iff.mpr ⟨next, hk, hnext, he, .nil (Nat.le_refl _)⟩
  exact ⟨middle_iff.mpr ⟨mid, hl, hmid, Nat.le_trans hs hinner.le, hm⟩,
    .cons (Nat.le_refl _) hs hinner⟩

end Spaced

namespace Arena

variable {a b : Arena} {i p c x : NodeId} {before after siblings : List NodeId} {o : Option NodeId}

/-! ## Nested arenas -/

/-- **Spans are nested**: a node ends no earlier than it starts, children lie within their parent,
and siblings follow one another. -/
structure SpanNested (a : Arena) : Prop where
  ordered : ∀ i, (a.node i).left ≤ (a.node i).right
  inside : ∀ i p, (a.node i).parent = some p →
    (a.node p).left ≤ (a.node i).left ∧ (a.node i).right ≤ (a.node p).right
  apart : ∀ i j, (a.node i).nextSibling = some j → (a.node i).right ≤ (a.node j).left

/-- The spans of a list of nodes. -/
def spans (a : Arena) (l : List NodeId) : List (Nat × Nat) :=
  l.map fun i => (a.node i).extent

/-- The children of `p` are spaced between its ends. -/
def SpacedBelow (a : Arena) (p : NodeId) : Prop :=
  Spaced (a.node p).extent.1 (a.spans (a.children p)) (a.node p).extent.2

/-- **Nesting, list by list.** -/
theorem Linked.spanNested_iff (ha : a.Linked) : a.SpanNested ↔ ∀ p, a.SpacedBelow p := by
  constructor
  · intro h p
    have hall {l : List NodeId} {lo : Nat} (hl : a.Strung none l)
        (hin : ∀ c ∈ l, (a.node c).right ≤ (a.node p).right)
        (hhead : ∀ c ∈ l.head?, lo ≤ (a.node c).left) (hlo : lo ≤ (a.node p).right) :
        Spaced lo (a.spans l) (a.node p).right := by
      induction l generalizing lo with
      | nil => exact .nil hlo
      | cons c l ih =>
        obtain ⟨hnext, hl⟩ := strung_cons.mp hl
        rw [Option.or_none] at hnext
        obtain ⟨hc, hrest⟩ := List.forall_mem_cons.mp hin
        exact .cons (hhead c rfl) (h.ordered c)
          (ih hl hrest (fun d hd => h.apart c d (hnext.trans hd)) hc)
    have hmem {c : NodeId} (hc : c ∈ a.children p) := h.inside c p (ha.mem_children.mp hc)
    exact hall (ha.childList p).strung (fun c hc => (hmem hc).2)
      (fun c hc => (hmem (List.mem_of_mem_head? hc)).1) (h.ordered p)
  · intro h
    refine ⟨fun i => (h i).le, fun i p hip => ?_, fun i j hij => ?_⟩
    · exact (h p).of_mem (List.mem_map_of_mem (ha.mem_children_of_parent hip))
    · cases hip : (a.node i).parent with
      | none =>
        rw [ha.nextSibling_of_root hip] at hij
        cases hij
      | some p =>
        obtain ⟨before, after, hp⟩ := ha.exists_children_eq hip
        rw [ha.nextSibling_eq hp] at hij
        obtain ⟨after, rfl⟩ := List.head?_eq_some_iff.mp hij
        have hspaced := h p
        rw [SpacedBelow, hp, spans, List.map_append] at hspaced
        exact hspaced.neighbours

theorem spans_append (a : Arena) (l m : List NodeId) : a.spans (l ++ m) = a.spans l ++ a.spans m :=
  List.map_append

theorem spans_cons (a : Arena) (i : NodeId) (l : List NodeId) :
    a.spans (i :: l) = (a.node i).extent :: a.spans l :=
  rfl

theorem spans_congr {l : List NodeId} (h : ∀ x ∈ l, (b.node x).extent = (a.node x).extent) :
    b.spans l = a.spans l :=
  List.map_congr_left h

/-- Free slots are empty and have nothing below them. -/
theorem Linked.spacedBelow_of_size_le (ha : a.Linked) (hp : a.size ≤ p) : a.SpacedBelow p := by
  rw [SpacedBelow, ha.children_eq_nil hp, node_of_size_le hp]
  exact .nil (Nat.le_refl 0)

/-- Where no extent has changed, only the lists are to be looked at. -/
theorem Linked.spanNested_of_extent_eq (hb : b.Linked)
    (hext : ∀ x, (b.node x).extent = (a.node x).extent)
    (h : ∀ p, Spaced (a.node p).extent.1 (a.spans (b.children p)) (a.node p).extent.2) :
    b.SpanNested :=
  hb.spanNested_iff.mpr fun p => by
    rw [SpacedBelow, hext, spans_congr fun x _ => hext x]
    exact h p

namespace SpanNested

/-- Nesting does not depend on labels, kinds and tear stores. -/
theorem of_sameLinks (h : a.SpanNested) (ha : a.Linked) (hab : a.SameLinks b)
    (hext : ∀ x, (b.node x).extent = (a.node x).extent) : b.SpanNested := by
  obtain ⟨hb, hkids⟩ := ha.of_sameLinks hab
  refine hb.spanNested_of_extent_eq hext fun p => ?_
  rw [hkids]
  exact ha.spanNested_iff.mp h p

/-! ## What operators do to nesting -/

/-- **Promotion** puts children in the place of their parent, within which they are. -/
theorem promote (h : a.SpanNested) (ha : a.Linked) (hp : a.children p = before ++ c :: after) :
    (a.promote p before.getLast? c).SpanNested := by
  obtain ⟨hb, hkids⟩ := ha.promote hp
  have hspaced := ha.spanNested_iff.mp h
  refine hb.spanNested_of_extent_eq
    (fun x => Node.linkFree_extent.eq_of_content content_promote) fun q => ?_
  rw [hkids]
  by_cases hqc : q = c
  · rw [hqc, Function.update_self]
    exact .nil (hspaced c).le
  by_cases hqp : q = p
  · have hlist : a.SpacedBelow p := hspaced p
    rw [SpacedBelow, hp, spans_append, spans_cons] at hlist
    rw [Function.update_of_ne hqc, hqp, Function.update_self, spans_append, spans_append]
    exact hlist.promote (hspaced c)
  · rw [Function.update_of_ne hqc, Function.update_of_ne hqp]
    exact hspaced q

/-- A node is cut out of its list. -/
theorem cut (h : a.SpanNested) (ha : a.Linked) (hp : a.children p = before ++ i :: after) :
    (a.splice p before.getLast? i none).SpanNested := by
  obtain ⟨hb, hkids⟩ := ha.cut hp
  have hspaced := ha.spanNested_iff.mp h
  refine hb.spanNested_of_extent_eq
    (fun x => Node.linkFree_extent.eq_of_content content_splice) fun q => ?_
  rw [hkids]
  by_cases hqp : q = p
  · have hlist : a.SpacedBelow p := hspaced p
    rw [SpacedBelow, hp, spans_append, spans_cons] at hlist
    rw [hqp, Function.update_self, spans_append]
    exact hlist.leaveOut
  · rw [Function.update_of_ne hqp]
    exact hspaced q

end SpanNested

/-- Gathering changes no extent, and the copy has that of the node. -/
theorem extent_gather (a : Arena) (i : NodeId) (label : String) :
    (∀ x < a.size, ((a.gather i label).2.node x).extent = (a.node x).extent) ∧
      ((a.gather i label).2.node a.size).extent = (a.node i).extent := by
  have hwrite : i ∉ Set.univ ∨ ∀ (n : Node) label kind,
      Node.extent { n with label, kind } = Node.extent n := .inr fun _ _ _ => rfl
  exact ⟨fun x => (Node.linkFree_extent.keeps_gather hwrite label).eq x trivial,
    Node.linkFree_extent.field_gather_copy hwrite (fun _ _ => rfl) trivial label⟩

/-- **A new level** has the extent of the node that it is put below. -/
theorem SpanNested.gather (h : a.SpanNested) (ha : a.Linked) (hi : i < a.size) (label : String) :
    (a.gather i label).2.SpanNested := by
  obtain ⟨hb, hkids⟩ := ha.gather hi label
  obtain ⟨hold, hnew⟩ := extent_gather a i label
  have hspaced := ha.spanNested_iff.mp h
  have hlist (q : NodeId) : (a.gather i label).2.spans (a.children q) = a.spans (a.children q) :=
    spans_congr fun x hx => hold x (ha.lt_size_of_mem hx)
  refine hb.spanNested_iff.mpr fun q => ?_
  rcases Nat.lt_trichotomy q a.size with hq | rfl | hq
  · rw [SpacedBelow, hkids, Function.update_of_ne (Nat.ne_of_lt hq), hold q hq]
    by_cases hqi : q = i
    · rw [hqi, Function.update_self, spans_cons, hnew]
      exact .cons (Nat.le_refl _) (hspaced i).le (.nil (Nat.le_refl _))
    · rw [Function.update_of_ne hqi, hlist]
      exact hspaced q
  · rw [SpacedBelow, hkids, Function.update_self, hlist, hnew]
    exact hspaced i
  · exact hb.spacedBelow_of_size_le (by rwa [size_gather])

/-- Moving siblings below `i` moves the right end of `i` to that of the last of them, and changes no
other extent. -/
theorem extent_gatherRest {last : NodeId} (hi : i < a.size)
    (hlast : siblings.getLast? = some last) :
    ((a.gatherRest i c siblings o).node x).extent =
      if x = i then ((a.node i).left, (a.node last).right) else (a.node x).extent := by
  obtain ⟨first, hfirst⟩ : ∃ first, siblings.head? = some first := by
    cases siblings with
    | nil => cases hlast
    | cons first _ => exact ⟨first, rfl⟩
  rw [gatherRest_eq hfirst hlast]
  dsimp only
  generalize (a.redirected c first last).chain _ _ = ids
  have hadopted : (((a.redirected c first last).adoptedBy i ids last o).node x).extent =
      if x = i then ((a.node i).left, (a.node last).right) else (a.node x).extent := by
    have hsame {y : NodeId} :
        (((a.redirected c first last).adopt (some i) ids).node y).extent = (a.node y).extent :=
      (proj_adopt Node.extent fun _ _ => rfl).trans (proj_redirected Node.extent fun _ _ => rfl)
    have hleft := congrArg Prod.fst (@hsame i)
    have hright := congrArg Prod.snd (@hsame last)
    rw [adoptedBy, field_update Node.extent (by simpa [redirected] using hi), hsame]
    congr 1
    exact Prod.ext hleft hright
  split
  · exact (proj_update Node.extent (by intro _; rfl)).trans hadopted
  · exact hadopted

/-- **Moving siblings below `i`**, whose right end goes with them. -/
theorem SpanNested.gatherRest (h : a.SpanNested) (ha : a.Linked) (hi : a.children i = [c])
    (hc : (a.node c).extent = (a.node i).extent)
    (hp : a.children p = before ++ i :: (siblings ++ after)) (hs : siblings ≠ []) :
    (a.gatherRest i c siblings after.head?).SpanNested := by
  obtain ⟨hb, hkids⟩ := ha.gatherRest hi hp hs
  obtain ⟨last, hlast⟩ : ∃ last, siblings.getLast? = some last :=
    Option.ne_none_iff_exists'.mp (by simpa using hs)
  have hpi : (a.node i).parent = some p := ha.parent_eq hp
  obtain ⟨hip, hci, -⟩ := ha.not_mem_of_children_eq hi hp
  have hext (x : NodeId) := extent_gatherRest (c := c) (o := after.head?) (x := x)
    (lt_size_of_parent hpi) hlast
  generalize a.gatherRest i c siblings after.head? = b at hb hkids hext
  have hself : (b.node i).extent = ((a.node i).left, (a.node last).right) := by
    rw [hext, if_pos rfl]
  have hsame {l : List NodeId} (hl : i ∉ l) : b.spans l = a.spans l :=
    spans_congr fun x hx => by rw [hext, if_neg (ne_of_mem_of_not_mem hx hl)]
  have hspaced := ha.spanNested_iff.mp h
  have hlist : a.SpacedBelow p := hspaced p
  have hnd := ha.nodup_children p
  rw [SpacedBelow, hp, spans_append, spans_cons, spans_append] at hlist
  rw [hp] at hnd
  obtain ⟨houter, hinner⟩ := hlist.gather (e := (a.node last).extent) (by
    rw [spans, List.getLast?_map, hlast, Option.map_some])
  refine hb.spanNested_iff.mpr fun q => ?_
  rw [SpacedBelow, hkids]
  by_cases hqi : q = i
  · rw [hqi, Function.update_self, hself, hsame (by grind), spans_cons, hc]
    exact hinner
  rw [Function.update_of_ne hqi, hext, if_neg hqi]
  by_cases hqp : q = p
  · rw [hqp, Function.update_self, spans_append, spans_cons, hself, hsame (by grind),
      hsame (by grind)]
    exact houter
  · rw [Function.update_of_ne hqp, hsame]
    · exact hspaced q
    · exact fun hmem => hqp (Option.some.inj ((ha.mem_children.mp hmem).symm.trans hpi))

/-- **A clone** is as nested as the subtree that it was made of. -/
theorem SpanNested.cloneSubtree (h : a.SpanNested) (ha : a.Linked) (hi : i < a.size) :
    (a.cloneSubtree i).2.SpanNested := by
  obtain ⟨src, hdone, -⟩ := ha.exists_copying hi
  generalize (a.cloneSubtree i).2 = b at hdone
  have hext := hdone.extension
  have hspaced := ha.spanNested_iff.mp h
  have hnew {x : NodeId} (hx : a.size ≤ x) (hxb : x < b.size) :
      (b.node x).extent = (a.node (src x)).extent := by
    have hmark := congrArg Prod.fst (hdone.mark x hx hxb).2
    exact Prod.ext (congrArg Face.left hmark) (congrArg Face.right hmark)
  refine hext.linked.spanNested_iff.mpr fun q => ?_
  rcases Nat.lt_or_ge q a.size with hq | hq
  · rw [SpacedBelow, hext.children_eq ha hq, hext.node_eq q hq,
      spans_congr fun x hx => congrArg Node.extent (hext.node_eq x (ha.lt_size_of_mem hx))]
    exact hspaced q
  rcases Nat.lt_or_ge q b.size with hqb | hqb
  · have hkids := hdone.children_eq q hq hqb
    rw [List.append_nil] at hkids
    have hlist : b.spans (b.children q) = a.spans (a.children (src q)) := by
      rw [← hkids, spans, spans, List.map_map]
      exact List.map_congr_left fun x hx =>
        hnew (hext.size_le_of_mem ha hq hx) (hext.linked.lt_size_of_mem hx)
    rw [SpacedBelow, hlist, hnew hq hqb]
    exact hspaced (src q)
  · exact hext.linked.spacedBelow_of_size_le hqb

namespace SpanNested

theorem deleteChild (h : a.SpanNested) (ha : a.Linked) (p c : NodeId) :
    (a.deleteChild p c).arena.SpanNested := by
  rcases ha.deleteChild_cases p c with ⟨-, hno⟩ | ⟨before, after, -, hp, -⟩
  · rw [hno.arena_eq]
    exact h
  · rw [ha.deleteChild_eq hp]
    exact h.promote ha hp

theorem foldUnder (h : a.SpanNested) (ha : a.Linked) (i : NodeId) :
    (a.foldUnder i).arena.SpanNested := by
  rcases ha.foldUnder_cases i with ⟨-, hno⟩ | ⟨p, before, after, -, hp, -⟩
  · rw [hno.arena_eq]
    exact h
  · rw [ha.foldUnder_eq hp]
    exact h.promote ha hp

theorem foldOver (h : a.SpanNested) (ha : a.Linked) (i : NodeId) :
    (a.foldOver i).arena.SpanNested := by
  rcases ha.foldOver_cases i with ⟨-, hno⟩ | ⟨p, before, after, -, hp, -⟩
  · rw [hno.arena_eq]
    exact h
  · rw [ha.foldOver_eq hp]
    exact (h.promote ha hp).of_sameLinks (ha.promote hp).1 (sameLinks_setLabel ..)
      fun _ => proj_update Node.extent fun _ => rfl

theorem tear (h : a.SpanNested) (ha : a.Linked) (i : NodeId) : (a.tear i).arena.SpanNested := by
  rcases ha.tear_cases i with ⟨-, hno⟩ | ⟨p, before, after, -, hp, -⟩
  · rw [hno.arena_eq]
    exact h
  · rw [ha.tear_eq hp]
    exact h.cut ha hp

/-- A clone is stored, and the node is cut out of the list that it is still in. -/
theorem tearInto (h : a.SpanNested) (ha : a.Linked) (i : NodeId) (key : String) :
    (a.tearInto i key).arena.SpanNested := by
  rcases ha.tearInto_cases i key with ⟨-, hno⟩ | ⟨p, before, after, -, hp, -⟩
  · rw [hno.arena_eq]
    exact h
  rw [ha.tearInto_eq hp key]
  have hi : (a.node i).parent = some p := ha.parent_eq hp
  have hclone := ha.cloneSubtree i
  have hnested := h.cloneSubtree ha (lt_size_of_parent hi)
  have hkids : (a.cloneSubtree i).2.children p = before ++ i :: after :=
    (hclone.children_eq ha (ha.parent_lt_size hi)).trans hp
  have hsame := sameLinks_updateStore (a.cloneSubtree i).2 (a.node p).store fun store =>
    store.insert key a.size
  obtain ⟨hlinked, hlists⟩ := hclone.linked.of_sameLinks hsame
  exact (hnested.of_sameLinks hclone.linked hsame fun _ => rfl).cut hlinked
    ((congrFun hlists p).trans hkids)

/-- **Gathering siblings**, with or without any. -/
theorem gatherWithSiblings (h : a.SpanNested) (ha : a.Linked) (hi : i < a.size) (label : String)
    (siblings : List NodeId) : (a.gatherWithSiblings i label siblings).arena.SpanNested := by
  by_cases hs : siblings = []
  · rw [hs, gatherWithSiblings_nil]
    exact h.gather ha hi label
  rcases ha.gatherWithSiblings_cases hi label siblings with
    hno | ⟨hnil, -⟩ | ⟨p, before, after, -, hp, -⟩
  · rw [hno.arena_eq]
    exact h
  · exact absurd hnil hs
  · rw [ha.gatherWithSiblings_eq label hp]
    have hpi : (a.node i).parent = some p := ha.parent_eq hp
    obtain ⟨hold, hnew⟩ := extent_gather a i label
    exact (h.gather ha hi label).gatherRest (ha.gather hi label).1
      (ha.children_gather_self hi label) (hnew.trans (hold i hi).symm)
      ((ha.children_gather_of_ne hi label (ha.parent_lt_size hpi) (ha.ne_of_parent hpi).symm).trans
        hp) hs

end SpanNested

/-- What a wrapper has below it. -/
theorem Linked.children_of_gatherWithSiblings (ha : a.Linked) {label : String} (hi : i < a.size)
    (hok : a.gatherWithSiblings i label siblings = .ok b c) :
    b.Linked ∧ b.children i = c :: siblings := by
  have hne : i ≠ a.size := Nat.ne_of_lt hi
  have hsame {d : Arena} (hd : a.gatherWithSiblings i label siblings = .ok d a.size) :
      d = b ∧ a.size = c :=
    ⟨congrArg Outcome.arena (hd.symm.trans hok),
      Except.ok.inj (congrArg Outcome.result (hd.symm.trans hok))⟩
  rcases ha.gatherWithSiblings_cases hi label siblings with
    ⟨e, log, hno⟩ | ⟨rfl, d, hd, hrel, -⟩ | ⟨p, before, after, d, hp, hd, hrel, -⟩
  · cases hno.symm.trans hok
  · obtain ⟨rfl, rfl⟩ := hsame hd
    refine ⟨hrel.linked, (hrel.children_eq i hi).trans ?_⟩
    rw [deepened, Function.update_of_ne hne, Function.update_self]
  · obtain ⟨rfl, rfl⟩ := hsame hd
    refine ⟨hrel.linked, (hrel.children_eq i hi).trans ?_⟩
    rw [gathered, Function.update_of_ne hne, Function.update_self]

/-- Free slots show nothing, and so nesting can be checked. -/
instance (a : Arena) : Decidable a.SpanNested :=
  decidable_of_iff (∀ i < a.size, (a.node i).left ≤ (a.node i).right ∧
      (∀ p ∈ (a.node i).parent, (a.node p).left ≤ (a.node i).left ∧
        (a.node i).right ≤ (a.node p).right) ∧
      ∀ j ∈ (a.node i).nextSibling, (a.node i).right ≤ (a.node j).left) <| by
    constructor
    · intro h
      have hfree {i : NodeId} (hi : ¬ i < a.size) : a.node i = .blank :=
        node_of_size_le (Nat.not_lt.mp hi)
      refine ⟨fun i => ?_, fun i p hp => (h i (lt_size_of_parent hp)).2.1 p hp, fun i j hj => ?_⟩
      · by_cases hi : i < a.size
        · exact (h i hi).1
        · rw [hfree hi]
          exact Nat.le_refl 0
      · by_cases hi : i < a.size
        · exact (h i hi).2.2 j hj
        · rw [hfree hi] at hj
          cases hj
    · exact fun h i _ => ⟨h.ordered i, h.inside i, h.apart i⟩

end Arena

/-! ## Runs -/

/-- Whether an edit inserts a stored subtree. -/
def Edit.inserts : Edit → Bool
  | .insert .. => true
  | _ => false

namespace Command

open Arena

variable {a b : Arena} {c : Command} {cs : List Command} {i x : NodeId}

/-- The operators that change levels, labels and kinds of nodes, and whatever is done with such
operators only. Extents are not set, and nothing is appended or inserted. -/
def keepsSpans : Command → Bool
  | .deleteChild .. | .setLabel .. | .setKind .. | .foldOver _ | .foldUnder _ | .gather ..
  | .gatherWithSiblings .. | .tear _ | .tearInto .. | .clone _ => true
  | .apply action .. => !action.edits.any Edit.inserts
  | .transform rules .. | .toAst rules .. => !rules.edits.any Edit.inserts
  | _ => false

/-- **One operator.** -/
theorem spanNested_edit (hc : c.keepsSpans = true) (hedit : c.isEdit = true) (hrange : c.InRange a)
    (ha : a.Linked) (h : a.SpanNested) : (c.run a).arena.SpanNested := by
  cases c with
  | deleteChild p child =>
    rw [run, Outcome.arena_map]
    exact h.deleteChild ha p child
  | setLabel i label =>
    exact h.of_sameLinks ha (sameLinks_setLabel ..) fun _ => proj_update Node.extent fun _ => rfl
  | setKind i kind =>
    exact h.of_sameLinks ha (sameLinks_setKind ..) fun _ => proj_update Node.extent fun _ => rfl
  | foldOver i =>
    rw [run, Outcome.arena_map]
    exact h.foldOver ha i
  | foldUnder i =>
    rw [run, Outcome.arena_map]
    exact h.foldUnder ha i
  | gather i label => exact h.gather ha (hrange i List.mem_cons_self) label
  | gatherWithSiblings i label siblings =>
    rw [run, Outcome.arena_map]
    exact h.gatherWithSiblings ha (hrange i List.mem_cons_self) label siblings
  | tear i =>
    rw [run, Outcome.arena_map]
    exact h.tear ha i
  | tearInto i key =>
    rw [run, Outcome.arena_map]
    exact h.tearInto ha i key
  | clone i => exact h.cloneSubtree ha (hrange i List.mem_cons_self)
  | make | makeSymbol | push | addChild | setChild | setSibling | setParent | setLeft | setRight
  | insert => cases hc
  | apply | transform | toAst => cases hedit

theorem rearranges_of_keepsSpans (hc : c.keepsSpans = true) (hedit : c.isEdit = true) :
    c.Rearranges := by
  cases c <;> first | exact ⟨rfl, rfl⟩ | cases hc | cases hedit

/-- The command of an edit that does not insert is such an operator. -/
theorem keepsSpans_of_command? {e : Edit} {input : String} (he : e.inserts = false)
    (hc : e.command? input a i = some c) : c.keepsSpans = true := by
  cases e <;> simp only [Edit.command?, Option.map_eq_some_iff, Option.some.injEq] at hc <;>
    grind [Edit.inserts, keepsSpans]

/-- **One command**, an operator or something that carries out operators. -/
theorem spanNested_run (hc : c.keepsSpans = true) (hrange : c.InRange a)
    (h : a.Linked ∧ a.SpanNested) : (c.run a).arena.Linked ∧ (c.run a).arena.SpanNested := by
  obtain ⟨ha, hnested⟩ := h
  have hedits {es : List Edit} (hes : es.any Edit.inserts = false) (input : String) :
      ∀ e ∈ es, ∀ b j, b.Linked → b.SpanNested → j < b.size → ∀ d ∈ e.command? input b j,
        d.InRange b → (d.run b).arena.SpanNested := by
    intro e he b j hb hnested _ d hd hrange
    have hno : e.inserts = false := by simpa using List.any_eq_false.mp hes e he
    exact spanNested_edit (keepsSpans_of_command? hno hd) (Edit.isEdit_of_command? hd) hrange hb
      hnested
  cases hedit : c.isEdit with
  | true =>
    exact ⟨linked_run ha (rearranges_of_keepsSpans hc hedit) hrange,
      spanNested_edit hc hedit hrange ha hnested⟩
  | false =>
    cases c with
    | apply action i input =>
      have hno : action.edits.any Edit.inserts = false := by simpa [keepsSpans] using hc
      rw [run, Outcome.arena_map, Action.apply_eq_applyEdits]
      exact Edit.applyAll_keeps (hedits hno input) ha hnested (hrange i List.mem_cons_self)
    | transform rules i input =>
      have hno : rules.edits.any Edit.inserts = false := by simpa [keepsSpans] using hc
      exact RuleTable.transform_keeps (hedits hno input) ha hnested (hrange i List.mem_cons_self)
    | toAst rules root input =>
      have hno : rules.edits.any Edit.inserts = false := by simpa [keepsSpans] using hc
      rw [arena_run_toAst]
      exact RuleTable.walk_keeps (hedits hno input) ha hnested root
    | _ => cases hedit

/-- **Every run keeps spans nested.** The run may consist of any operators that move nodes between
levels, of rules and walks with tables that insert nothing, and of calls that fail. At every point
of it a wrapper made by gathering siblings has the copy and the siblings as its children, and
covers them. -/
theorem spanNested_runAll (ha : a.Linked) (h : a.SpanNested)
    (hcs : InTurn (fun b c => c.keepsSpans = true ∧ c.InRange b) a cs) :
    (runAll cs a).Linked ∧ (runAll cs a).SpanNested ∧
      ∀ i label siblings b c, i < (runAll cs a).size →
        (runAll cs a).gatherWithSiblings i label siblings = .ok b c →
        b.children i = c :: siblings ∧ ∀ x ∈ c :: siblings,
          (b.node i).left ≤ (b.node x).left ∧ (b.node x).right ≤ (b.node i).right := by
  obtain ⟨hlinked, hnested⟩ := InTurn.runAll (I := fun b => b.Linked ∧ b.SpanNested)
    (fun b c hb hc => spanNested_run hc.1 hc.2 hb) ⟨ha, h⟩ hcs
  refine ⟨hlinked, hnested, fun i label siblings b c hi hok => ?_⟩
  have hb := hnested.gatherWithSiblings hlinked hi label siblings
  obtain ⟨hblinked, hkids⟩ := hlinked.children_of_gatherWithSiblings hi hok
  rw [hok] at hb
  exact ⟨hkids, fun x hx => hb.inside x i (hblinked.mem_children.mp (hkids ▸ hx))⟩

/-- Two leaves are gathered, under a level that is gathered in turn, and one of them is torn; a fold
of the root fails. -/
def regroup : List Command :=
  [.gatherWithSiblings 3 "g" [4], .foldUnder 0, .gather 3 "h", .tearInto 6 "k"]

/-- After that a walk gathers below the root, or else the first child is gathered with its siblings
and covers them. -/
theorem spanNested_bushy :
    (runAll (regroup ++ [.toAst RuleTable.gatherTable 0 "abcd"]) RuleTable.bushy).SpanNested ∧
      ∃ b, (runAll regroup RuleTable.bushy).gatherWithSiblings 1 "list" [2, 5] = .ok b 9 ∧
        b.children 1 = [9, 2, 5] ∧ (b.node 5).right ≤ (b.node 1).right := by
  have hlinked := RuleTable.linked_bushy
  have hnested : RuleTable.bushy.SpanNested := by decide
  refine ⟨(spanNested_runAll hlinked hnested (by decide)).2.1, ?_⟩
  obtain ⟨hlinked', -, hcovers⟩ := spanNested_runAll hlinked hnested
    (show InTurn _ RuleTable.bushy regroup by decide)
  have hkids : (runAll regroup RuleTable.bushy).children 0 = [] ++ 1 :: ([2, 5] ++ []) := by decide
  have hsize : (runAll regroup RuleTable.bushy).size = 9 := by decide
  obtain ⟨b, hok, -⟩ := hlinked'.gatherWithSiblings "list" hkids
  rw [hsize] at hok
  obtain ⟨hlist, hcover⟩ := hcovers 1 "list" [2, 5] b 9 (by rw [hsize]; decide) hok
  exact ⟨b, hok, hlist, (hcover 5 (by simp)).2⟩

end Command

end ParseTree
