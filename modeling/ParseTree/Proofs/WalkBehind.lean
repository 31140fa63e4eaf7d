import ParseTree.Proofs.Behind
import ParseTree.Proofs.Stores
import ParseTree.Proofs.WalkOrder

/-!
# Edits and walks behind an arena

What is done to the nodes of an arena does not depend on what stands in front of them. So an
operator behind `a` succeeds where it succeeds by itself, and does the same. This goes up through
edits and rules to walks: a walk behind `a` goes to the same nodes in the same order.

Errors name nodes by identity, and so do the events of a walk. These are left out: `Outcome.Behind`
compares whether there is a result, which one, and the arenas.

## Main results

* `Linked.gatherWithSiblings_behind`, `Linked.tearInto_behind`, `WellFormed.insert_behind`:
  operators.
* `Edit.apply_behind`, `RuleTable.transform_append`: edits and rules.
* `RuleTable.walk_append`: walks.
-/

namespace ParseTree

/-- The outcome `o'` is what `o` is behind arena `a`. -/
structure Outcome.Behind {α : Type} (a : Arena) (move : α → α) (o o' : Outcome α) : Prop where
  arena : o'.arena = a ++ o.arena
  value : o'.result.toOption = o.result.toOption.map move

namespace Outcome

variable {α β : Type} {a b : Arena} {move : α → α} {move' : β → β} {o o' : Outcome α}

theorem behind_ok (a b : Arena) (move : α → α) (x : α) :
    Outcome.Behind a move (.ok b x) (.ok (a ++ b) (move x)) :=
  ⟨rfl, rfl⟩

theorem behind_fail (a b : Arena) (move : α → α) (e e' : EditError) (message message' : String)
    (fields fields' : List (String × String)) :
    Outcome.Behind a move (.fail b e message fields) (.fail (a ++ b) e' message' fields') :=
  ⟨rfl, rfl⟩

theorem Behind.map (h : o.Behind a move o') {f g : α → β} (hfg : ∀ x, g (move x) = move' (f x)) :
    (o.map f).Behind a move' (o'.map g) := by
  obtain ⟨harena, hvalue⟩ := h
  match o, o' with
  | ⟨.error e, d, log⟩, ⟨.error e', d', log'⟩ => exact ⟨harena, rfl⟩
  | ⟨.error e, d, log⟩, ⟨.ok x', d', log'⟩ => cases hvalue
  | ⟨.ok x, d, log⟩, ⟨.error e', d', log'⟩ => cases hvalue
  | ⟨.ok x, d, log⟩, ⟨.ok x', d', log'⟩ =>
    obtain rfl : x' = move x := Option.some.inj hvalue
    exact ⟨harena, congrArg some (hfg x)⟩

theorem Behind.bind (h : o.Behind a move o') {next next' : Arena → α → Outcome β}
    (hnext : ∀ x, o.result = .ok x →
      (next o.arena x).Behind a move' (next' (a ++ o.arena) (move x))) :
    (o.bind next).Behind a move' (o'.bind next') := by
  obtain ⟨harena, hvalue⟩ := h
  match o, o' with
  | ⟨.error e, d, log⟩, ⟨.error e', d', log'⟩ => exact ⟨harena, rfl⟩
  | ⟨.error e, d, log⟩, ⟨.ok x', d', log'⟩ => cases hvalue
  | ⟨.ok x, d, log⟩, ⟨.error e', d', log'⟩ => cases hvalue
  | ⟨.ok x, d, log⟩, ⟨.ok x', d', log'⟩ =>
    obtain rfl : x' = move x := Option.some.inj hvalue
    obtain rfl : d' = a ++ d := harena
    obtain ⟨harena', hvalue'⟩ := hnext x rfl
    exact ⟨harena', hvalue'⟩

end Outcome

namespace Arena

open Outcome

variable {b d : Arena} {i p c : NodeId} {before after siblings : List NodeId}

/-! ## Folding and tearing -/

theorem withParent_behind (a : Arena) {edit : ParentEdit}
    {next next' : Arena → NodeId → Outcome Unit}
    (h : ∀ p, (b.node i).parent = some p → (next b p).Behind a id (next' (a ++ b) (a.size + p))) :
    (b.withParent edit i next).Behind a id ((a ++ b).withParent edit (a.size + i) next') := by
  rw [withParent, withParent, parent_append]
  cases hi : (b.node i).parent with
  | none => exact behind_fail ..
  | some p => exact h p hi

theorem Linked.withPredecessor_behind (hb : b.Linked) (a : Arena)
    {next next' : Arena → Option NodeId → Outcome Unit}
    (h : ∀ prev, (next b prev).Behind a id (next' (a ++ b) (prev.map (a.size + ·)))) :
    (b.withPredecessor p c next).Behind a id
      ((a ++ b).withPredecessor (a.size + p) (a.size + c) next') := by
  rw [withPredecessor, withPredecessor, hb.predecessor?_append]
  cases b.predecessor? p c with
  | none => exact behind_fail ..
  | some prev => exact h prev

theorem Linked.deleteChild_behind (hb : b.Linked) (a : Arena) (p c : NodeId) :
    (b.deleteChild p c).Behind a id ((a ++ b).deleteChild (a.size + p) (a.size + c)) :=
  hb.withPredecessor_behind a fun prev => by
    rw [hb.promote_append]
    exact behind_ok a _ id ()

theorem Linked.foldUnder_behind (hb : b.Linked) (a : Arena) (i : NodeId) :
    (b.foldUnder i).Behind a id ((a ++ b).foldUnder (a.size + i)) :=
  withParent_behind a fun p _ => hb.deleteChild_behind a p i

theorem Linked.foldOver_behind (hb : b.Linked) (a : Arena) (i : NodeId) :
    (b.foldOver i).Behind a id ((a ++ b).foldOver (a.size + i)) :=
  withParent_behind a fun p _ => (hb.deleteChild_behind a p i).bind fun _ _ => by
    rw [label_append, setLabel_append]
    exact behind_ok a _ id ()

theorem Linked.tear_behind (hb : b.Linked) (a : Arena) (i : NodeId) :
    (b.tear i).Behind a id ((a ++ b).tear (a.size + i)) :=
  withParent_behind a fun p _ => hb.withPredecessor_behind a fun prev => by
    have hcut := splice_append a b p prev i none
    rw [Option.map_none] at hcut
    rw [hcut]
    exact behind_ok a _ id ()

theorem Linked.tearInto_behind (hb : b.Linked) (a : Arena) (i : NodeId) (key : String) :
    (b.tearInto i key).Behind a id ((a ++ b).tearInto (a.size + i) key) :=
  withParent_behind a fun p hi => hb.withPredecessor_behind a fun prev => by
    have hclone : b.Extension (b.cloneSubtree i).2 := hb.cloneSubtree i
    dsimp only [cloneSubtree_fst]
    rw [hb.cloneSubtree_append a (lt_size_of_parent hi), size_append]
    generalize (b.cloneSubtree i).2 = d at hclone
    have hp : p < d.size := Nat.lt_trans (hb.parent_lt_size hi) hclone.size_lt
    have hstore : ((a ++ d).node (a.size + p)).store = a.stores.size + (d.node p).store := by
      rw [node_append a hp]
      rfl
    have hupdate : (a ++ d).updateStore (a.stores.size + (d.node p).store)
        (fun store => store.insert key (a.size + b.size)) =
          a ++ d.updateStore (d.node p).store fun store => store.insert key b.size :=
      updateStore_append a d _ fun store => store.insert_behind a key b.size
    have hcut (e : Arena) := splice_append a e p prev i none
    rw [hstore, hupdate]
    exact hcut _ ▸ behind_ok a _ id ()

/-! ## Gathering -/

theorem Linked.gather_append (hb : b.Linked) (a : Arena) (hi : i < b.size) (label : String) :
    ((a ++ b).gather (a.size + i) label).2 = a ++ (b.gather i label).2 := by
  have hcopy : b.Extension (b.copy i).2 := hb.extension_copy i
  have hends := hcopy.linked.ends_firstChild i
  have hfresh : ((b.copy i).2.node b.size).nextSibling = none := by
    rw [node_copy, if_pos rfl]
    rfl
  rw [gather_snd, gather_snd, copy_append a hi, size_append, firstChild_append]
  dsimp only
  rw [setChild_append hends, setLabel_append, setKind_append]
  refine setChild_append (ends_of_nextSibling_none ?_ ?_) a i
  · simp [setKind, setLabel]
  · rw [(sameLinks_setKind _ i _).nextSibling, (sameLinks_setLabel _ i _).nextSibling,
      nextSibling_setChild, hfresh]

theorem redirected_append (a d : Arena) (c first last : NodeId) :
    (a ++ d).redirected (a.size + c) (a.size + first) (a.size + last) =
      a ++ d.redirected c first last := by
  have hlast := updateNext_append a d last none
  rw [Option.map_none] at hlast
  rw [redirected, redirected, hlast]
  exact updateNext_append a _ c (some first)

theorem adoptedBy_append (a d : Arena) (i : NodeId) (l : List NodeId) (last : NodeId)
    (o : Option NodeId) :
    (a ++ d).adoptedBy (a.size + i) (l.map (a.size + ·)) (a.size + last) (o.map (a.size + ·)) =
      a ++ d.adoptedBy i l last o := by
  rw [adoptedBy, adoptedBy, show some (a.size + i) = (some i).map (a.size + ·) from rfl,
    adopt_append, right_append]
  exact update_append a _ i fun _ => rfl

theorem Linked.gatherRest_append (hd : d.Linked) (a : Arena) (hi : d.children i = [c])
    (hp : d.children p = before ++ i :: (siblings ++ after)) (o : Option NodeId) :
    (a ++ d).gatherRest (a.size + i) (a.size + c) (siblings.map (a.size + ·))
        (o.map (a.size + ·)) = a ++ d.gatherRest i c siblings o := by
  by_cases hs : siblings = []
  · subst hs
    rfl
  obtain ⟨first, hfirst⟩ : ∃ first, siblings.head? = some first :=
    Option.ne_none_iff_exists'.mp (by simpa using hs)
  obtain ⟨last, hlast⟩ : ∃ last, siblings.getLast? = some last :=
    Option.ne_none_iff_exists'.mp (by simpa using hs)
  have hends : (d.redirected c first last).Ends (some c) := by
    refine ⟨c :: siblings, hd.strung_redirected hi hp hfirst hlast, rfl, fun x hx => ?_⟩
    have hsize : (d.redirected c first last).size = d.size := by simp [redirected]
    rw [hsize]
    rcases List.mem_cons.mp hx with rfl | hx
    · exact hd.lt_size_of_mem (p := i) (by simp [hi])
    · exact hd.lt_size_of_mem (p := p) (by simp [hp, hx])
  have hfirst' : (siblings.map (a.size + ·)).head? = some (a.size + first) := by
    rw [List.head?_map, hfirst]
    rfl
  have hlast' : (siblings.map (a.size + ·)).getLast? = some (a.size + last) := by
    rw [List.getLast?_map, hlast]
    rfl
  have hsome : some (a.size + c) = (some c).map (a.size + ·) := rfl
  rw [gatherRest_eq hfirst' hlast', gatherRest_eq hfirst hlast]
  dsimp only
  rw [redirected_append, hsome, hends.chain_append, adoptedBy_append, parent_append]
  generalize (d.redirected c first last).adoptedBy i _ last o = e
  cases o with
  | some next => rfl
  | none =>
    cases (e.node i).parent with
    | none => rfl
    | some q => exact updateLast_append a e q (some i)

theorem Linked.gatherWithSiblings_behind (hb : b.Linked) (a : Arena) (hi : i < b.size)
    (label : String) (siblings : List NodeId) :
    (b.gatherWithSiblings i label siblings).Behind a (a.size + ·)
      ((a ++ b).gatherWithSiblings (a.size + i) label (siblings.map (a.size + ·))) := by
  have hfollow := follow?_append a b (b.node i).nextSibling siblings
  rw [Arena.gatherWithSiblings, Arena.gatherWithSiblings, nextSibling_append, hfollow]
  cases hnext : b.follow? (b.node i).nextSibling siblings with
  | none => exact behind_fail ..
  | some next =>
    have hrest : (a ++ (b.gather i label).2).gatherRest (a.size + i) (a.size + b.size)
        (siblings.map (a.size + ·)) (next.map (a.size + ·)) =
          a ++ (b.gather i label).2.gatherRest i b.size siblings next := by
      by_cases hs : siblings = []
      · subst hs
        rfl
      obtain ⟨after, hafter, -⟩ := hb.follow?_eq_some_iff.mp hnext
      cases hpi : (b.node i).parent with
      | none =>
        rw [hb.rightSiblings_of_root hpi] at hafter
        exact absurd (List.append_eq_nil_iff.mp hafter.symm).1 hs
      | some p =>
        obtain ⟨before, after', hp⟩ := hb.exists_children_eq hpi
        rw [hb.rightSiblings_eq hp] at hafter
        subst hafter
        obtain ⟨hlinked, hkids⟩ := hb.gather hi label
        have hip : i ≠ p := hb.ne_of_parent hpi
        have hi' : (b.gather i label).2.children i = [b.size] := by
          rw [hkids, Function.update_of_ne (Nat.ne_of_lt hi), Function.update_self]
        have hp' : (b.gather i label).2.children p = before ++ i :: (siblings ++ after) := by
          rw [hkids, Function.update_of_ne (Nat.ne_of_lt (hb.parent_lt_size hpi)),
            Function.update_of_ne (Ne.symm hip), hp]
        exact hlinked.gatherRest_append a hi' hp' next
    dsimp only [Option.map_some, gather_fst]
    rw [hb.gather_append a hi, size_append, hrest]
    exact behind_ok a _ (a.size + ·) b.size

/-! ## Inserting -/

theorem WellFormed.insert_behind (hb : b.WellFormed) (a : Arena) (hi : i < b.size) (position : Nat)
    (key : String) :
    (b.insert i position key).Behind a (a.size + ·)
      ((a ++ b).insert (a.size + i) position key) := by
  have hlength : ((a ++ b).children (a.size + i)).length = (b.children i).length := by
    rw [hb.linked.children_append, List.length_map]
  rw [Arena.insert, Arena.insert, torn?_append a hi]
  cases hstored : b.torn? i key with
  | none => exact behind_fail ..
  | some stored =>
    dsimp only [Option.map_some, cloneSubtree_fst]
    rw [hlength]
    split
    · exact behind_fail ..
    · have hlt : stored < b.size := (hb.root_of_storedAt? hstored).1
      have hclone : b.Extension (b.cloneSubtree stored).2 := hb.linked.cloneSubtree stored
      rw [hb.linked.cloneSubtree_append a hlt, size_append, hclone.linked.children_append]
      have hok (d : Arena) (prev : Option NodeId) :
          Behind a (a.size + ·) (.ok (d.linkAfter i prev b.size) b.size)
            (.ok ((a ++ d).linkAfter (a.size + i) (prev.map (a.size + ·)) (a.size + b.size))
              (a.size + b.size)) := by
        rw [linkAfter_append]
        exact behind_ok a _ (a.size + ·) b.size
      cases position with
      | zero => exact hok _ none
      | succ n =>
        dsimp only
        rw [List.getElem?_map]
        exact hok _ _

end Arena

open Arena Outcome

/-! ## Edits -/

/-- What an edit of an arena leaves: an arena that is well-formed again and has no fewer slots, and
if the edit succeeds, one of the slots. -/
structure Outcome.Sound (b : Arena) (o : Outcome NodeId) : Prop where
  wellFormed : o.arena.WellFormed
  size_le : b.size ≤ o.arena.size
  lt_size : ∀ x, o.result = .ok x → x < o.arena.size

section Edits

variable {b : Arena} {i : NodeId}

/-- The focus stays where it is. -/
theorem Outcome.sound_map {α : Type} {o : Outcome α} (hw : o.arena.WellFormed)
    (hsize : b.size ≤ o.arena.size) (hi : i < b.size) : (o.map fun _ => i).Sound b := by
  match o with
  | ⟨.error e, d, log⟩ => exact ⟨hw, hsize, fun x hx => by cases hx⟩
  | ⟨.ok y, d, log⟩ =>
    refine ⟨hw, hsize, fun x hx => ?_⟩
    obtain rfl : i = x := Except.ok.inj hx
    exact Nat.lt_of_lt_of_le hi hsize

/-- The focus moves to the first new node. -/
theorem Outcome.sound_ok {d : Arena} (hw : d.WellFormed) (hsize : d.size = b.size + 1) :
    (Outcome.ok d b.size).Sound b := by
  refine ⟨hw, ?_, fun x hx => ?_⟩
  · show b.size ≤ d.size
    exact hsize ▸ Nat.le_succ _
  · obtain rfl : b.size = x := Except.ok.inj hx
    show b.size < d.size
    exact hsize ▸ Nat.lt_succ_self _

theorem Arena.WellFormed.sound_gatherWithSiblings (hb : b.WellFormed) (hi : i < b.size)
    (label : String) (siblings : List NodeId) :
    (b.gatherWithSiblings i label siblings).Sound b := by
  have hw := hb.gatherWithSiblings hi label siblings
  unfold Arena.gatherWithSiblings at hw ⊢
  cases hnext : b.follow? (b.node i).nextSibling siblings with
  | none => exact ⟨hb, Nat.le_refl _, fun x hx => by cases hx⟩
  | some next =>
    rw [hnext] at hw
    exact sound_ok hw (size_gatherRest.trans (size_gather b i label))

/-- **An edit** of a node leaves a well-formed arena, and its focus is a node there. -/
theorem Edit.sound_apply (hb : b.WellFormed) (hi : i < b.size) (input : String) (e : Edit) :
    (e.apply input b i).Sound b := by
  have hf := Node.linkFree_origin
  cases e with
  | literal =>
    unfold Edit.apply
    cases b.underlyingText? i input with
    | none => exact ⟨hb, Nat.le_refl _, fun x hx => by cases hx⟩
    | some text =>
      refine ⟨hb.setLabel i text, ?_, fun x hx => ?_⟩
      · exact Nat.le_of_eq (size_update ..).symm
      · obtain rfl : i = x := Except.ok.inj hx
        exact Nat.lt_of_lt_of_eq hi (size_update ..).symm
  | foldUnder =>
    exact sound_map (hb.foldUnder i) (hf.keeps_foldUnder (K := Set.univ) i).size_le hi
  | foldOver =>
    refine sound_map (hb.foldOver i) ?_ hi
    exact (hf.keeps_foldOver (K := Set.univ) (.inr fun _ _ => rfl)).size_le
  | gather label => exact sound_ok (hb.gather hi label) (size_gather b i label)
  | gatherWithSiblings label => exact hb.sound_gatherWithSiblings hi label _
  | gatherWithNext label count =>
    unfold Edit.apply
    dsimp only
    split
    · exact ⟨hb, Nat.le_refl _, fun x hx => by cases hx⟩
    · exact hb.sound_gatherWithSiblings hi label _
  | gatherChildren label =>
    unfold Edit.apply
    dsimp only
    cases hfirst : (b.node i).firstChild with
    | none => exact ⟨hb, Nat.le_refl _, fun x hx => Except.ok.inj hx ▸ hi⟩
    | some first =>
      have hlt : first < b.size := (hb.linked.ends_firstChild i).lt_size first hfirst
      have hgather := hb.sound_gatherWithSiblings hlt label (b.rightSiblings first)
      exact sound_map hgather.wellFormed hgather.size_le hi
  | gatherFirstChild label =>
    unfold Edit.apply
    dsimp only
    cases hfirst : (b.node i).firstChild with
    | none => exact ⟨hb, Nat.le_refl _, fun x hx => Except.ok.inj hx ▸ hi⟩
    | some first =>
      have hlt : first < b.size := (hb.linked.ends_firstChild i).lt_size first hfirst
      have hgather := sound_ok (hb.gather hlt label) (size_gather b first label)
      exact sound_map hgather.wellFormed hgather.size_le hi
  | tear => exact sound_map (hb.tear i) (hf.keeps_tear (K := Set.univ) i).size_le hi
  | tearAs key =>
    exact sound_map (hb.tearInto i key) (hf.keeps_tearInto (K := Set.univ) i key).size_le hi
  | insert position key =>
    refine sound_map (hb.insert hi position.toNat key) ?_ hi
    exact (hf.keeps_insert (K := Set.univ) i position.toNat key).size_le

theorem Edit.sound_applyAll (hb : b.WellFormed) (hi : i < b.size) (input : String)
    (es : List Edit) : (Edit.applyAll input es b i).Sound b := by
  induction es generalizing b i with
  | nil => exact ⟨hb, Nat.le_refl _, fun x hx => Except.ok.inj hx ▸ hi⟩
  | cons e es ih =>
    have hedit := e.sound_apply hb hi input
    rw [Edit.applyAll]
    match ho : e.apply input b i with
    | ⟨.error error, d, log⟩ =>
      rw [ho] at hedit
      exact hedit
    | ⟨.ok x, d, log⟩ =>
      rw [ho] at hedit
      have hrest := ih hedit.wellFormed (hedit.lt_size x rfl)
      exact ⟨hrest.wellFormed, Nat.le_trans hedit.size_le hrest.size_le, hrest.lt_size⟩

/-- **An edit behind `a`** does what it does by itself. -/
theorem Edit.apply_behind (hb : b.WellFormed) (hi : i < b.size) (a : Arena) (input : String)
    (e : Edit) :
    (e.apply input b i).Behind a (a.size + ·) (e.apply input (a ++ b) (a.size + i)) := by
  have hstay (d : Arena) (x : NodeId) :
      Outcome.Behind a (a.size + ·) (.ok d x) (.ok (a ++ d) (a.size + x)) :=
    behind_ok a d _ x
  have hlinked := hb.linked
  cases e with
  | literal =>
    have hrange : (a ++ b).textRange (a.size + i) = b.textRange i := by
      rw [textRange, textRange, left_append, right_append]
    have htext : (a ++ b).underlyingText? (a.size + i) input = b.underlyingText? i input := by
      rw [underlyingText?, underlyingText?, hrange]
    unfold Edit.apply
    dsimp only
    rw [htext]
    cases b.underlyingText? i input with
    | none => exact behind_fail ..
    | some text =>
      dsimp only
      rw [setLabel_append]
      exact hstay _ i
  | foldUnder => exact (hlinked.foldUnder_behind a i).map fun _ => rfl
  | foldOver => exact (hlinked.foldOver_behind a i).map fun _ => rfl
  | gather label =>
    unfold Edit.apply
    dsimp only [gather_fst]
    rw [hlinked.gather_append a hi, size_append]
    exact hstay _ b.size
  | gatherWithSiblings label =>
    unfold Edit.apply
    rw [hlinked.rightSiblings_append]
    exact hlinked.gatherWithSiblings_behind a hi label _
  | gatherWithNext label count =>
    unfold Edit.apply
    dsimp only
    rw [nextSibling_append, chain_append, List.length_map]
    split
    · exact behind_fail ..
    · exact hlinked.gatherWithSiblings_behind a hi label _
  | gatherChildren label =>
    unfold Edit.apply
    dsimp only
    rw [firstChild_append]
    cases hfirst : (b.node i).firstChild with
    | none => exact hstay b i
    | some first =>
      have hlt : first < b.size := (hlinked.ends_firstChild i).lt_size first hfirst
      dsimp only [Option.map_some]
      rw [hlinked.rightSiblings_append]
      exact (hlinked.gatherWithSiblings_behind a hlt label _).map fun _ => rfl
  | gatherFirstChild label =>
    unfold Edit.apply
    dsimp only
    rw [firstChild_append]
    cases hfirst : (b.node i).firstChild with
    | none => exact hstay b i
    | some first =>
      have hlt : first < b.size := (hlinked.ends_firstChild i).lt_size first hfirst
      dsimp only [Option.map_some]
      rw [hlinked.gather_append a hlt]
      exact hstay _ i
  | tear => exact (hlinked.tear_behind a i).map fun _ => rfl
  | tearAs key => exact (hlinked.tearInto_behind a i key).map fun _ => rfl
  | insert position key => exact (hb.insert_behind a hi position.toNat key).map fun _ => rfl

/-- Sequences of edits, whether they come to their end or fail on the way. -/
theorem Edit.applyAll_behind (hb : b.WellFormed) (hi : i < b.size) (a : Arena) (input : String)
    (es : List Edit) :
    (Edit.applyAll input es b i).Behind a (a.size + ·)
      (Edit.applyAll input es (a ++ b) (a.size + i)) := by
  induction es generalizing b i with
  | nil => exact behind_ok a b (a.size + ·) i
  | cons e es ih =>
    have hedit := e.sound_apply hb hi input
    exact (e.apply_behind hb hi a input).bind fun x hx => ih hedit.wellFormed (hedit.lt_size x hx)

end Edits

/-! ## Rules -/

theorem Condition.labelIn_append (a b : Arena) (o : Option NodeId) (labels : List String) :
    labelIn (a ++ b) (o.map (a.size + ·)) labels = labelIn b o labels := by
  cases o with
  | none => rfl
  | some i => exact congrArg labels.contains (label_append a b i)

/-- **A condition** holds behind `a` where it holds by itself. -/
theorem Condition.holds_append (a b : Arena) (i : NodeId) (c : Condition) :
    c.holds (a ++ b) (a.size + i) = c.holds b i := by
  cases c with
  | always => rfl
  | parentIs labels => rw [holds, holds, parent_append, labelIn_append]
  | parentIsNot labels => rw [holds, holds, parent_append, labelIn_append]
  | grandparentIsNot labels =>
    have hbind : ((b.node i).parent.map (a.size + ·)).bind (fun p => ((a ++ b).node p).parent) =
        ((b.node i).parent.bind fun p => (b.node p).parent).map (a.size + ·) := by
      cases (b.node i).parent with
      | none => rfl
      | some p => exact parent_append a b p
    rw [holds, holds, parent_append, hbind, labelIn_append]
  | notOnlyChild =>
    rw [holds, holds, nextSibling_append, Option.isSome_map, parent_append]
    cases (b.node i).parent with
    | none => rfl
    | some p =>
      dsimp only [Option.map_some]
      rw [firstChild_append]
      cases (b.node p).firstChild with
      | none => rfl
      | some first =>
        have hsame : (some (a.size + first) != some (a.size + i)) = (some first != some i) := by
          rw [Bool.eq_iff_iff]
          simp
        rw [Option.map_some, hsame]

namespace RuleTable

variable {b : Arena} {i r : NodeId}

theorem match?_append (t : RuleTable) (a b : Arena) (i : NodeId) :
    t.match? (a ++ b) (a.size + i) = t.match? b i := by
  rw [match?, match?, label_append]
  exact congrArg (fun f => List.find? f _) (funext fun r => r.when.holds_append a b i)

/-- **A table behind `a`** does at a node what it does by itself. -/
theorem transform_append (t : RuleTable) (hb : b.WellFormed) (hi : i < b.size) (a : Arena)
    (input : String) :
    (t.transform input (a ++ b) (a.size + i)).1 = a ++ (t.transform input b i).1 := by
  rw [transform_fst, transform_fst, match?_append]
  cases t.match? b i with
  | none => rfl
  | some rule =>
    dsimp only
    rw [Action.apply_eq_applyEdits, Action.apply_eq_applyEdits]
    exact (Edit.applyAll_behind hb hi a input rule.action.edits).arena

/-- What a table does at a node leaves a well-formed arena. -/
theorem transform_wellFormed (t : RuleTable) (hb : b.WellFormed) (hi : i < b.size)
    (input : String) :
    (t.transform input b i).1.WellFormed ∧ b.size ≤ (t.transform input b i).1.size := by
  rw [transform_fst]
  cases t.match? b i with
  | none => exact ⟨hb, Nat.le_refl _⟩
  | some rule =>
    dsimp only
    rw [Action.apply_eq_applyEdits]
    have hsound := Edit.sound_applyAll hb hi input rule.action.edits
    exact ⟨hsound.wellFormed, hsound.size_le⟩

end RuleTable

/-! ## Walks -/

namespace Walk

variable {a b : Arena} {i owner : NodeId} {rest : List (NodeId × Option NodeId)}
  {w w' : Walk Unit}

/-- The walk `w'` is what `w` is behind arena `a`, but for the events. -/
structure Behind (a : Arena) (w w' : Walk Unit) : Prop where
  stack : w'.stack = w.stack.map (Prod.map (a.size + ·) (Option.map (a.size + ·)))
  arena : w'.arena = a ++ w.arena

/-- The arena of a walk is well-formed, and all that is on the stack is in it. -/
structure Fit (w : Walk Unit) : Prop where
  wellFormed : w.arena.WellFormed
  lt_size : ∀ e ∈ w.stack, e.1 < w.arena.size ∧ ∀ x ∈ e.2, x < w.arena.size

theorem visit_table (t : RuleTable) (input : String) (i owner : NodeId)
    (rest : List (NodeId × Option NodeId)) (b : Arena) (log : Array Event) :
    visit (Scheme.ofTable t) input i owner rest () b log =
      ⟨(owner, if ((t.transform input b i).1.node i).parent = some owner then
          ((t.transform input b i).1.node i).nextSibling else (b.node i).nextSibling) :: rest,
        (), (t.transform input b i).1, log ++ (t.transform input b i).2⟩ :=
  rfl

/-- **Showing a node** behind `a`. -/
theorem visit_behind (t : RuleTable) (input : String) (hb : b.WellFormed) (hi : i < b.size)
    (howner : owner < b.size) (hrest : ∀ e ∈ rest, e.1 < b.size ∧ ∀ x ∈ e.2, x < b.size)
    (a : Arena) (log log' : Array Event) :
    (visit (Scheme.ofTable t) input i owner rest () b log).Fit ∧
      Behind a (visit (Scheme.ofTable t) input i owner rest () b log)
        (visit (Scheme.ofTable t) input (a.size + i) (a.size + owner)
          (rest.map (Prod.map (a.size + ·) (Option.map (a.size + ·)))) () (a ++ b) log') := by
  obtain ⟨hwell, hsize⟩ := t.transform_wellFormed hb hi input
  have happend := t.transform_append hb hi a input
  rw [visit_table, visit_table, happend, parent_append, nextSibling_append, nextSibling_append]
  generalize (t.transform input b i).1 = d at hwell hsize
  have hle {x : NodeId} (hx : x < b.size) : x < d.size := Nat.lt_of_lt_of_le hx hsize
  have howns : (d.node i).parent.map (a.size + ·) = some (a.size + owner) ↔
      (d.node i).parent = some owner := by
    cases (d.node i).parent <;> simp
  refine ⟨⟨hwell, fun e he => ?_⟩, ⟨?_, rfl⟩⟩
  · rcases List.mem_cons.mp he with rfl | he
    · refine ⟨hle howner, fun x hx => ?_⟩
      dsimp only at hx
      split at hx
      · exact (hwell.linked.ends_nextSibling i).lt_size x hx
      · exact hle ((hb.linked.ends_nextSibling i).lt_size x hx)
    · exact ⟨hle (hrest e he).1, fun x hx => hle ((hrest e he).2 x hx)⟩
  · simp only [howns, List.map_cons, Prod.map_apply]
    split <;> rfl

/-- **One step** behind `a`. -/
theorem step_behind (t : RuleTable) (input : String) (hw : w.Fit) (h : Behind a w w') :
    (step (Scheme.ofTable t) input w).Fit ∧
      Behind a (step (Scheme.ofTable t) input w) (step (Scheme.ofTable t) input w') := by
  obtain ⟨hwell, hslots⟩ := hw
  obtain ⟨hstack, harena⟩ := h
  match w, w' with
  | ⟨stack, (), b, log⟩, ⟨stack', (), d, log'⟩ =>
  obtain rfl : d = a ++ b := harena
  obtain rfl : stack' = stack.map (Prod.map (a.size + ·) (Option.map (a.size + ·))) := hstack
  match stack with
  | [] => exact ⟨⟨hwell, hslots⟩, ⟨rfl, rfl⟩⟩
  | [(root, none)] => exact ⟨⟨hwell, by simp [step]⟩, ⟨rfl, rfl⟩⟩
  | (i, none) :: (owner, next) :: rest =>
    have hi : i < b.size := (hslots _ List.mem_cons_self).1
    have hrest := fun e he => hslots e (List.mem_cons_of_mem _ he)
    exact visit_behind t input hwell hi (hrest _ List.mem_cons_self).1
      (fun e he => hrest e (List.mem_cons_of_mem _ he)) a log log'
  | (owner, some i) :: rest =>
    have hi : i < b.size := (hslots _ List.mem_cons_self).2 i rfl
    have howner : owner < b.size := (hslots _ List.mem_cons_self).1
    have hrest := fun e he => hslots e (List.mem_cons_of_mem _ he)
    cases hfirst : (b.node i).firstChild with
    | some first =>
      have hfirst' : ((a ++ b).node (a.size + i)).firstChild = some (a.size + first) := by
        rw [firstChild_append, hfirst]
        rfl
      rw [step_descend _ _ hfirst]
      refine ⟨⟨hwell, fun e he => ?_⟩, ?_⟩
      · rcases List.mem_cons.mp he with rfl | he
        · refine ⟨hi, fun x hx => ?_⟩
          obtain rfl : first = x := Option.some.inj hx
          exact (hwell.linked.ends_firstChild i).lt_size first hfirst
        · exact hslots e he
      · rw [List.map_cons, Prod.map_apply, Option.map_some, step_descend _ _ hfirst']
        exact ⟨rfl, rfl⟩
    | none =>
      have hfirst' : ((a ++ b).node (a.size + i)).firstChild = none := by
        rw [firstChild_append, hfirst]
        rfl
      rw [step_leaf _ _ hfirst, List.map_cons, Prod.map_apply, Option.map_some,
        step_leaf _ _ hfirst']
      exact visit_behind t input hwell hi howner hrest a log log'

/-- **Any number of steps** behind `a`. -/
theorem run_behind (t : RuleTable) (input : String) (hw : w.Fit) (h : Behind a w w') (n : Nat) :
    (run (Scheme.ofTable t) input n w).Fit ∧
      Behind a (run (Scheme.ofTable t) input n w) (run (Scheme.ofTable t) input n w') := by
  induction n generalizing w w' with
  | zero => exact ⟨hw, h⟩
  | succ n ih =>
    have hempty : w'.stack.isEmpty = w.stack.isEmpty := by
      rw [h.stack]
      cases w.stack <;> rfl
    rw [run, run, hempty]
    split
    · exact ⟨hw, h⟩
    · obtain ⟨hfit, hbehind⟩ := step_behind t input hw h
      exact ih hfit hbehind

end Walk

/-- **A walk behind `a`** goes to the same nodes and leaves the same tree. -/
theorem RuleTable.walk_append (t : RuleTable) (input : String) {b : Arena} {r : NodeId}
    (hb : b.WellFormed) (hr : r < b.size) (a : Arena) :
    (walk (Scheme.ofTable t) input (a ++ b) (a.size + r) ()).arena =
      a ++ (walk (Scheme.ofTable t) input b r ()).arena := by
  have hfit : (Walk.start b r ()).Fit := by
    refine ⟨hb, fun e he => ?_⟩
    obtain rfl : e = (r, (b.node r).firstChild) := List.mem_singleton.mp he
    exact ⟨hr, (hb.linked.ends_firstChild r).lt_size⟩
  have hstart : Walk.Behind a (Walk.start b r ()) (Walk.start (a ++ b) (a.size + r) ()) := by
    refine ⟨?_, rfl⟩
    rw [Walk.start, firstChild_append]
    rfl
  have hrun := (Walk.run_behind t input hfit hstart (Walk.bound b)).2
  have hend : (Walk.run (Scheme.ofTable t) input (Walk.bound b) (Walk.start b r ())).stack = [] :=
    (t.walk_ends input hb.linked r).1
  have hend' : (Walk.run (Scheme.ofTable t) input (Walk.bound b)
      (Walk.start (a ++ b) (a.size + r) ())).stack = [] := by
    rw [hrun.stack, hend]
    rfl
  have hle : Walk.bound b ≤ Walk.bound (a ++ b) := by
    unfold Walk.bound
    rw [size_append]
    omega
  rw [Walk.walk_eq_run hle hend', hrun.arena]
  rfl

end ParseTree
