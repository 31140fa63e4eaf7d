import ParseTree.Proofs.Stores

/-!
# What was torn comes back

A keyed tear stores a clone of the subtree that it cuts off. The clone is a tree of its own, so that
commands on other nodes leave it alone, and so do inserts, which clone it once more. Between the
tear and an insert anything may happen to the rest of the arena, the torn subtree and the inserted
copies among it: as long as no other tree is stored under the key, the insert gives the tree as it
was.

`HoldsCopy` is what a run keeps; the tear establishes it and the insert uses it.

## Main results

* `WellFormed.holdsCopy_tearInto`: a keyed tear stores the tree that it cuts off.
* `HoldsCopy.runAll`: a run beside the stored copy leaves it alone.
* `HoldsCopy.restores`: what is stored can be inserted anywhere.
* `Command.restores_of_tearInto`: tear, run, insert.
-/

namespace ParseTree

namespace Arena

variable {a b d : Arena} {i p q x stored : NodeId} {key : String} {s : Nat}
  {t : Rose (Face × Nat)} {before after : List NodeId} {cs : List Command}

/-- **What is stored under `key` can be inserted** below `q` at every position: the insert succeeds,
the list of `q` gets one member, which is the tree `t`, and the entry stays. -/
def Restores (a : Arena) (q : NodeId) (key : String) (t : Rose (Face × Nat)) : Prop :=
  ∀ position ≤ (a.children q).length, ∃ b c, a.insert q position key = .ok b c ∧
    b.children q = (a.children q).take position ++ c :: (a.children q).drop position ∧
    b.rose Node.mark c = t ∧ b.torn? q key = a.torn? q key

/-- The tree `t` is stored under `key` in the store with index `s`, with `stored` for its root. -/
structure HoldsCopy (a : Arena) (s : Nat) (key : String) (stored : NodeId)
    (t : Rose (Face × Nat)) : Prop where
  wellFormed : a.WellFormed
  entry : a.storedAt? s key = some stored
  rose : a.rose Node.mark stored = t

/-! ## Tearing -/

/-- **A keyed tear stores a copy** of the tree that it cuts off. -/
theorem WellFormed.holdsCopy_tearInto (h : a.WellFormed) (hs : a.HasStores)
    (hp : a.children p = before ++ i :: after) (key : String) :
    ∃ b, a.tearInto i key = .ok b () ∧ a.Relinked b (a.shortened p before after) ∧
      b.HoldsCopy (a.node p).store key a.size (a.rose Node.mark i) := by
  have hi : i < a.size := h.linked.lt_size_of_mem (p := p) (by simp [hp])
  have hps : p < a.size := h.linked.parent_lt_size (h.linked.parent_eq hp)
  obtain ⟨b, hok, hb, -⟩ := h.linked.tearInto_relinked hp key
  have hwf : b.WellFormed := by
    have htear := h.tearInto i key
    rwa [hok] at htear
  have hclone : a.Extension (a.cloneSubtree i).2 := h.linked.cloneSubtree i
  have hrose := h.linked.rose_cloneSubtree hi
  have heq := h.linked.tearInto_eq hp key
  generalize (a.cloneSubtree i).2 = d at hclone hrose heq
  obtain rfl : b = (d.updateStore (a.node p).store fun store =>
      store.insert key a.size).splice p before.getLast? i none :=
    congrArg Outcome.arena (hok.symm.trans heq)
  refine ⟨_, hok, hb, hwf, ?_, ?_⟩
  · rw [storedAt?_of_stores_eq stores_splice, storedAt?_of_stores_modify rfl, hclone.stores,
      if_pos ⟨rfl, hs p hps, rfl⟩]
  · -- The clone is a tree of its own, so that cutting off `i` does not touch it.
    have hout : ∀ y < a.size, ¬ d.Within y a.size := fun y hy => hclone.not_within h.linked hy
    have hlast : ∀ y ∈ before.getLast?, ¬ d.Within y a.size := fun y hy =>
      hout y <| h.linked.lt_size_of_mem (p := p) <| by
        rw [hp]
        exact List.mem_append_left _ (List.mem_of_getLast? hy)
    have hsealed := hclone.linked.sealed_tree hclone.size_lt hclone.root
    have hframes := (hsealed.updateStore (a.node p).store fun store =>
      store.insert key a.size).bind fun hsealed =>
        hsealed.splice (hout p hps) hlast (hout i hi) fun e (he : e ∈ none) => nomatch he
    rw [← hrose]
    exact hclone.linked.rose_eq_of_node_eq hwf.linked hframes.node_eq

namespace HoldsCopy

/-! ## Running -/

/-- **A run beside the stored copy** leaves it alone, if it stores nothing else under the key. -/
theorem runAll (h : a.HoldsCopy s key stored t) (hcs : Command.Legal a cs)
    (hbeside : ∀ c ∈ cs, ∀ i ∈ c.targets, ¬ a.Within i stored)
    (hspares : Command.Spares s key a cs) :
    (Command.runAll cs a).HoldsCopy s key stored t := by
  have hwf := Command.runAll_wellFormed h.wellFormed hcs
  obtain ⟨hlt, hroot⟩ := h.wellFormed.root_of_storedAt? h.entry
  have hframes := Command.frames_runAll (h.wellFormed.linked.sealed_tree hlt hroot) fun c hc =>
    ⟨hcs.isEdit c hc, hbeside c hc⟩
  refine ⟨hwf, (Command.storedAt?_runAll hcs.isEdit hspares).trans h.entry, ?_⟩
  rw [← h.rose]
  exact h.wellFormed.linked.rose_eq_of_node_eq hwf.linked hframes.node_eq

/-! ## Inserting -/

/-- **What is stored can be inserted** below every node that shares the store, and nothing else is
moved. -/
theorem insert (h : a.HoldsCopy s key stored t) (hq : q < a.size) (hs : (a.node q).store = s)
    {position : Nat} (hle : position ≤ (a.children q).length) :
    ∃ b, a.insert q position key = .ok b a.size ∧ a.Relinked b (a.lengthened q
        ((a.children q).take position) ((a.children q).drop position)) ∧
      b.rose Node.mark a.size = t ∧ b.torn? q key = a.torn? q key := by
  have ha := h.wellFormed.linked
  have hstored : a.torn? q key = some stored := by rw [torn?_eq_storedAt?, hs, h.entry]
  have hlt : stored < a.size := (h.wellFormed.root_of_storedAt? h.entry).1
  have hclone : a.Extension (a.cloneSubtree stored).2 := ha.cloneSubtree stored
  have hrose := ha.rose_cloneSubtree hlt
  have hok := ha.insert_eq hq hstored hle
  generalize (a.cloneSubtree stored).2 = d at hclone hrose hok
  have hsplit : d.children q = (a.children q).take position ++ (a.children q).drop position := by
    rw [hclone.children_eq ha hq, List.take_append_drop]
  have hlink := hclone.linked.linkAfter hsplit (Nat.lt_trans hq hclone.size_lt) hclone.size_lt
    hclone.root (hclone.not_within ha hq)
  refine ⟨_, hok, hclone.relinked_update ha hq hlink size_linkAfter, ?_, ?_⟩
  · -- The list of `q` is the only one that changes, and `q` is not in the clone.
    rw [← h.rose, ← hrose]
    refine hclone.linked.rose_eq_of_children_eq hlink.1 fun x hx => ⟨?_, ?_⟩
    · exact Node.linkFree_mark.eq_of_content content_linkAfter
    · have hxq : x ≠ q := by
        rintro rfl
        exact hclone.not_within ha hq hx
      rw [hlink.2, Function.update_of_ne hxq]
  · have hstore : ((d.linkAfter q ((a.children q).take position).getLast? a.size).node q).store =
        (a.node q).store := by
      rw [← hclone.node_eq q hq]
      exact congrArg Prod.snd (Node.linkFree_mark.eq_of_content content_linkAfter)
    rw [torn?_eq_storedAt?, torn?_eq_storedAt?, hstore,
      storedAt?_of_stores_eq (stores_linkAfter.trans hclone.stores)]

theorem restores (h : a.HoldsCopy s key stored t) (hq : q < a.size) (hs : (a.node q).store = s) :
    a.Restores q key t := by
  intro position hle
  obtain ⟨b, hok, hb, hrose, hentry⟩ := h.insert hq hs hle
  refine ⟨b, a.size, hok, ?_, hrose, hentry⟩
  rw [hb.children_eq q hq, lengthened, Function.update_self]

end HoldsCopy

/-! ## Putting a subtree back -/

/-- A subtree with one child replaced by an equal one is an equal subtree. -/
theorem Linked.rose_eq_of_replaced {α : Type} {f : Node → α} {c : NodeId} (ha : a.Linked)
    (hb : b.Linked) (hf : Keeps f Set.univ a b) (hp : a.children p = before ++ i :: after)
    (hq : b.children p = before ++ c :: after)
    (hother : ∀ x < a.size, x ≠ p → b.children x = a.children x)
    (hc : b.rose f c = a.rose f i) : b.rose f p = a.rose f p := by
  have hps : p < a.size := ha.parent_lt_size (ha.parent_eq hp)
  have hsibling {y : NodeId} (hy : y ∈ a.children p) : b.rose f y = a.rose f y := by
    have hyp : (a.node y).parent = some p := ha.mem_children.mp hy
    refine ha.rose_eq_of_children_eq hb fun x hx => ?_
    have hxp : a.Below x p := hx.trans_below (.of_parent hyp)
    refine ⟨hf.eq x trivial hxp.lt_size, hother x hxp.lt_size ?_⟩
    rintro rfl
    exact ha.acyclic x hxp
  have hbefore : before.map (b.rose f) = before.map (a.rose f) :=
    List.map_congr_left fun y hy => hsibling (by simp [hp, hy])
  have hafter : after.map (b.rose f) = after.map (a.rose f) :=
    List.map_congr_left fun y hy => hsibling (by simp [hp, hy])
  rw [hb.rose_eq, ha.rose_eq, hf.eq p trivial hps, hp, hq]
  simp only [List.map_append, List.map_cons, hbefore, hafter, hc]

/-- **A subtree that was torn is put back**: with the stored copy at the old place, the tree of the
parent is as it was. -/
theorem WellFormed.insert_tearInto (h : a.WellFormed) (hs : a.HasStores)
    (hp : a.children p = before ++ i :: after) (hok : a.tearInto i key = .ok b ()) :
    ∃ d c, b.insert p before.length key = .ok d c ∧ d.children p = before ++ c :: after ∧
      d.rose Node.mark c = a.rose Node.mark i ∧ d.rose Node.mark p = a.rose Node.mark p := by
  obtain ⟨b', hok', hb, hcopy⟩ := h.holdsCopy_tearInto hs hp key
  obtain rfl : b = b' := congrArg Outcome.arena (hok.symm.trans hok')
  have hps : p < a.size := h.linked.parent_lt_size (h.linked.parent_eq hp)
  have hpb : p < b.size := Nat.lt_of_lt_of_le hps hb.size_le
  have htear : Keeps Node.mark Set.univ a b := by
    have hkeeps := Node.linkFree_mark.keeps_tearInto (K := Set.univ) (a := a) i key
    rwa [hok] at hkeeps
  have hlist : b.children p = before ++ after := by
    rw [hb.children_eq p hps, shortened, Function.update_self]
  have hle : before.length ≤ (b.children p).length := by simp [hlist]
  have hstore : (b.node p).store = (a.node p).store := congrArg Prod.snd (htear.eq p trivial hps)
  obtain ⟨d, hins, hd, hrose, -⟩ := hcopy.insert hpb hstore hle
  rw [hlist, List.take_left, List.drop_left] at hd
  have hlist' : d.children p = before ++ b.size :: after := by
    rw [hd.children_eq p hpb, lengthened, Function.update_self]
  have hinsert : Keeps Node.mark Set.univ b d := by
    have hkeeps := Node.linkFree_mark.keeps_insert (K := Set.univ) (a := b) p before.length key
    rwa [hins] at hkeeps
  refine ⟨d, b.size, hins, hlist', hrose, ?_⟩
  refine h.linked.rose_eq_of_replaced hd.linked (htear.trans hinsert) hp hlist' (fun x hx hxp => ?_)
    hrose
  rw [hd.children_eq x (Nat.lt_of_lt_of_le hx hb.size_le), lengthened, Function.update_of_ne hxp,
    hb.children_eq x hx, shortened, Function.update_of_ne hxp]

end Arena

namespace Command

open Arena

variable {a : Arena} {p x : NodeId} {cs : List Command}

/-- **What is torn under a key comes back.** A child of `p` that is torn under a key can be inserted
below every node that shares the store of `p`, at every position, after any run of operators that
names no node of the stored copy and stores nothing else there under the key: each time it is the
same tree, by labels, kinds, extents and tear stores, and the entry stays for further inserts.
Inserted at its old place at once, it gives back the tree of `p`. -/
theorem restores_of_tearInto (ha : a.WellFormed) (hs : a.HasStores)
    (hx : (a.node x).parent = some p) (key : String) :
    ∃ b stored, a.tearInto x key = .ok b () ∧ b.torn? p key = some stored ∧
      (∀ cs, Legal b cs → (∀ c ∈ cs, ∀ i ∈ c.targets, ¬ b.Within i stored) →
        Spares (a.node p).store key b cs →
        ∀ q < (runAll cs b).size, (runAll cs b).sharesStore q p →
          (runAll cs b).torn? q key = some stored ∧
          (runAll cs b).Restores q key (a.rose Node.mark x)) ∧
      ∀ before after, a.children p = before ++ x :: after →
        ∃ d c, b.insert p before.length key = .ok d c ∧ d.children p = before ++ c :: after ∧
          d.rose Node.mark c = a.rose Node.mark x ∧ d.rose Node.mark p = a.rose Node.mark p := by
  have hp : p < a.size := ha.linked.parent_lt_size hx
  obtain ⟨before, after, hsplit⟩ := ha.linked.exists_children_eq hx
  obtain ⟨b, hok, hb, hcopy⟩ := ha.holdsCopy_tearInto hs hsplit key
  have hkeeps : Keeps Node.mark Set.univ a b := by
    have h := Node.linkFree_mark.keeps_tearInto (K := Set.univ) (a := a) x key
    rwa [hok] at h
  have hstore : (b.node p).store = (a.node p).store := congrArg Prod.snd (hkeeps.eq p trivial hp)
  have hpb : p < b.size := Nat.lt_of_lt_of_le hp hb.size_le
  refine ⟨b, a.size, hok, ?_, fun cs hcs hbeside hspares q hq hshare => ?_, ?_⟩
  · rw [torn?_eq_storedAt?, hstore, hcopy.entry]
  · have hrun := hcopy.runAll hcs hbeside hspares
    have hkept : ((runAll cs b).node p).store = (b.node p).store :=
      congrArg Prod.snd (hcs.origin_runAll.eq p trivial hpb)
    have hstore' : ((runAll cs b).node q).store = (a.node p).store :=
      (eq_of_beq hshare).trans (hkept.trans hstore)
    exact ⟨by rw [torn?_eq_storedAt?, hstore', hrun.entry], hrun.restores hq hstore'⟩
  · exact fun _ _ hsplit => ha.insert_tearInto hs hsplit hok

/-- A node with two children, the first of them with a child of its own. -/
def threeLevels : Arena :=
  runAll [.make "r" .nonTerminal 0 3, .push 0 "x" .nonTerminal 0 2, .push 1 "y" .terminal 0 1,
    .push 0 "z" .terminal 2 3] {}

/-- What was torn is renamed and what is inserted is cut up; a copy of the parent takes its
children. -/
def editsBetween : List Command :=
  [.setLabel 1 "w", .insert 0 0 "k", .foldOver 7, .tearInto 6 "m", .gather 0 "g"]

theorem restores_of_editsBetween :
    ∃ b, threeLevels.tearInto 1 "k" = .ok b () ∧
      (runAll editsBetween b).Restores 9 "k" (threeLevels.rose Node.mark 1) := by
  have hlegal : Legal {} [.make "r" .nonTerminal 0 3, .push 0 "x" .nonTerminal 0 2,
      .push 1 "y" .terminal 0 1, .push 0 "z" .terminal 2 3] := by decide
  have hwf : threeLevels.WellFormed := runAll_wellFormed wellFormed_empty hlegal
  have hs : threeLevels.HasStores := runAll_hasStores wellFormed_empty hasStores_empty hlegal
  obtain ⟨b, stored, hok, hstored, hrun, -⟩ :=
    restores_of_tearInto hwf hs (show (threeLevels.node 1).parent = some 0 by decide) "k"
  have hb : b.WellFormed := by
    have htear := hwf.tearInto 1 "k"
    rwa [hok] at htear
  obtain rfl : b = (threeLevels.tearInto 1 "k").arena := (congrArg Outcome.arena hok).symm
  obtain rfl : stored = 4 := Option.some.inj (hstored.symm.trans (by decide))
  have hbeside : ∀ c ∈ editsBetween, ∀ i ∈ c.targets,
      (threeLevels.tearInto 1 "k").arena.root i ≠ 4 := by decide
  refine ⟨_, hok, (hrun editsBetween (by decide) (fun c hc i hi hin => ?_) (by decide) 9 (by decide)
    (by decide)).2⟩
  exact hbeside c hc i hi (hb.linked.root_eq_iff.mpr ⟨hin, by decide⟩)

end Command

end ParseTree
