import ParseTree.Command
import ParseTree.Proofs.StructureCheck

/-!
# What the verdicts of the structure check mean

The check accepts a node exactly if a finite tree hangs at it. `Trees` builds such trees from below:
it goes from the lists of children to their parents and has no case for links that close into a
cycle. Along with the trees comes a list that has every entry of every child list in it, so that a
node that is reached twice is in it twice, and that nothing is reached twice is said by `Nodup`.

What the check rejects it does not always call by the right name. One set of nodes that were met
serves all lists, and it is asked before the parent is. The list in which a node is found again is
then said to contain a cycle, where it is the node that belongs to another list.

## Main results

* `checkStructure_spec`: the check ends, and it accepts finite trees and nothing else.
* `violation_of_checkStructure`: what a rejection tells.
-/

namespace ParseTree

namespace Arena

variable {a : Arena} {r x : NodeId} {roots below met stack s t : List NodeId} {e : StructureError}

/-! ## Finite trees -/

/-- **Finite trees** at the nodes of a list. Every node in them has a child list, and the second
list has an entry for each entry of each of the child lists. -/
inductive Trees (a : Arena) : List NodeId → List NodeId → Prop
  | nil : Trees a [] []
  | cons {i : NodeId} {kids below rest later : List NodeId} : a.IsChildList i kids →
      Trees a kids below → Trees a rest later → Trees a (i :: rest) (kids ++ below ++ later)

namespace Trees

theorem append {u v : List NodeId} (hs : a.Trees s u) (ht : a.Trees t v) :
    a.Trees (s ++ t) (u ++ v) := by
  induction hs with
  | nil => exact ht
  | cons hi hkids _ _ ih => simpa using cons hi hkids ih

theorem exists_append (h : a.Trees (s ++ t) below) :
    ∃ u v, a.Trees s u ∧ a.Trees t v ∧ below = u ++ v := by
  induction s generalizing below with
  | nil => exact ⟨[], below, nil, h, rfl⟩
  | cons i s ih =>
    cases h with
    | cons hi hkids hrest =>
      obtain ⟨u, v, hu, hv, rfl⟩ := ih hrest
      exact ⟨_, v, cons hi hkids hu, hv, by simp⟩

/-- The trees may be taken in any order. -/
theorem exists_reverse (h : a.Trees s below) :
    ∃ u, a.Trees s.reverse u ∧ u.Perm below := by
  induction h with
  | nil => exact ⟨[], nil, .refl _⟩
  | @cons i kids u rest later hi hkids _ _ ih =>
    obtain ⟨v, hv, hperm⟩ := ih
    refine ⟨v ++ (kids ++ u), ?_, ?_⟩
    · rw [List.reverse_cons]
      simpa using hv.append (cons hi hkids nil)
    · exact List.perm_append_comm.trans (hperm.append_left _)

/-- The children of every node are among the entries. -/
theorem exists_isChildList (h : a.Trees roots below) (hx : x ∈ roots ∨ x ∈ below) :
    ∃ l, a.IsChildList x l ∧ ∀ c ∈ l, c ∈ below := by
  induction h with
  | nil => simp at hx
  | @cons i kids u rest later hi _ _ ihkids ihrest =>
    have hcases : x = i ∨ (x ∈ kids ∨ x ∈ u) ∨ (x ∈ rest ∨ x ∈ later) := by
      simp only [List.mem_cons, List.mem_append] at hx
      tauto
    rcases hcases with rfl | hx | hx
    · exact ⟨kids, hi, fun c hc => by simp [hc]⟩
    · obtain ⟨l, hl, hmem⟩ := ihkids hx
      exact ⟨l, hl, fun c hc => by simp [hmem c hc]⟩
    · obtain ⟨l, hl, hmem⟩ := ihrest hx
      exact ⟨l, hl, fun c hc => by simp [hmem c hc]⟩

/-- What is reached from a node of the trees is a node of the trees. -/
theorem mem_of_reached (h : a.Trees [r] below) (hx : a.Reached r x) : x ∈ r :: below := by
  induction hx with
  | refl => simp
  | tail _ hc ih =>
    obtain ⟨l, hl, hmem⟩ := h.exists_isChildList (List.mem_cons.mp ih |>.imp_left (by simp [·]))
    exact List.mem_cons_of_mem _ (hmem _ (hl.lists_iff.mp hc))

theorem reached (h : a.Trees roots below) (hroots : ∀ x ∈ roots, a.Reached r x) :
    ∀ x ∈ below, a.Reached r x := by
  induction h with
  | nil => simp
  | @cons i kids u rest later hi _ _ ihkids ihrest =>
    have hkids : ∀ x ∈ kids, a.Reached r x := fun x hx =>
      (hroots i (by simp)).tail (hi.lists_iff.mpr hx)
    intro x hx
    simp only [List.mem_append] at hx
    rcases hx with (hx | hx) | hx
    · exact hkids x hx
    · exact ihkids hkids x hx
    · exact ihrest (fun x hx => hroots x (by simp [hx])) x hx

/-- The node at which a tree hangs is not listed in it, unless something is listed twice: its
children would be listed below themselves. -/
theorem root_not_mem (h : a.Trees [r] below) (hnd : below.Nodup) : r ∉ below := by
  intro hr
  cases h with
  | @cons _ kids u _ _ hkids hu hnil =>
    cases hnil
    rw [List.append_nil] at hr hnd
    obtain ⟨l, hl, hmem⟩ := hu.exists_isChildList (List.mem_append.mp hr)
    obtain rfl := hkids.unique hl
    have hnone : kids = [] := List.eq_nil_iff_forall_not_mem.mpr fun c hc =>
      (List.nodup_append.mp hnd).2.2 c hc c (hmem c hc) rfl
    subst hnone
    cases hu
    simp at hr

/-- A finite tree in which nothing is reached twice has no violation. -/
theorem consistent (h : a.Trees [r] below) (hnd : (r :: below).Nodup) : a.Consistent r := by
  have hlist : ∀ p, a.Reached r p → ∃ l, a.IsChildList p l ∧ ∀ c ∈ l, c ∈ below := fun p hp =>
    h.exists_isChildList (List.mem_cons.mp (h.mem_of_reached hp) |>.imp_left (by simp [·]))
  refine ⟨fun p hp => ?_, fun p hp hpr => ?_⟩
  · obtain ⟨l, hl, -⟩ := hlist p hp
    rwa [hl.eq_children]
  · obtain ⟨l, hl, hmem⟩ := hlist p hp
    exact (List.nodup_cons.mp hnd).1 (hmem r (hl.lists_iff.mp hpr))

end Trees

/-- What the loop goes through are finite trees, and it meets everything in them once. -/
theorem Checks.exists_trees (h : a.Checks stack met (.ok ())) :
    ∃ below, a.Trees stack below ∧ below.Nodup ∧ ∀ x ∈ below, x ∉ met := by
  generalize hresult : Except.ok () = result at h
  induction h with
  | done => exact ⟨[], .nil, List.nodup_nil, by simp⟩
  | childless | fault | stale => simp at hresult
  | @accept i stack met l _ hscan hlast _ ih =>
    obtain ⟨below, htrees, hnd, hmet⟩ := ih hresult
    obtain ⟨hhead, hstrung⟩ := hscan.strung
    obtain ⟨hlnd, hl⟩ := hscan.accepted
    have hlist : a.IsChildList i l := ⟨hhead, hstrung, hlast, fun c hc => (hl c hc).2⟩
    -- the trees at the members of the list were pushed in reverse
    obtain ⟨u, v, hu, hv, rfl⟩ := htrees.exists_append
    obtain ⟨u', hu', hperm⟩ := hu.exists_reverse
    rw [List.reverse_reverse] at hu'
    have hperm' : (u' ++ v).Perm (u ++ v) := hperm.append_right v
    have hnew : ∀ x ∈ u' ++ v, x ∉ l ∧ x ∉ met := fun x hx => by
      simpa using hmet x (hperm'.mem_iff.mp hx)
    refine ⟨l ++ u' ++ v, .cons hlist hu' hv, ?_, fun x hx => ?_⟩
    · rw [List.append_assoc]
      refine List.nodup_append.mpr ⟨hlnd, hperm'.nodup_iff.mpr hnd, ?_⟩
      rintro x hx y hy rfl
      exact (hnew x hy).1 hx
    · rw [List.append_assoc] at hx
      rcases List.mem_append.mp hx with hx | hx
      · exact (hl x hx).1
      · exact (hnew x hx).2

/-! ## Acceptance -/

/-- **When the structure check accepts.** Whatever the links are, the loop without bounds ends, and
`checkStructure` gives what it ends with. It accepts if there is a finite tree at `r` whose entries
are all different and different from `r`; these are then the nodes that are reached from `r`. -/
theorem checkStructure_spec (a : Arena) (r : NodeId) :
    (∀ result, a.Checks [r] [] result ↔ a.checkStructure r = result) ∧
    (a.checkStructure r = .ok () ↔
      ∃ below, a.Trees [r] below ∧ (r :: below).Nodup ∧
        ∀ x, x ∈ r :: below ↔ a.Reached r x) := by
  have hcheck := a.checks_checkStructure r
  refine ⟨fun result => ⟨hcheck.unique, fun h => h ▸ hcheck⟩, fun hok => ?_, ?_⟩
  · rw [hok] at hcheck
    obtain ⟨below, htrees, hnd, -⟩ := hcheck.exists_trees
    have hroots : ∀ x ∈ [r], a.Reached r x := by simpa using .refl
    refine ⟨below, htrees, List.nodup_cons.mpr ⟨htrees.root_not_mem hnd, hnd⟩, fun x => ?_⟩
    refine ⟨fun hx => ?_, htrees.mem_of_reached⟩
    rcases List.mem_cons.mp hx with rfl | hx
    · exact .refl
    · exact htrees.reached hroots x hx
  · rintro ⟨below, htrees, hnd, -⟩
    exact (htrees.consistent hnd).checkStructure_eq_ok

/-! ## Rejection -/

/-- **What a rejection tells.** Three of the errors name what is wrong. The fourth says that a node
is met again in the list of the node that it names, be it that this list comes back to the node,
that another list has the node too, or that the list is gone through a second time. -/
theorem violation_of_checkStructure (h : a.checkStructure r = .error e) : a.Violation r e := by
  have hcheck := a.checks_checkStructure r
  rw [h] at hcheck
  exact hcheck.violation (a.traced_start r)

/-- A root with the children `p` and `q`, which share the child of `p`. It names `q` as its parent.
-/
def sharedChild : Arena :=
  Command.runAll [.make "r" .nonTerminal 0 0, .push 0 "p" .nonTerminal 0 0,
    .push 1 "c" .terminal 0 0, .push 0 "q" .nonTerminal 0 0, .setChild 3 (some 2)] {}

theorem violation_sharedChild :
    sharedChild.checkStructure 0 = .error (.siblingCycle 1) ∧
      sharedChild.Violation 0 (.siblingCycle 1) := by
  have hcheck : sharedChild.checkStructure 0 = .error (.siblingCycle 1) := by decide
  exact ⟨hcheck, violation_of_checkStructure hcheck⟩

/-- **A list that is said to contain a cycle need not contain one.** -/
theorem not_forall_precedes_self :
    ¬ ∀ (a : Arena) (r : NodeId) (k : Nat), a.checkStructure r = .error (.siblingCycle k) →
      ∃ n c, (a.node n).identity = k ∧ a.Lists n c ∧ a.Precedes c c := by
  intro h
  obtain ⟨n, c, hn, hc, hself⟩ := h sharedChild 0 1 (by decide)
  have hlt : n < sharedChild.size := by
    by_contra hlt
    rw [node_of_size_le (Nat.not_lt.mp hlt)] at hn
    simp [Node.blank] at hn
  obtain rfl : n = 1 := (by decide : ∀ n < 4, (sharedChild.node n).identity = 1 → n = 1) n hlt hn
  -- the list has one member, which nothing follows
  have hnext : (sharedChild.node 2).nextSibling = none := by decide
  have honly : ∀ c, sharedChild.Lists 1 c → c = 2 := by
    intro c hc
    induction hc with
    | first hfirst =>
      have hfirst' : (sharedChild.node 1).firstChild = some 2 := by decide
      exact Option.some.inj (hfirst.symm.trans hfirst')
    | next _ hcd ih =>
      rw [ih, hnext] at hcd
      simp at hcd
  obtain rfl := honly c hc
  obtain ⟨d, hd, -⟩ := Relation.TransGen.head'_iff.mp hself
  simp [hnext] at hd

end Arena

end ParseTree
