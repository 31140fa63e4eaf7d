import ParseTree.Proofs.Confinement
import ParseTree.Proofs.Postorder
import ParseTree.Walk

/-!
# The agenda of a walk

A walk looks at links only, and these change under it. What it still has to do can nevertheless be
written down beforehand. At any time the nodes that are ahead of a walk have the subtrees that they
had at the beginning, since a scheme that is confined to the node it is shown leaves everything to
the right of that node alone, as it does the lists further up. So there is an *agenda*: the
post-order lists of all that is ahead, interleaved with the nodes whose lists are being walked.

Going down leaves the agenda as it is. Showing a node takes the node from the front, together with
the subtrees of those right siblings that the scheme has moved elsewhere. Nothing else happens to
it.

## Main results

* `OnAgenda.visit`: what showing a node does to the agenda.
* `OnAgenda.length_stack_le`: no frame of the stack is without a node on the agenda.
-/

namespace ParseTree

namespace Arena

variable {a b d : Arena} {i q r x y : NodeId} {l : List NodeId}

/-! ## Subtrees that are as they were -/

/-- The subtrees at the nodes of a list have in `b` the child lists that they have in `a`. -/
def Intact (a b : Arena) (l : List NodeId) : Prop :=
  ∀ x ∈ l, x < a.size ∧ ∀ y, a.Within y x → b.children y = a.children y

theorem intact_refl (h : ∀ x ∈ l, x < a.size) : a.Intact a l :=
  fun x hx => ⟨h x hx, fun _ _ => rfl⟩

theorem Intact.subset {m : List NodeId} (h : a.Intact b l) (hm : m ⊆ l) : a.Intact b m :=
  fun x hx => h x (hm hx)

theorem Intact.children_eq (h : a.Intact b l) (hi : i ∈ l) : b.children i = a.children i :=
  (h i hi).2 i (.refl a i)

/-- What was in such a subtree still is. -/
theorem Intact.within (ha : a.Linked) (hb : b.Linked) (h : a.Intact b l) (hx : x ∈ l)
    (hy : a.Within y x) : b.Within y x := by
  induction hy using Relation.ReflTransGen.head_induction_on with
  | refl => rfl
  | head hyz hzx ih =>
    refine Within.trans (.of_parent (hb.mem_children.mp ?_)) ih
    rw [(h x hx).2 _ hzx]
    exact ha.mem_children_of_parent hyz

/-- The children of the root of such a subtree are roots of such subtrees. -/
theorem Intact.children (ha : a.Linked) (h : a.Intact b l) (hi : i ∈ l) :
    a.Intact b (a.children i) := by
  intro c hc
  refine ⟨ha.lt_size_of_mem hc, fun y hy => (h i hi).2 y ?_⟩
  exact hy.trans (.of_parent (ha.mem_children.mp hc))

/-- Lists elsewhere may change. -/
theorem Intact.congr (ha : a.Linked) (hb : b.Linked) (h : a.Intact b l)
    (hd : ∀ x ∈ l, ∀ y, b.Within y x → d.children y = b.children y) : a.Intact d l := by
  intro x hx
  refine ⟨(h x hx).1, fun y hy => ?_⟩
  rw [hd x hx y (h.within ha hb hx hy), (h x hx).2 y hy]

end Arena

open Arena

namespace Walk

variable {σ : Type} {a b d : Arena} {i q r : NodeId} {before after agenda : List NodeId}
  {rest stack : List (NodeId × Option NodeId)}

/-! ## Agendas -/

/-- What is ahead once the list of `i` has come to its end. The innermost frame of the stack stands
at `i`: first `i` is shown, then come the subtrees to its right, then it is the turn of the node
that `i` is a child of. There is nothing ahead if `i` is where the walk began. -/
def Outer (a b : Arena) : NodeId → List (NodeId × Option NodeId) → List NodeId → Prop
  | _, [], agenda => agenda = []
  | i, (q, next) :: rest, agenda => next = some i ∧ ∃ before after ahead,
      b.children q = before ++ i :: after ∧ a.Intact b after ∧ Outer a b q rest ahead ∧
        agenda = i :: (after.flatMap a.postorder ++ ahead)

/-- **The agenda of a walk** that began in arena `a` and has come to arena `b`. -/
def OnAgenda (a b : Arena) : List (NodeId × Option NodeId) → List NodeId → Prop
  | [], agenda => agenda = []
  | (q, next) :: rest, agenda => ∃ before after ahead,
      b.children q = before ++ after ∧ next = after.head? ∧ a.Intact b after ∧
        Outer a b q rest ahead ∧ agenda = after.flatMap a.postorder ++ ahead

/-- Frames further out do not notice what happens to the lists of the subtree at `i`. -/
theorem Outer.congr (ha : a.Linked) (hb : b.Linked) (h : Outer a b i rest agenda)
    (hd : ∀ x < b.size, ¬ b.Within x i → d.children x = b.children x) :
    Outer a d i rest agenda := by
  induction rest generalizing i agenda with
  | nil => exact h
  | cons frame rest ih =>
    obtain ⟨q, next⟩ := frame
    obtain ⟨hnext, before, after, ahead, hq, hafter, houter, hagenda⟩ := h
    have hiq : (b.node i).parent = some q := hb.parent_eq hq
    have hqi : ¬ b.Within q i := fun hqi => hb.acyclic q (hqi.trans_below (.of_parent hiq))
    have hnd := hb.nodup_children q
    rw [hq] at hnd
    refine ⟨hnext, before, after, ahead, ?_, ?_, ?_, hagenda⟩
    · rw [hd q (hb.parent_lt_size hiq) hqi, hq]
    · refine hafter.congr ha hb fun x hx y hy => hd y ?_ fun hyi => ?_
      · have hxq : x ∈ b.children q := by simp [hq, hx]
        rcases within_iff.mp hy with rfl | hy
        · exact hb.lt_size_of_mem hxq
        · exact hy.lt_size
      · -- a node below two children of `q` would make them one
        have hxq : (b.node x).parent = some q := hb.mem_children.mp (by simp [hq, hx])
        have hxi : x = i := hb.eq_of_within hxq hiq hy hyi
        grind
    · exact ih houter fun x hx hxq => hd x hx fun hxi => hxq (hxi.trans (.of_parent hiq))

/-- Every frame but the outermost stands for a node on the agenda. -/
theorem Outer.length_le (h : Outer a b i rest agenda) : rest.length ≤ agenda.length := by
  induction rest generalizing i agenda with
  | nil => exact Nat.zero_le _
  | cons frame rest ih =>
    obtain ⟨-, before, after, ahead, -, -, houter, rfl⟩ := h
    have hle := ih houter
    simp only [List.length_cons, List.length_append]
    omega

theorem OnAgenda.length_stack_le (h : OnAgenda a b stack agenda) :
    stack.length ≤ agenda.length + 1 := by
  cases stack with
  | nil => exact Nat.zero_le _
  | cons frame rest =>
    obtain ⟨before, after, ahead, -, -, -, houter, rfl⟩ := h
    have hle := houter.length_le
    simp only [List.length_cons, List.length_append]
    omega

/-- All that is below the root is ahead of a walk that is about to begin. -/
theorem onAgenda_start (ha : a.Linked) (r : NodeId) :
    OnAgenda a a [(r, (a.node r).firstChild)] (a.postorderBelow r) :=
  ⟨[], a.children r, [], rfl, (ha.childList r).firstChild,
    intact_refl fun _ hx => ha.lt_size_of_mem hx, rfl, (List.append_nil _).symm⟩

/-- **Going down** leaves the agenda as it is. -/
theorem OnAgenda.descend (ha : a.Linked) (h : OnAgenda a b ((q, some i) :: rest) agenda) :
    OnAgenda a b ((i, (b.children i).head?) :: (q, some i) :: rest) agenda := by
  obtain ⟨before, after, ahead, hq, hnext, hafter, houter, rfl⟩ := h
  obtain ⟨after', rfl⟩ : ∃ after', after = i :: after' := List.head?_eq_some_iff.mp hnext.symm
  have hi : i ∈ i :: after' := List.mem_cons_self ..
  have hkids : b.children i = a.children i := hafter.children_eq hi
  refine ⟨[], a.children i, i :: (after'.flatMap a.postorder ++ ahead), hkids, by rw [hkids],
    hafter.children ha hi, ⟨rfl, before, after', ahead, hq, ?_, houter, rfl⟩, ?_⟩
  · exact hafter.subset (List.subset_cons_self ..)
  · rw [List.flatMap_cons, ha.postorder_eq (hafter i hi).1]
    simp [postorderBelow]

end Walk

/-! ## Showing a node -/

namespace Arena.Site.Confined

variable {b d : Arena} {s : Site b} {left : List NodeId} {g : NodeId}

/-- The place where the walk goes on: behind the node, wherever the node now is. -/
theorem next_eq (hb : b.Linked) (h : s.Confined left d g) :
    (if (d.node s.node).parent = some s.owner then (d.node s.node).nextSibling
      else (b.node s.node).nextSibling) = left.head? := by
  obtain ⟨middle, hd, -, rfl | ⟨hnode, rfl⟩⟩ := h.children_owner
  · have hsplit : d.children s.owner = s.before ++ s.node :: left := by simpa using hd
    rw [if_pos (h.linked.parent_eq hsplit), h.linked.nextSibling_eq hsplit]
  · have hnd := hb.nodup_children s.owner
    rw [s.children_owner] at hnd
    have hno : (d.node s.node).parent ≠ some s.owner := by
      intro hpar
      have hmem := h.linked.mem_children.mpr hpar
      rw [hd] at hmem
      grind
    rw [if_neg hno, hb.nextSibling_eq s.children_owner]

/-- The right siblings that are not left behind the node have left their parent. -/
theorem filter_rightSiblings (hb : b.Linked) (h : s.Confined left d g) {gone : List NodeId}
    (hgone : s.after = gone ++ left) :
    (b.rightSiblings s.node).filter (fun x => (d.node x).parent ≠ (b.node x).parent) = gone := by
  obtain ⟨middle, hd, hmiddle, -⟩ := h.children_owner
  have hnd := hb.nodup_children s.owner
  rw [s.children_owner, hgone] at hnd
  have hparent : ∀ x ∈ gone ++ left, (b.node x).parent = some s.owner := fun x hx =>
    hb.mem_children.mp (by rw [s.children_owner, hgone]; simp [hx])
  rw [hb.rightSiblings_eq s.children_owner, hgone, List.filter_append]
  have hall : gone.filter (fun x => (d.node x).parent ≠ (b.node x).parent) = gone := by
    refine List.filter_eq_self.mpr fun x hx => ?_
    have hxo : s.Outside x := s.outside_of_mem_after hb (by rw [hgone]; simp [hx])
    rw [decide_eq_true_eq, hparent x (by simp [hx])]
    intro hpar
    have hmem := h.linked.mem_children.mpr hpar
    have hxm : x ∉ middle := fun hxm => hmiddle x hxm hxo
    rw [hd] at hmem
    grind
  have hnone : left.filter (fun x => (d.node x).parent ≠ (b.node x).parent) = [] := by
    refine List.filter_eq_nil_iff.mpr fun x hx => ?_
    have hmem : x ∈ d.children s.owner := by simp [hd, hx]
    simp [h.linked.mem_children.mp hmem, hparent x (by simp [hx])]
  rw [hall, hnone, List.append_nil]

end Arena.Site.Confined

namespace Walk

variable {σ : Type} {a b d : Arena} {left agenda : List NodeId} {ahead : List NodeId}
  {rest : List (NodeId × Option NodeId)} {g : NodeId}

/-- **Showing a node** leaves ahead what is left behind the node, and what was ahead further out. -/
theorem OnAgenda.visit (ha : a.Linked) (hb : b.Linked) (s : Site b) (hafter : a.Intact b s.after)
    (houter : Outer a b s.owner rest ahead) (hd : s.Confined left d g) (hleft : left <:+ s.after) :
    OnAgenda a d ((s.owner, left.head?) :: rest) (left.flatMap a.postorder ++ ahead) := by
  obtain ⟨middle, howner, -⟩ := hd.children_owner
  refine ⟨s.before ++ middle, left, ahead, howner, rfl, ?_, ?_, rfl⟩
  · refine (hafter.subset hleft.subset).congr ha hb fun x hx y hy => ?_
    obtain ⟨hyo, hyne⟩ := s.outside_of_within_after hb (hleft.subset hx) hy
    exact hd.children_eq y hyo hyne
  · refine houter.congr ha hb fun x hx hxo => hd.children_eq x ⟨hx, fun hxn => hxo ?_⟩ ?_
    · exact hxn.trans (.of_parent (s.parent_node hb))
    · rintro rfl
      exact hxo (.refl b _)

end Walk

end ParseTree
