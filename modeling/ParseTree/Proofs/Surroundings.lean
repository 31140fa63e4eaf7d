import ParseTree.Proofs.Enclosure
import ParseTree.Proofs.Focus

/-!
# What a rule leaves of the nodes around

`Site.Confined` says which child lists a rule can change: outside the subtree of the node it is one
list, and of that an end segment stays behind the node. Here the nodes are added that these lists
are made of. An edit writes to the focus, to its first child and, if it is a fold over, to its
parent. Outside, that is the parent of the node of the site at most, and only by folding over.

So the nodes in the subtrees that stay behind the node of the site are left alone altogether: their
contents are not written to, and their links are settled by lists that have stayed.

## Main results

* `Site.Confined.keeps_edits`, `RuleTable.keeps_transform`: contents outside are not written to.
* `Site.Confined.node_eq_of_within`: subtrees that stay behind the node are left alone.
-/

namespace ParseTree

open Arena

variable {a b d : Arena} {s : Site a} {rest left : List NodeId} {f g x y : NodeId} {e : Edit}
  {es : List Edit} {K : Set NodeId}

namespace Arena.Site

namespace Confined

/-! ## Where edits write -/

/-- Outside, edits write to the owner at most, and only by folding over. -/
theorem writes_inside (h : s.Confined rest b f) (hx : x ∈ e.writes b f) :
    ¬ s.Outside x ∨ x = s.owner ∧ e = .foldOver := by
  have hfirst (hx : x ∈ (b.node f).firstChild.toList) : ¬ s.Outside x :=
    h.children_focus x (List.mem_of_mem_head?
      ((h.linked.childList f).firstChild ▸ Option.mem_toList.mp hx))
  cases e with
  | literal | gather _ | gatherWithSiblings _ | gatherWithNext _ _ =>
    obtain rfl : x = f := List.mem_singleton.mp hx
    exact .inl h.focus_inside
  | foldOver =>
    exact (h.parent_focus (Option.mem_toList.mp hx)).imp_right fun howner => ⟨howner.1, rfl⟩
  | gatherChildren _ | gatherFirstChild _ => exact .inl (hfirst hx)
  | foldUnder | tear | tearAs _ | insert _ _ => exact absurd hx List.not_mem_nil

/-- **Edits at a site** write to no node outside but the owner, and to the owner only by folding
over. -/
theorem keeps_edits (ha : a.Linked) (h : s.Confined rest b f) (input : String) (es : List Edit)
    (hK : ∀ x ∈ K, s.Outside x) (howner : .foldOver ∈ es → s.owner ∉ K) :
    Keeps Node.content K b (Edit.applyAll input es b f).arena := by
  induction es generalizing rest b f with
  | nil => exact .refl Node.content K b
  | cons e es ih =>
    have hstep : Keeps Node.content K b (e.apply input b f).arena := by
      refine Edit.keeps_apply Node.linkFree_content input e fun x hx hxK => ?_
      rcases h.writes_inside hx with hin | ⟨rfl, rfl⟩
      · exact hin (hK x hxK)
      · exact howner List.mem_cons_self hxK
    obtain ⟨rest', g, hd, -, hg, -⟩ := h.edit ha input e
    rw [Edit.applyAll]
    match ho : e.apply input b f with
    | ⟨.error error, d, log⟩ =>
      rw [ho] at hstep
      exact hstep
    | ⟨.ok g', d, log⟩ =>
      rw [ho] at hstep hd hg
      obtain rfl : g' = g := hg g' rfl
      exact hstep.trans (ih hd fun hmem => howner (List.mem_cons_of_mem e hmem))

/-! ## Subtrees behind the node -/

/-- **What stays behind the node of a site** is left alone, with all that is below it. -/
theorem node_eq_of_within (ha : a.Linked) (h : s.Confined left d g) (hleft : left <:+ s.after)
    (hcontent : ∀ y, s.Outside y → y ≠ s.owner → (d.node y).content = (a.node y).content)
    (hx : x ∈ left) (hy : a.Within y x) : d.node y = a.node y := by
  obtain ⟨gone, hgone⟩ := hleft
  have hxa : x ∈ s.after := hgone ▸ List.mem_append_right _ hx
  obtain ⟨hyo, hyne⟩ := s.outside_of_within_after ha hxa hy
  have hkids : d.children y = a.children y := h.children_eq y hyo hyne
  have hup : (d.node y).parent = (a.node y).parent ∧
      (d.node y).nextSibling = (a.node y).nextSibling := by
    rcases within_iff.mp hy with rfl | hbelow
    · -- the list of the owner ends as before
      obtain ⟨middle, howner, -⟩ := h.children_owner
      obtain ⟨front, back, rfl⟩ := List.append_of_mem hx
      have hlist : a.children s.owner = (s.before ++ s.node :: gone ++ front) ++ y :: back := by
        rw [s.children_owner, ← hgone]
        simp
      have hlist' : d.children s.owner = (s.before ++ middle ++ front) ++ y :: back := by
        rw [howner]
        simp
      rw [ha.parent_eq hlist, h.linked.parent_eq hlist', ha.nextSibling_eq hlist,
        h.linked.nextSibling_eq hlist']
      exact ⟨rfl, rfl⟩
    · obtain ⟨z, hz, hzx⟩ := below_iff.mp hbelow
      obtain ⟨hzo, hzne⟩ := s.outside_of_within_after ha hxa hzx
      obtain ⟨front, back, hlist⟩ := ha.exists_children_eq hz
      have hlist' : d.children z = front ++ y :: back := (h.children_eq z hzo hzne).trans hlist
      rw [ha.parent_eq hlist, h.linked.parent_eq hlist', ha.nextSibling_eq hlist,
        h.linked.nextSibling_eq hlist']
      exact ⟨rfl, rfl⟩
  refine Node.eq_of_content (hcontent y hyo hyne) hup.1 ?_ hup.2 ?_
  · rw [(h.linked.childList y).firstChild, (ha.childList y).firstChild, hkids]
  · rw [(h.linked.childList y).lastChild, (ha.childList y).lastChild, hkids]

end Confined

end Arena.Site

/-! ## Rules -/

/-- Whether the rule that node `i` matches folds over. -/
def RuleTable.FoldsOver (t : RuleTable) (a : Arena) (i : NodeId) : Prop :=
  ∃ rule, t.match? a i = some rule ∧ Edit.foldOver ∈ rule.action.edits

/-- **What a table does at the node of a site** writes to no node outside but the owner, and to the
owner only by folding over. -/
theorem RuleTable.keeps_transform (t : RuleTable) (input : String) (ha : a.Linked) (s : Site a) :
    Keeps Node.content {x | s.Outside x ∧ (t.FoldsOver a s.node → x ≠ s.owner)} a
      (t.transform input a s.node).1 := by
  rw [transform_fst]
  cases hrule : t.match? a s.node with
  | none => exact .refl ..
  | some rule =>
    dsimp only
    rw [Action.apply_eq_applyEdits]
    exact (s.confined ha).keeps_edits ha input rule.action.edits (fun x hx => hx.1)
      fun hmem hx => hx.2 ⟨rule, hrule, hmem⟩ rfl

end ParseTree
