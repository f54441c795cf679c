import PageEditor.Markup.Patch
import PageEditor.Proofs.Component.Keys
import PageEditor.Proofs.Markup.Kept
import PageEditor.Proofs.Tree.Leaves
import PageEditor.View.Render

/-!
# What is below leaves

Neither the printer nor the patcher nor the renderer looks at what is below a text run or a raw
expression. So a tree is saved and shown as the tree without these nodes is, and nothing is left out
of the text and the view just if the leaves are empty.
-/
set_option autoImplicit false

namespace PageEditor

/-! ## Nodes without what is below leaves -/

namespace Node

mutual

/-- The node without what is below text runs and raw expressions. -/
def pruned : Node → Node
  | ⟨id, fields, component, origin, children⟩ =>
    ⟨id, fields, component, origin,
      if fields.type = textType ∨ fields.type = expressionType then [] else prunedAll children⟩

def prunedAll : List Node → List Node
  | [] => []
  | n :: ns => n.pruned :: prunedAll ns

end

theorem isLeaf_iff (n : Node) :
    n.isLeaf = true ↔ n.fields.type = textType ∨ n.fields.type = expressionType := by
  simp [isLeaf, isText, isExpression, type]

theorem pruned_eq (n : Node) :
    n.pruned = { n with children := if n.isLeaf then [] else prunedAll n.children } := by
  cases n
  simp only [pruned, isLeaf_iff]

theorem prunedAll_eq (ns : List Node) : prunedAll ns = ns.map pruned := by
  induction ns with
  | nil => rfl
  | cons n ns ih => rw [prunedAll, List.map_cons, ih]

mutual

theorem pruned_eq_self_iff : (n : Node) → (n.pruned = n ↔ n.Leafy)
  | ⟨id, fields, component, origin, children⟩ => by
    have hchildren := prunedAll_eq_self_iff children
    rw [leafy_iff, pruned_eq]
    cases hleaf : isLeaf ⟨id, fields, component, origin, children⟩ with
    | true =>
      simp only [if_true, mk.injEq, true_and]
      constructor
      · rintro rfl
        simp
      · exact fun h => (h.1 trivial).symm
    | false => simpa using hchildren

theorem prunedAll_eq_self_iff : (ns : List Node) → (prunedAll ns = ns ↔ ∀ n ∈ ns, n.Leafy)
  | [] => by simp [prunedAll]
  | n :: ns => by
    rw [prunedAll, List.cons.injEq, pruned_eq_self_iff n, prunedAll_eq_self_iff ns,
      List.forall_mem_cons]

end

@[simp] theorem isEmpty_prunedAll (ns : List Node) : (prunedAll ns).isEmpty = ns.isEmpty := by
  cases ns <;> rfl

/-! ## Printing -/

section Printing

variable (indent : List Char)

mutual

theorem markup_pruned (depth : Nat) : (n : Node) →
    n.pruned.markup indent depth = n.markup indent depth
  | ⟨id, fields, component, origin, children⟩ => by
    have htop := topLines_pruned depth children
    have hlines := lines_pruned (depth + 1) children
    rw [pruned]
    by_cases hleaf : fields.type = textType ∨ fields.type = expressionType
    · have hroot : fields.type ≠ rootType := by
        rcases hleaf with hleaf | hleaf <;> rw [hleaf] <;> decide
      rw [if_pos hleaf]
      rcases hleaf with hleaf | hleaf
      · simp only [markup, if_neg hroot, if_pos hleaf]
      · have htext : fields.type ≠ textType := by rw [hleaf]; decide
        simp only [markup, if_neg hroot, if_neg htext, if_pos hleaf, textChars]
    · rw [if_neg hleaf]
      cases children with
      | nil => rfl
      | cons c cs =>
        simp only [prunedAll] at htop hlines
        simp only [prunedAll, markup, htop, hlines, text?, textChars]

theorem lines_pruned (depth : Nat) : (ns : List Node) →
    lines indent depth (prunedAll ns) = lines indent depth ns
  | [] => rfl
  | n :: ns => by rw [prunedAll, lines, lines, markup_pruned depth n, lines_pruned depth ns]

theorem topLines_pruned (depth : Nat) : (ns : List Node) →
    topLines indent depth (prunedAll ns) = topLines indent depth ns
  | [] => rfl
  | n :: ns => by
    rw [prunedAll, topLines, topLines, markup_pruned depth n, moreTopLines_pruned depth ns]

theorem moreTopLines_pruned (depth : Nat) : (ns : List Node) →
    moreTopLines indent depth (prunedAll ns) = moreTopLines indent depth ns
  | [] => rfl
  | n :: ns => by
    rw [prunedAll, moreTopLines, moreTopLines, markup_pruned depth n, moreTopLines_pruned depth ns]

end

end Printing

/-! ## Patching -/

section Patching

variable (source : List Char)

theorem originIn?_pruned (n : Node) : n.pruned.originIn? source = n.originIn? source := by
  rw [pruned_eq]
  rfl

theorem childIds_prunedAll (ns : List Node) : (prunedAll ns).map (·.id) = ns.map (·.id) := by
  rw [prunedAll_eq, List.map_map]
  exact List.map_congr_left fun n _ => by rw [Function.comp, pruned_eq]

theorem inOrder_prunedAll (start : Nat) (ns : List Node) :
    inOrder source start (prunedAll ns) = inOrder source start ns := by
  induction ns generalizing start with
  | nil => rfl
  | cons n ns ih =>
    rw [prunedAll, inOrder, inOrder, originIn?_pruned]
    cases n.originIn? source with
    | none => rfl
    | some o => simp only [ih]

mutual

theorem patched_pruned (depth : Nat) : (n : Node) →
    n.pruned.patched source depth = n.patched source depth
  | ⟨id, fields, component, origin, children⟩ => by
    have hmarkup := markup_pruned defaultIndent depth ⟨id, fields, component, origin, children⟩
    have hlines := patchedLines_pruned (depth + 1) children
    have hbetween := patchedBetween_pruned (depth + 1) children
    have horigin := originIn?_pruned source ⟨id, fields, component, origin, children⟩
    rw [pruned] at hmarkup horigin ⊢
    cases ho : originIn? source ⟨id, fields, component, origin, children⟩ with
    | none =>
      rw [patched_of_originIn?_eq_none (horigin.trans ho), hmarkup, patched_of_originIn?_eq_none ho]
    | some o =>
      rw [ho] at horigin
      by_cases htype : o.fields.type = fields.type
      · by_cases hleaf : fields.type = textType ∨ fields.type = expressionType
        · rw [if_pos hleaf] at horigin ⊢
          rcases hleaf with hleaf | hleaf
          · rw [patched_text horigin htype hleaf, patched_text ho htype hleaf]
            rfl
          · rw [patched_expression horigin htype hleaf, patched_expression ho htype hleaf]
            rfl
        · rw [if_neg hleaf] at hmarkup horigin ⊢
          have hsolid : ∀ ns, isLeaf ⟨id, fields, component, origin, ns⟩ = false := fun ns =>
            Bool.eq_false_iff.2 fun h => hleaf ((isLeaf_iff _).1 h)
          cases hcontent : o.place.content with
          | none =>
            rw [patched_closed horigin htype (hsolid _) hcontent,
              patched_closed ho htype (hsolid _) hcontent, hmarkup]
            simp only [isEmpty_prunedAll, text?, propsChanged]
            rfl
          | some content =>
            rw [patched_content horigin htype (hsolid _) hcontent,
              patched_content ho htype (hsolid _) hcontent]
            simp only [patchedContent, isEmpty_prunedAll, text?, propsChanged, textChanged,
              childrenChanged, childIds, childIds_prunedAll, inOrder_prunedAll, hlines, hbetween,
              patchedText]
            rfl
      · simp only [patched, horigin, ho, ne_eq, Ne.symm htype, not_false_eq_true, if_true, hmarkup]

theorem patchedLines_pruned (depth : Nat) : (ns : List Node) →
    patchedLines source depth (prunedAll ns) = patchedLines source depth ns
  | [] => rfl
  | n :: ns => by
    rw [prunedAll, patchedLines, patchedLines, patched_pruned depth n, patchedLines_pruned depth ns]

theorem patchedBetween_pruned (depth : Nat) : (ns : List Node) → ∀ region,
    patchedBetween source depth region (prunedAll ns) = patchedBetween source depth region ns
  | [], _ => rfl
  | n :: ns, region => by
    rw [prunedAll, patchedBetween, patchedBetween, originIn?_pruned]
    cases n.originIn? source with
    | none => exact patchedBetween_pruned depth ns region
    | some o => simp only [patched_pruned depth n, patchedBetween_pruned depth ns]

end

theorem patchedTop_pruned (ns : List Node) :
    patchedTop source (prunedAll ns) = patchedTop source ns := by
  induction ns with
  | nil => rfl
  | cons n ns ih =>
    cases ns with
    | nil => exact patched_pruned source 0 n
    | cons m ns =>
      simp only [prunedAll] at ih
      simp only [prunedAll, patchedTop, patched_pruned, ih]

end Patching

end Node

/-! ## Rendering -/

namespace RenderState

mutual

theorem styles_recordPlan : (p : Plan) → ∀ {s s' : RenderState}, s.styles = s'.styles →
    (s.recordPlan p).styles = (s'.recordPlan p).styles
  | .component d props inner, s, s', h => by
    rw [recordPlan, recordPlan]
    exact styles_recordPlans inner (by simp only [record, h])
  | .primitive tag props inner, s, s', h => by
    rw [recordPlan, recordPlan]
    exact styles_recordPlans inner h
  | .text _, _, _, h => by simpa only [recordPlan] using h
  | .expression _, _, _, h => by simpa only [recordPlan] using h
  | .slot, _, _, h => by simpa only [recordPlan] using h

theorem styles_recordPlans : (ps : List Plan) → ∀ {s s' : RenderState}, s.styles = s'.styles →
    (s.recordPlans ps).styles = (s'.recordPlans ps).styles
  | [], _, _, h => h
  | p :: ps, _, _, h => by
    rw [recordPlans, recordPlans]
    exact styles_recordPlans ps (styles_recordPlan p h)

end

end RenderState

namespace Resolver

variable (r : Resolver)

/-- A component is shown by what its key is made from. -/
theorem resolve_congr {s s' : RenderState} (hs : s'.styles = s.styles) {n m : Node} (h : m.SameKey n)
    (vs : List VNode) :
    (r.resolve s' m vs).1 = (r.resolve s n vs).1 ∧
      (r.resolve s' m vs).2.styles = (r.resolve s n vs).2.styles := by
  have hcompiled : (r.compiled s' m vs).1 = (r.compiled s n vs).1 ∧
      (r.compiled s' m vs).2.styles = (r.compiled s n vs).2.styles := by
    have hkey : m.cacheKey = n.cacheKey := congrArg Digest.sha256Text (Node.keyText_eq_iff.2 h)
    simp only [compiled, hkey, h.id]
    cases r.cache.get? n.cacheKey with
    | none => exact ⟨rfl, hs⟩
    | some made =>
      cases made with
      | error e => exact ⟨rfl, hs⟩
      | ok plan => exact ⟨rfl, RenderState.styles_recordPlan plan hs⟩
  have hcomponent : m.component? = n.component? := by rw [Node.component?, h.component, Node.component?]
  have hprops : Props.ofNode m = Props.ofNode n := by
    simp only [Props.ofNode, h.id, h.className, h.style, h.attributes, h.text]
  simp only [resolve, hcomponent, h.id, h.type, hprops]
  cases n.component? with
  | none => exact ⟨rfl, hs⟩
  | some c =>
    simp only
    cases r.env.direct? c with
    | some d =>
      by_cases hdot : n.type.toList.contains '.' = true
      · simpa only [if_pos hdot] using hcompiled
      · simp only [if_neg hdot, RenderState.record, hs, and_self]
    | none =>
      by_cases hpackage : c.package = ""
      · simpa only [if_pos hpackage, true_and] using hs
      · simpa only [if_neg hpackage] using hcompiled

variable (previews : Previews)

mutual

theorem node_pruned : (n : Node) → ∀ {s s' : RenderState}, s'.styles = s.styles →
    (r.node previews s' n.pruned).1 = (r.node previews s n).1 ∧
      (r.node previews s' n.pruned).2.styles = (r.node previews s n).2.styles
  | ⟨id, fields, component, origin, children⟩, s, s', hs => by
    have hchildren := nodes_pruned children hs
    rw [Node.pruned]
    by_cases htext : fields.type = textType
    · simpa only [node, if_pos htext, true_and] using hs
    · by_cases hexpression : fields.type = expressionType
      · simpa only [node, if_neg htext, if_pos hexpression, true_and] using hs
      · rw [if_neg (not_or.2 ⟨htext, hexpression⟩)]
        simp only [node, if_neg htext, if_neg hexpression]
        generalize r.nodes previews s children = shown at hchildren ⊢
        generalize r.nodes previews s' (Node.prunedAll children) = shown' at hchildren ⊢
        obtain ⟨hvs, hstyles⟩ := hchildren
        obtain ⟨vs, after⟩ := shown
        obtain ⟨_, after'⟩ := shown'
        simp only at hvs hstyles
        obtain rfl := hvs.symm
        have hkey : Node.SameKey ⟨id, fields, component, origin, Node.prunedAll children⟩
            ⟨id, fields, component, origin, children⟩ := ⟨rfl, rfl, rfl, rfl, rfl, rfl, rfl⟩
        have hcomponent : Node.isComponent ⟨id, fields, component, origin, Node.prunedAll children⟩ =
            Node.isComponent ⟨id, fields, component, origin, children⟩ := rfl
        simp only [hcomponent]
        cases Node.isComponent ⟨id, fields, component, origin, children⟩ with
        | false => exact ⟨rfl, hstyles⟩
        | true =>
          obtain ⟨hv, hafter⟩ := resolve_congr r hstyles hkey vs
          exact ⟨by simp only [if_true, hv, Node.animated], hafter⟩

theorem nodes_pruned : (ns : List Node) → ∀ {s s' : RenderState}, s'.styles = s.styles →
    (r.nodes previews s' (Node.prunedAll ns)).1 = (r.nodes previews s ns).1 ∧
      (r.nodes previews s' (Node.prunedAll ns)).2.styles = (r.nodes previews s ns).2.styles
  | [], _, _, hs => ⟨rfl, hs⟩
  | n :: ns, s, s', hs => by
    obtain ⟨hn, hstyles⟩ := node_pruned n hs
    obtain ⟨hns, hstyles⟩ := nodes_pruned ns hstyles
    rw [Node.prunedAll]
    simp only [nodes]
    exact ⟨by rw [hn, hns], hstyles⟩

end

end Resolver

/-! ## Trees -/

namespace Tree

/-- The tree without what is below text runs and raw expressions. -/
def pruned (t : Tree) : Tree := { t with root := t.root.pruned }

theorem pruned_eq_self_iff (t : Tree) : t.pruned = t ↔ t.Leafy := by
  obtain ⟨root, parents, ids⟩ := t
  rw [pruned, Leafy, ← Node.pruned_eq_self_iff, mk.injEq]
  simp

theorem print_pruned (t : Tree) : t.pruned.print = t.print := Node.markup_pruned defaultIndent 0 t.root

section Root

variable {t : Tree} (hroot : t.root.isLeaf = false)

include hroot

theorem root_pruned : t.pruned.root = { t.root with children := Node.prunedAll t.root.children } := by
  rw [pruned, Node.pruned_eq, hroot]
  rfl

/-- What is below leaves is not saved. -/
theorem patched_pruned (source : List Char) : t.pruned.patched source = t.patched source := by
  have horigin : t.pruned.root.originIn? source = t.root.originIn? source :=
    Node.originIn?_pruned source t.root
  have hchanged : t.pruned.root.childrenChanged = t.root.childrenChanged := by
    simp only [root_pruned hroot, Node.childrenChanged, Node.childIds, Node.childIds_prunedAll]
  have hchildren : t.pruned.root.children = Node.prunedAll t.root.children := by rw [root_pruned hroot]
  simp only [patched, horigin, hchanged, hchildren, printBehindImports, print_pruned,
    Node.inOrder_prunedAll, Node.patchedTop_pruned, Node.patchedBetween_pruned]

/-- What is below leaves is not shown. -/
theorem render_pruned (r : Resolver) (previews : Previews) (queue : Queue) :
    (t.pruned.render r previews queue).1 = (t.render r previews queue).1 := by
  have hchildren : t.pruned.root.children = Node.prunedAll t.root.children := by rw [root_pruned hroot]
  have hsame : ({ queue } : RenderState).styles = ({ queue } : RenderState).styles := rfl
  obtain ⟨hv, hstyles⟩ := r.nodes_pruned previews t.root.children hsame
  simp only [render, hchildren, hv, hstyles]

end Root

end Tree

end PageEditor
