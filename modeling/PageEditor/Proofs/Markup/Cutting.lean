import PageEditor.Proofs.Markup.Kept
import PageEditor.Proofs.Tree.Nodes

/-!
# Cuts of the patcher

The patcher takes what it keeps of a text by cutting it at spans, and a span that does not fit the
text gives nothing. Here the same patching is written with cuts that may fail. If all the cuts that
can come up for a tree give what the patcher takes, the text is the same.
-/
set_option autoImplicit false

namespace PageEditor

/-! ## Patching with cuts that may fail -/

/-- Three texts one behind the other, if there are all three. -/
def joined (a b c : Option (List Char)) : Option (List Char) := do
  let x ← a
  let y ← b
  let z ← c
  return x ++ y ++ z

theorem joined_eq {a b c : Option (List Char)} {x y z : List Char} (ha : a = some x)
    (hb : b = some y) (hc : c = some z) : joined a b c = some (x ++ y ++ z) := by
  rw [ha, hb, hc]
  rfl

namespace Node

/-- `patchedText` with a given way to cut. -/
def textBy (cut : Span → Option (List Char)) (n : Node) (content : Span) : Option (List Char) :=
  (cut content).map fun region =>
    if n.textChanged then spliceText region (Value.escapeText (n.fields.text.getD "")) else region

mutual

/-- `patched` with a given way to cut. -/
def patchedBy (cut : Span → Option (List Char)) (source : List Char) (depth : Nat) :
    Node → Option (List Char)
  | ⟨id, fields, component, origin, children⟩ =>
    let n : Node := ⟨id, fields, component, origin, children⟩
    match n.originIn? source with
    | none => some (n.markup defaultIndent depth)
    | some o =>
      if fields.type ≠ o.fields.type then some (n.markup defaultIndent depth)
      else if fields.type = textType then
        some (if n.textChanged then Value.escapeText (fields.text.getD "")
          else o.place.fragment.toList)
      else if fields.type = expressionType then
        some (if n.textChanged then '\x7b' :: n.textChars ++ ['\x7d'] else o.place.fragment.toList)
      else
        match o.place.content with
        | none =>
          some (if !children.isEmpty || n.text?.isSome then n.markup defaultIndent depth
            else if n.propsChanged then fields.openTag true
            else o.place.fragment.toList)
        | some content =>
          joined (if n.propsChanged then some (fields.openTag false) else cut o.place.openTag)
            (if children.isEmpty then
              if o.childIds.isEmpty then n.textBy cut content
              else some (Value.escapeText (n.text?.getD ""))
            else if n.childrenChanged || n.textChanged || !inOrder source 0 children then
              (linesBy cut source (depth + 1) children).map fun lines =>
                firstLine defaultIndent depth n.text? ++ lines ++ indentation defaultIndent depth
            else betweenBy cut source (depth + 1) ⟨content.start, content.stop⟩ children)
            (cut ⟨content.stop, o.place.span.stop⟩)

/-- `patchedLines` with a given way to cut. -/
def linesBy (cut : Span → Option (List Char)) (source : List Char) (depth : Nat) :
    List Node → Option (List Char)
  | [] => some []
  | n :: ns => do
    let line ← patchedBy cut source depth n
    let lines ← linesBy cut source depth ns
    return indentation defaultIndent depth ++ line ++ '\n' :: lines

/-- `patchedBetween` with a given way to cut. -/
def betweenBy (cut : Span → Option (List Char)) (source : List Char) (depth : Nat) (region : Span) :
    List Node → Option (List Char)
  | [] => cut region
  | n :: ns =>
    match n.originIn? source with
    | none => betweenBy cut source depth region ns
    | some o =>
      joined (cut ⟨region.start, o.place.span.start⟩) (patchedBy cut source depth n)
        (betweenBy cut source depth ⟨o.place.span.stop, region.stop⟩ ns)

end

/-- `patchedTop` with a given way to cut. -/
def topBy (cut : Span → Option (List Char)) (source : List Char) : List Node → Option (List Char)
  | [] => some []
  | [n] => n.patchedBy cut source 0
  | n :: ns => do
    let text ← n.patchedBy cut source 0
    let more ← topBy cut source ns
    return text ++ '\n' :: more

end Node

namespace Tree

/-- `printBehindImports` with a given way to cut. -/
def printBehindImportsBy (cut : Span → Option (List Char)) (t : Tree) (source : List Char) :
    Option (List Char) :=
  let stop := match (Cursor.ofText source).prelude with
    | .ok (imports, _) => Import.endOffset imports
    | .error _ => 0
  (cut ⟨0, stop⟩).map fun front =>
    front ++ (if 0 < stop then ['\n', '\n'] else []) ++ t.print ++ ['\n']

/-- `patched` with a given way to cut. -/
def patchedBy (cut : Span → Option (List Char)) (t : Tree) (source : List Char) :
    Option (List Char) :=
  match t.root.originIn? source with
  | none => t.printBehindImportsBy cut source
  | some o =>
    let region := o.place.span
    joined (cut ⟨0, region.start⟩)
      (if t.root.childrenChanged || !Node.inOrder source 0 t.root.children then
        Node.topBy cut source t.root.children
      else Node.betweenBy cut source 0 region t.root.children)
      (cut ⟨region.stop, Text.byteLength source⟩)

end Tree

/-! ## Cuts that do not fail -/

/-- The cut gives what the patcher takes. -/
def Agrees (cut : Span → Option (List Char)) (source : List Char) (s : Span) : Prop :=
  cut s = some (sliceOr source s)

theorem agrees_of_slice {source x : List Char} {s : Span} (h : Text.slice source s = some x) :
    Agrees (Text.slice source) source s := by
  rw [Agrees, sliceOr, h]
  rfl

variable {cut : Span → Option (List Char)} {source : List Char}

/-- All cuts in front of, between and behind the nodes of a region agree. -/
def AgreesBetween (cut : Span → Option (List Char)) (source : List Char) :
    Span → List Node → Prop
  | region, [] => Agrees cut source region
  | region, n :: ns =>
    match n.originIn? source with
    | none => AgreesBetween cut source region ns
    | some o => Agrees cut source ⟨region.start, o.place.span.start⟩ ∧
      AgreesBetween cut source ⟨o.place.span.stop, region.stop⟩ ns

/-- All cuts that patching a node with content may make beside those for its children agree. -/
structure Node.Cuttable (cut : Span → Option (List Char)) (source : List Char) (n : Node)
    (place : Place) (content : Span) : Prop where
  openTag : Agrees cut source place.openTag
  close : Agrees cut source ⟨content.stop, place.span.stop⟩
  text : n.children = [] → Agrees cut source content
  between : Node.inOrder source 0 n.children = true → AgreesBetween cut source content n.children

/-- The cuts of all these nodes agree. -/
def AllCuttable (cut : Span → Option (List Char)) (source : List Char) (ns : List Node) : Prop :=
  ∀ n ∈ ns, ∀ o content, n.origin = some o → o.place.content = some content →
    n.Cuttable cut source o.place content

namespace Node

theorem textBy_eq {n : Node} {content : Span} (h : Agrees cut source content) :
    n.textBy cut content = some (n.patchedText source content) := by
  rw [textBy, h, patchedText]
  rfl

mutual

theorem patchedBy_eq : (n : Node) → AllCuttable cut source n.nodes → (depth : Nat) →
    n.patchedBy cut source depth = some (n.patched source depth)
  | ⟨id, fields, component, origin, children⟩, h, depth => by
    rw [patchedBy, patched]
    cases ho : originIn? source ⟨id, fields, component, origin, children⟩ with
    | none => rfl
    | some o =>
      simp only
      by_cases htype : fields.type ≠ o.fields.type
      · rw [if_pos htype, if_pos htype]
      rw [if_neg htype, if_neg htype]
      by_cases htext : fields.type = textType
      · rw [if_pos htext, if_pos htext]
      rw [if_neg htext, if_neg htext]
      by_cases hexpression : fields.type = expressionType
      · rw [if_pos hexpression, if_pos hexpression]
      rw [if_neg hexpression, if_neg hexpression]
      cases hcontent : o.place.content with
      | none => rfl
      | some content =>
        rw [nodes] at h
        obtain ⟨hself, hbelow⟩ := List.forall_mem_cons.1 h
        obtain ⟨htag, hclose, htext, hbetween⟩ := hself o content (origin_of_originIn? ho) hcontent
        refine joined_eq ?_ ?_ hclose
        · split
          · rfl
          · exact htag
        · split
          · rename_i hempty
            split
            · exact textBy_eq (htext (List.isEmpty_iff.1 hempty))
            · rfl
          · split
            · rw [linesBy_eq children hbelow]
              rfl
            · rename_i hsame
              simp only [Bool.or_eq_true, Bool.not_eq_true', not_or, Bool.not_eq_false] at hsame
              exact betweenBy_eq children hbelow (depth + 1) content (hbetween hsame.2)

theorem linesBy_eq : (ns : List Node) → AllCuttable cut source (nodesAll ns) → (depth : Nat) →
    linesBy cut source depth ns = some (patchedLines source depth ns)
  | [], _, depth => rfl
  | n :: ns, h, depth => by
    rw [nodesAll] at h
    obtain ⟨hn, hns⟩ := List.forall_mem_append.1 h
    rw [linesBy, patchedLines, patchedBy_eq n hn, linesBy_eq ns hns]
    rfl

theorem betweenBy_eq : (ns : List Node) → AllCuttable cut source (nodesAll ns) → (depth : Nat) →
    (region : Span) → AgreesBetween cut source region ns →
    betweenBy cut source depth region ns = some (patchedBetween source depth region ns)
  | [], _, depth, region, hregion => hregion
  | n :: ns, h, depth, region, hregion => by
    rw [nodesAll] at h
    obtain ⟨hn, hns⟩ := List.forall_mem_append.1 h
    rw [AgreesBetween] at hregion
    rw [betweenBy, patchedBetween]
    cases ho : n.originIn? source with
    | none =>
      rw [ho] at hregion
      exact betweenBy_eq ns hns depth region hregion
    | some o =>
      rw [ho] at hregion
      obtain ⟨hgap, hmore⟩ := hregion
      exact joined_eq hgap (patchedBy_eq n hn depth) (betweenBy_eq ns hns depth _ hmore)

end

theorem topBy_eq : (ns : List Node) → AllCuttable cut source (nodesAll ns) →
    topBy cut source ns = some (patchedTop source ns)
  | [], _ => rfl
  | [n], h => by
    rw [nodesAll] at h
    exact patchedBy_eq n (List.forall_mem_append.1 h).1 0
  | n :: n' :: ns, h => by
    rw [nodesAll] at h
    obtain ⟨hn, hns⟩ := List.forall_mem_append.1 h
    rw [topBy, patchedTop, patchedBy_eq n hn, topBy_eq (n' :: ns) hns]
    · rfl
    · rintro ⟨⟩
    · rintro ⟨⟩

end Node

namespace Tree

/-- The cuts for the nodes of a tree and for the text around them agree. -/
structure Cuttable (cut : Span → Option (List Char)) (source : List Char) (t : Tree) : Prop where
  nodes : AllCuttable cut source t.root.nodes
  region : ∀ o, t.root.originIn? source = some o →
    Agrees cut source ⟨0, o.place.span.start⟩ ∧
    Agrees cut source ⟨o.place.span.stop, Text.byteLength source⟩ ∧
    (Node.inOrder source 0 t.root.children = true →
      AgreesBetween cut source o.place.span t.root.children)
  orphan : t.root.originIn? source = none → ∀ s, Agrees cut source s

theorem Cuttable.patchedBy_eq {t : Tree} (h : t.Cuttable cut source) :
    t.patchedBy cut source = some (t.patched source) := by
  have hbelow : AllCuttable cut source (Node.nodesAll t.root.children) := by
    have hnodes := h.nodes
    rw [Node.nodes_eq] at hnodes
    exact (List.forall_mem_cons.1 hnodes).2
  rw [Tree.patchedBy, patched]
  cases ho : t.root.originIn? source with
  | none =>
    simp only
    rw [printBehindImportsBy, h.orphan ho]
    rfl
  | some o =>
    obtain ⟨hfront, hback, hbetween⟩ := h.region o ho
    refine joined_eq hfront ?_ hback
    split
    · exact Node.topBy_eq _ hbelow
    · rename_i hsame
      simp only [Bool.or_eq_true, Bool.not_eq_true', not_or, Bool.not_eq_false] at hsame
      exact Node.betweenBy_eq _ hbelow 0 _ (hbetween hsame.2)

end Tree

theorem agreesBetween_of_all (hcut : ∀ s, Agrees cut source s) (ns : List Node) :
    ∀ region, AgreesBetween cut source region ns := by
  induction ns with
  | nil => exact fun region => hcut region
  | cons n ns ih =>
    intro region
    rw [AgreesBetween]
    split
    · exact ih region
    · exact ⟨hcut _, ih _⟩

/-- With the cuts of the patcher, which never fail, the patching is that of the patcher. -/
theorem patchedBy_sliceOr (t : Tree) (source : List Char) :
    t.patchedBy (fun s => some (sliceOr source s)) source = some (t.patched source) := by
  have hcut : ∀ s, Agrees (fun s => some (sliceOr source s)) source s := fun _ => rfl
  refine Tree.Cuttable.patchedBy_eq ⟨?_, ?_, fun _ => hcut⟩
  · intro n _ o content _ _
    exact ⟨hcut _, hcut _, fun _ => hcut _, fun _ => agreesBetween_of_all hcut _ _⟩
  · intro o _
    exact ⟨hcut _, hcut _, fun _ => agreesBetween_of_all hcut _ _⟩

end PageEditor
