import PageEditor.Proofs.Markup.Layout
import PageEditor.Proofs.Markup.Written

/-!
# Where nodes stand

What the place of a node that was read tells of the text: the place of a text or an expression is one
piece of content, that of an element starts with its open tag and ends with its close tag, and
between the places of its children nothing stands but plain text.
-/
set_option autoImplicit false

namespace PageEditor

open Cursor

/-! ## Gaps -/

/-- What stands in a region in front of, between and behind the places of some nodes. -/
def Gaps (P : List Char → Prop) (source : List Char) : Span → List Node → Prop
  | region, [] => P (sliceOr source region)
  | region, n :: ns =>
    ∃ o, n.origin = some o ∧ P (sliceOr source ⟨region.start, o.place.span.start⟩) ∧
      Gaps P source ⟨o.place.span.stop, region.stop⟩ ns

theorem gaps_of_origins {P : List Char → Prop} {source : List Char} {ns ms : List Node} :
    ∀ {region : Span}, ns.map (·.origin) = ms.map (·.origin) →
      Gaps P source region ms → Gaps P source region ns := by
  induction ns generalizing ms with
  | nil =>
    intro region h hgaps
    rw [List.map_nil] at h
    rwa [List.map_eq_nil_iff.1 h.symm] at hgaps
  | cons n ns ih =>
    intro region h hgaps
    cases ms with
    | nil => cases h
    | cons m ms =>
      obtain ⟨hn, hns⟩ := List.cons.inj h
      obtain ⟨o, ho, hgap, hmore⟩ := hgaps
      exact ⟨o, hn.trans ho, hgap, ih hns hmore⟩

theorem Tiles.gaps {P : List Char → Prop} {source : List Char} {ns : List Node} :
    ∀ {region : Span}, Tiles P source region ns → Gaps P source region ns := by
  have hsliceOr : ∀ {s : Span} {gap : List Char}, Text.slice source s = some gap → P gap →
      P (sliceOr source s) := by
    intro s gap hslice hgap
    rwa [sliceOr, hslice]
  induction ns with
  | nil =>
    rintro region ⟨gap, hslice, hgap⟩
    exact hsliceOr hslice hgap
  | cons n ns ih =>
    rintro region ⟨o, ho, _, ⟨gap, hslice, hgap⟩, hmore⟩
    exact ⟨o, ho, hsliceOr hslice hgap, ih hmore⟩

theorem gaps_cons {P : List Char → Prop} {source : List Char} {region : Span} {n : Node}
    {ns : List Node} {start : Nat} (hin : Node.inOrder source start (n :: ns) = true)
    (hgaps : Gaps P source region (n :: ns)) :
    ∃ o, n.originIn? source = some o ∧ P (sliceOr source ⟨region.start, o.place.span.start⟩) ∧
      Node.inOrder source o.place.span.stop ns = true ∧
      Gaps P source ⟨o.place.span.stop, region.stop⟩ ns := by
  obtain ⟨o, ho, hgap, hmore⟩ := hgaps
  rw [Node.inOrder] at hin
  split at hin
  · rename_i o' ho'
    obtain rfl : o' = o := Option.some.inj ((Node.origin_of_originIn? ho').symm.trans ho)
    exact ⟨o', ho', hgap, (Bool.and_eq_true_iff.1 hin).2, hmore⟩
  · cases hin

/-! ## Nodes that were read -/

/-- What is known of a node that was read from a text. -/
inductive Node.Stands (source : List Char) (n : Node) : Prop
  | text {place : Place} (hfresh : n.IsFresh place) (htype : n.type = textType)
      (hplain : IsPlain place.fragment.toList)
  | expression {place : Place} (hfresh : n.IsFresh place) (htype : n.type = expressionType)
      (hgroup : IsGroup n.group) (hfragment : place.fragment.toList = n.group)
  | closed {place : Place} (hfresh : n.IsFresh place) (hread : n.fields.IsRead)
      (hsame : n.fields.sameProps n.fields = true) (hcontent : place.content = none)
      (htext : n.text? = none) (htag : IsTag n.type true place.fragment.toList)
  | element {place : Place} {content : Span} (hfresh : n.IsFresh place) (hread : n.fields.IsRead)
      (hsame : n.fields.sameProps n.fields = true) (hcontent : place.content = some content)
      (htag : IsTag n.type false (sliceOr source place.openTag))
      (hclose : IsCloseTag n.type (sliceOr source ⟨content.stop, place.span.stop⟩))
      (hgaps : Gaps IsPlain source content n.children)

/-- What the text has at the place of a node that was read: the characters of a text, the braces of an
expression, the open tag that gave an element its fields, and what stands between its tags. -/
inductive Node.Imprint (source : List Char) (n : Node) : Prop
  | text {place : Place} (hfresh : n.IsFresh place) (htype : n.type = textType)
      (hplain : IsPlain place.fragment.toList)
  | expression {place : Place} (hfresh : n.IsFresh place) (htype : n.type = expressionType)
      (hgroup : IsGroup n.group) (hfragment : place.fragment.toList = n.group)
  | closed {place : Place} {as : List Attribute} (hfresh : n.IsFresh place)
      (hread : n.fields.IsRead) (hsame : n.fields.sameProps n.fields = true)
      (hcontent : place.content = none) (htext : n.fields.text = none)
      (hfields : Fields.ofTag n.type as = { n.fields with text := none })
      (htag : IsOpenTag ⟨n.type, as, true⟩ place.fragment.toList)
  | element {place : Place} {content : Span} {as : List Attribute} (hfresh : n.IsFresh place)
      (hread : n.fields.IsRead) (hsame : n.fields.sameProps n.fields = true)
      (hcontent : place.content = some content)
      (hfields : Fields.ofTag n.type as = { n.fields with text := none })
      (htag : IsOpenTag ⟨n.type, as, false⟩ (sliceOr source place.openTag))
      (hclose : IsCloseTag n.type (sliceOr source ⟨content.stop, place.span.stop⟩))
      (hgaps : Gaps IsPlain source content n.children)
      (htext : n.fields.text =
        if n.children.isEmpty then Text.trimmed? (sliceOr source content) else none)

theorem Node.Imprint.stands {source : List Char} {n : Node} (h : n.Imprint source) :
    n.Stands source := by
  cases h with
  | text hfresh htype hplain => exact .text hfresh htype hplain
  | expression hfresh htype hgroup hfragment => exact .expression hfresh htype hgroup hfragment
  | closed hfresh hread hsame hcontent htext _ htag =>
    exact .closed hfresh hread hsame hcontent (by rw [text?, htext]; rfl) htag.isTag
  | element hfresh hread hsame hcontent _ htag hclose hgaps =>
    exact .element hfresh hread hsame hcontent htag.isTag hclose hgaps

variable {source : List Char} {imports : List Import} {c d : Cursor}

/-! ## Texts and expressions -/

theorem imprint_expression {after : Cursor} (hgroup : IsGroup (c.upTo after)) (g : IdSource) :
    (Node.ofMarkup imports g (c.expression after)).1.Imprint source := by
  obtain ⟨inner, hinner⟩ := hgroup.exists_inside
  have htext : (c.upTo after).tail.dropLast = inner := by
    rw [hinner, List.cons_append, List.tail_cons, List.dropLast_concat]
  have hsame : Node.group (Node.ofMarkup imports g (c.expression after)).1 = c.upTo after := by
    rw [hinner, ← htext]
    simp [Node.group, Node.textChars, Node.ofMarkup, expression, Node.withPlace]
  refine .expression (Node.isFresh_withPlace _ _) rfl ?_ ?_
  · rw [hsame]
    exact hgroup
  · rw [hsame, Place.solid, String.toList_ofList]

/-! ## Elements -/

theorem isRead_elementNode {c d : Cursor} {tag : OpenTag} (h : c.openTag = .ok (tag, d))
    (id : String) (place : Place) (text : Option String) (nodes : List Node) :
    (elementNode imports id place tag.name tag.attributes text nodes).fields.IsRead := by
  exact (Fields.isRead_ofTag h).withText text

theorem elementNode_fields (imports : List Import) (id : String) (place : Place) (tag : String)
    (attributes : List Attribute) (text : Option String) (nodes : List Node) :
    Fields.ofTag (elementNode imports id place tag attributes text nodes).type attributes =
      { (elementNode imports id place tag attributes text nodes).fields with text := none } := by
  rw [Node.type, elementNode_type, ← Fields.ofTag_text tag attributes]
  rfl

theorem imprint_closed {after : Cursor} {tag : OpenTag} {r : List Char} (hr : c.rest = '<' :: r)
    (htag : c.openTag = .ok (tag, after)) (hclosed : tag.closed = true) (g : IdSource) :
    (Node.ofMarkup imports g (c.closedElement tag after)).1.Imprint source := by
  obtain ⟨name, attributes, closed⟩ := tag
  obtain rfl : closed = true := hclosed
  rw [closedElement, ofMarkup_childless]
  refine .closed (isFresh_elementNode ..) (isRead_elementNode htag ..)
    (elementNode_sameProps ..) rfl rfl (elementNode_fields ..) ?_
  rw [Node.type, elementNode_type, Place.solid, String.toList_ofList]
  exact isOpenTag_of_openTag hr htag

theorem imprint_element {inner close after : Cursor} {tag : OpenTag} {held : List Markup}
    {r : List Char} (hc : (ofText source).Leads c) (hr : c.rest = '<' :: r)
    (htag : c.openTag = .ok (tag, inner)) (hclosed : tag.closed = false)
    (hheld : Reads inner held close) (hclose : close.closeTag tag.name = .ok after)
    (g : IdSource) :
    (Node.ofMarkup imports g (c.openedElement tag inner close after held)).1.Imprint source := by
  obtain ⟨name, attributes, closed⟩ := tag
  obtain rfl : closed = false := hclosed
  have hinner := leads_of_openTag htag
  have hend := leads_of_closeTag hclose
  have hopen : sliceOr source (c.span inner) = c.upTo inner := sliceOr_of_leads hc hinner
  have hback : sliceOr source (close.span after) = close.upTo after :=
    sliceOr_of_leads (hc.trans (hinner.trans hheld.leads)) hend
  have hbody : sliceOr source (inner.span close) = inner.upTo close :=
    sliceOr_of_leads (hc.trans hinner) hheld.leads
  obtain ⟨r', hr'⟩ := hheld.slash
  rw [openedElement]
  obtain ⟨text, nodes, hn, htext, hplain, _⟩ := exists_elementNode hheld (hc.trans hinner) imports g
    ⟨c.span after, c.span inner, some (inner.span close), String.ofList (c.upTo after)⟩ name attributes
  rw [hn]
  refine .element (isFresh_elementNode ..) (isRead_elementNode htag ..)
    (elementNode_sameProps ..) rfl (elementNode_fields ..) ?_ ?_ hplain.gaps ?_
  · rw [Node.type, elementNode_type]
    show IsOpenTag ⟨name, attributes, false⟩ (sliceOr source (c.span inner))
    rw [hopen]
    exact isOpenTag_of_openTag hr htag
  · rw [Node.type, elementNode_type]
    show IsCloseTag name (sliceOr source (close.span after))
    rw [hback]
    exact isCloseTag_of_closeTag hr' hclose
  · rw [hbody]
    exact htext

/-! ## All nodes -/

theorem Node.IsMade.imprint {n : Node} (h : n.IsMade source imports) : n.Imprint source := by
  obtain ⟨g, m, s, e, rfl, hm⟩ := h
  cases hm with
  | text _ _ hplain =>
    refine .text (Node.isFresh_withPlace _ _) rfl ?_
    rw [Place.solid, String.toList_ofList]
    exact isPlain_of_all hplain
  | expression _ hr hbraced => exact imprint_expression (isGroup_of_braced hr hbraced) g
  | element hs hr hm =>
    cases hm with
    | closed htag hclosed => exact imprint_closed hr htag hclosed g
    | element htag hclosed hheld hclose =>
      exact imprint_element hs hr htag hclosed hheld hclose g

theorem Node.IsMade.stands {n : Node} (h : n.IsMade source imports) : n.Stands source :=
  h.imprint.stands

end PageEditor
