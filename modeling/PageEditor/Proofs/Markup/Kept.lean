import PageEditor.Proofs.Markup.Lexing
import PageEditor.Proofs.Markup.Reading
import PageEditor.Proofs.Node.Sameness

/-!
# Kept nodes

The node of a piece of markup that was read stems from the text between two positions, and while it
has not changed it is written as that text. What stands between two nodes is kept, so the nodes of
neighbouring pieces join to the text from the first one to the last one.
-/
set_option autoImplicit false

namespace PageEditor

open Cursor

/-! ## Nodes that have not changed -/

namespace Node

/-- A node whose snapshot is what the node still is. -/
def IsFresh (n : Node) (place : Place) : Prop :=
  n.origin = some ⟨place, n.fields, n.childIds⟩

theorem isFresh_withPlace (n : Node) (place : Place) : (n.withPlace place).IsFresh place := rfl

variable {source : List Char} {n : Node} {place : Place}

theorem IsFresh.originIn? (h : n.IsFresh place)
    (hs : Text.slice source place.span = some place.fragment.toList) :
    n.originIn? source = some ⟨place, n.fields, n.childIds⟩ := by
  rw [Node.originIn?, h, Option.filter_some, hs, beq_self_eq_true, if_pos rfl]

theorem originIn?_congr {k : Node} (h : n.origin = k.origin) :
    n.originIn? source = k.originIn? source :=
  congrArg (Option.filter _) h

theorem IsFresh.childrenChanged (h : n.IsFresh place) : n.childrenChanged = false := by
  rw [Node.childrenChanged, h]
  simp

theorem origin_of_originIn? {o : Origin} (h : n.originIn? source = some o) : n.origin = some o := by
  rw [Node.originIn?] at h
  exact (Option.filter_eq_some_iff.1 h).1

theorem slice_of_originIn? {o : Origin} (h : n.originIn? source = some o) :
    Text.slice source o.place.span = some o.place.fragment.toList := by
  rw [Node.originIn?] at h
  exact beq_iff_eq.1 (Option.filter_eq_some_iff.1 h).2

theorem origin_ne_none_of_inOrder {ns : List Node} : ∀ {start : Nat},
    inOrder source start ns = true → ∀ c ∈ ns, c.origin ≠ none := by
  induction ns with
  | nil => exact fun _ => (by rintro _ ⟨⟩)
  | cons n ns ih =>
    intro start h c hc
    rw [inOrder] at h
    split at h
    · rename_i o ho
      rcases List.mem_cons.1 hc with rfl | hc
      · rw [origin_of_originIn? ho]
        rintro ⟨⟩
      · exact ih (Bool.and_eq_true_iff.1 h).2 c hc
    · cases h

/-! ## How a node is written -/

theorem patched_of_originIn?_eq_none (h : n.originIn? source = none) (depth : Nat) :
    n.patched source depth = n.markup defaultIndent depth := by
  obtain ⟨id, fields, component, origin, children⟩ := n
  simp only [patched, h]

theorem patchedBetween_cons {o : Origin} (ho : n.originIn? source = some o) (depth : Nat)
    (region : Span) (ns : List Node) :
    patchedBetween source depth region (n :: ns) =
      sliceOr source ⟨region.start, o.place.span.start⟩ ++ n.patched source depth
        ++ patchedBetween source depth ⟨o.place.span.stop, region.stop⟩ ns := by
  rw [patchedBetween, ho]

/-- What is written between the tags of an element that had content and children with these ids. -/
def patchedContent (source : List Char) (depth : Nat) (childIds : List String) (content : Span)
    (n : Node) : List Char :=
  if n.children.isEmpty then
    if childIds.isEmpty then n.patchedText source content else Value.escapeText (n.text?.getD "")
  else if n.childrenChanged || n.textChanged || !inOrder source 0 n.children then
    firstLine defaultIndent depth n.text? ++ patchedLines source (depth + 1) n.children
      ++ indentation defaultIndent depth
  else patchedBetween source (depth + 1) content n.children

section

variable {o : Origin} (ho : n.originIn? source = some o) (htype : o.fields.type = n.fields.type)

include ho htype

theorem patched_text (h : n.fields.type = textType) (depth : Nat) :
    n.patched source depth =
      if n.textChanged then Value.escapeText (n.fields.text.getD "")
      else o.place.fragment.toList := by
  obtain ⟨id, fields, component, origin, children⟩ := n
  simp only at h htype
  simp [patched, ho, htype, h]

theorem patched_expression (h : n.fields.type = expressionType) (depth : Nat) :
    n.patched source depth =
      if n.textChanged then '\x7b' :: n.textChars ++ ['\x7d'] else o.place.fragment.toList := by
  have hne : expressionType ≠ textType := by decide
  obtain ⟨id, fields, component, origin, children⟩ := n
  simp only at h htype
  simp [patched, ho, htype, h, hne]

theorem patched_closed (hleaf : n.isLeaf = false) (hcontent : o.place.content = none) (depth : Nat) :
    n.patched source depth =
      if !n.children.isEmpty || n.text?.isSome then n.markup defaultIndent depth
      else if n.propsChanged then n.fields.openTag true
      else o.place.fragment.toList := by
  obtain ⟨id, fields, component, origin, children⟩ := n
  simp only [isLeaf, isText, isExpression, type, Bool.or_eq_false_iff, beq_eq_false_iff_ne] at hleaf
  simp only at htype
  simp only [patched, ho, htype, hcontent, if_neg hleaf.1, if_neg hleaf.2, ne_eq, not_true_eq_false,
    if_false]

theorem patched_content (hleaf : n.isLeaf = false) {content : Span}
    (hcontent : o.place.content = some content) (depth : Nat) :
    n.patched source depth =
      (if n.propsChanged then n.fields.openTag false else sliceOr source o.place.openTag)
        ++ n.patchedContent source depth o.childIds content
        ++ sliceOr source ⟨content.stop, o.place.span.stop⟩ := by
  obtain ⟨id, fields, component, origin, children⟩ := n
  simp only [isLeaf, isText, isExpression, type, Bool.or_eq_false_iff, beq_eq_false_iff_ne] at hleaf
  simp only at htype
  simp only [patched, patchedContent, ho, htype, hcontent, if_neg hleaf.1, if_neg hleaf.2, ne_eq,
    not_true_eq_false, if_false]

end

/-! ## Nodes whose fields have not changed -/

/-- What stands between the tags of a node that had children with these ids and this content. -/
def patchedBody (source : List Char) (depth : Nat) (childIds : List String) (content : Span)
    (n : Node) : List Char :=
  if n.children.isEmpty then
    if childIds.isEmpty then sliceOr source content else Value.escapeText (n.text?.getD "")
  else if childIds ≠ n.childIds ∨ inOrder source 0 n.children = false then
    firstLine defaultIndent depth n.text? ++ patchedLines source (depth + 1) n.children
      ++ indentation defaultIndent depth
  else patchedBetween source (depth + 1) content n.children

section

variable {o : Origin} (ho : n.originIn? source = some o) (hf : o.fields = n.fields)

include ho hf

theorem textChanged_of_origin : n.textChanged = false := by
  rw [textChanged, origin_of_originIn? ho]
  simp [hf]

theorem propsChanged_of_origin (hprops : n.fields.sameProps n.fields = true) :
    n.propsChanged = false := by
  rw [propsChanged, origin_of_originIn? ho]
  simp [hf, hprops]

theorem patched_leaf (hleaf : n.fields.type = textType ∨ n.fields.type = expressionType)
    (depth : Nat) : n.patched source depth = o.place.fragment.toList := by
  have ht := textChanged_of_origin ho hf
  have htype := congrArg Fields.type hf
  rcases hleaf with hleaf | hleaf
  · rw [patched_text ho htype hleaf, ht]
    rfl
  · rw [patched_expression ho htype hleaf, ht]
    rfl

theorem patched_solid (htext : n.fields.type ≠ textType) (hexpression : n.fields.type ≠ expressionType)
    (hprops : n.fields.sameProps n.fields = true) (hcontent : o.place.content = none)
    (hn : n.text? = none) (depth : Nat) :
    n.patched source depth =
      if n.children.isEmpty then o.place.fragment.toList else n.markup defaultIndent depth := by
  have hp := propsChanged_of_origin ho hf hprops
  have hleaf : n.isLeaf = false := by simp [isLeaf, isText, isExpression, type, htext, hexpression]
  rw [patched_closed ho (congrArg Fields.type hf) hleaf hcontent, hp, hn]
  cases n.children.isEmpty <;> rfl

theorem patched_element (htext : n.fields.type ≠ textType)
    (hexpression : n.fields.type ≠ expressionType) (hprops : n.fields.sameProps n.fields = true)
    {content : Span} (hcontent : o.place.content = some content) (depth : Nat) :
    n.patched source depth =
      sliceOr source o.place.openTag ++ n.patchedBody source depth o.childIds content
        ++ sliceOr source ⟨content.stop, o.place.span.stop⟩ := by
  have hp := propsChanged_of_origin ho hf hprops
  have ht := textChanged_of_origin ho hf
  have hc : n.childrenChanged = (o.childIds != n.childIds) := by
    rw [childrenChanged, origin_of_originIn? ho]
  have hleaf : n.isLeaf = false := by simp [isLeaf, isText, isExpression, type, htext, hexpression]
  rw [patched_content ho (congrArg Fields.type hf) hleaf hcontent, patchedContent, hp, hc, ht,
    patchedBody, patchedText, ht]
  simp

end

theorem patchedBody_eq (hin : inOrder source 0 n.children = true) (depth : Nat) (content : Span) :
    n.patchedBody source depth n.childIds content =
      patchedBetween source (depth + 1) content n.children := by
  obtain ⟨id, fields, component, origin, children⟩ := n
  simp only at hin
  cases children with
  | nil => simp [patchedBody, childIds, patchedBetween]
  | cons n ns => simp [patchedBody, hin]

end Node

/-! ## Nodes in a text -/

/-- The node stems from the text between two positions and is written as that text. -/
structure Kept (source : List Char) (n : Node) (start stop : Cursor) : Prop where
  origin : ∃ o, n.originIn? source = some o ∧ o.place.span = start.span stop
  text : ∀ depth, n.patched source depth = start.upTo stop

/-- The nodes stem from the text between two positions, in order, and with what stands between them
they are written as that text. -/
structure KeptBetween (source : List Char) (ns : List Node) (start stop : Cursor) : Prop where
  inOrder : Node.inOrder source start.offset ns = true
  text : ∀ depth, Node.patchedBetween source depth (start.span stop) ns = start.upTo stop

variable {source : List Char}

theorem keptBetween_nil {b stop : Cursor} (hb : (ofText source).Leads b) (h : b.Leads stop) :
    KeptBetween source [] b stop :=
  ⟨rfl, fun _ => sliceOr_of_leads hb h⟩

theorem keptBetween_cons {n : Node} {ns : List Node} {b s e stop : Cursor}
    (hb : (ofText source).Leads b) (hbs : b.Leads s) (hse : s.Leads e) (hstop : e.Leads stop)
    (hn : Kept source n s e) (hns : KeptBetween source ns e stop) :
    KeptBetween source (n :: ns) b stop := by
  obtain ⟨o, ho, hspan⟩ := hn.origin
  refine ⟨?_, ?_⟩
  · rw [Node.inOrder, ho]
    simp only [hspan, Bool.and_eq_true, decide_eq_true_eq]
    exact ⟨hbs.offset_le, hns.inOrder⟩
  · intro depth
    rw [Node.patchedBetween, ho]
    simp only [hspan]
    have hfront : sliceOr source ⟨b.offset, s.offset⟩ = b.upTo s := sliceOr_of_leads hb hbs
    have hback : Node.patchedBetween source depth ⟨e.offset, stop.offset⟩ ns = e.upTo stop :=
      hns.text depth
    calc sliceOr source ⟨b.offset, s.offset⟩ ++ Node.patched source depth n
          ++ Node.patchedBetween source depth ⟨e.offset, stop.offset⟩ ns
        = b.upTo s ++ s.upTo e ++ e.upTo stop := by rw [hfront, hback, hn.text]
      _ = b.upTo stop := by rw [hbs.upTo_append hse, (hbs.trans hse).upTo_append hstop]

/-! ## Texts and expressions -/

theorem exists_trimEnd_append (cs : List Char) :
    ∃ back, Text.trimEnd cs ++ back = cs ∧ back.all Text.isBlank = true := by
  refine ⟨(cs.reverse.takeWhile Text.isBlank).reverse, ?_, ?_⟩
  · rw [Text.trimEnd, ← List.reverse_append, List.takeWhile_append_dropWhile, List.reverse_reverse]
  · rw [List.all_reverse]
    exact List.all_takeWhile

theorem exists_trim_append (cs : List Char) :
    ∃ back, Text.leading cs ++ (Text.trim cs ++ back) = cs ∧ back.all Text.isBlank = true := by
  obtain ⟨back, hback, hblank⟩ := exists_trimEnd_append (Text.trimStart cs)
  exact ⟨back, by rw [Text.trim, hback, Text.leading_append_trimStart], hblank⟩

theorem textRun?_eq_some {c d : Cursor} {m : Markup} (hcd : c.Leads d)
    (h : c.textRun? d = some m) :
    ∃ s e : Cursor, c.Leads s ∧ s.Leads e ∧ e.Leads d ∧
      ((c.upTo s).all Text.isBlank = true ∧ (e.upTo d).all Text.isBlank = true ∧
        s.upTo e = Text.trim (c.upTo d)) ∧
      m = .text (.solid (s.span e) (String.ofList (s.upTo e))) (String.ofList (s.upTo e)) := by
  simp only [textRun?] at h
  split at h
  · cases h
  · cases h
    obtain ⟨back, hraw, hblank⟩ := exists_trim_append (c.upTo d)
    have hrest := hcd.rest
    have hoffset := hcd.offset
    generalize c.upTo d = raw at *
    let s : Cursor := ⟨c.offset + Text.byteLength (Text.leading raw),
      Text.trim raw ++ (back ++ d.rest)⟩
    let e : Cursor := ⟨s.offset + Text.byteLength (Text.trim raw), back ++ d.rest⟩
    have hse : s.upTo e = Text.trim raw := upTo_of_append rfl
    have hcs : c.rest = Text.leading raw ++ s.rest := by
      have happend := congrArg (· ++ d.rest) hraw
      simp only [List.append_assoc] at happend
      rw [← hrest, ← happend]
    refine ⟨s, e, .of_append hcs rfl, .of_append rfl rfl, ?_, ⟨?_, ?_, hse⟩, ?_⟩
    · refine .of_append (m := back) rfl ?_
      rw [← hoffset, ← hraw]
      simp only [Text.byteLength_append, s, e]
      omega
    · rw [upTo_of_append hcs]
      exact List.all_takeWhile
    · rw [upTo_of_append (c := e) (d := d) rfl]
      exact hblank
    · rw [hse]
      rfl

/-- The fragment that a piece of markup remembers is the text at its place. -/
theorem slice_fragment {s e : Cursor} (hs : (ofText source).Leads s) (hse : s.Leads e) :
    Text.slice source (s.span e) = some (String.ofList (s.upTo e)).toList := by
  rw [String.toList_ofList]
  exact slice_of_leads hs hse

theorem kept_leaf {n : Node} {s e : Cursor} (hs : (ofText source).Leads s) (hse : s.Leads e)
    (h : n.IsFresh (.solid (s.span e) (String.ofList (s.upTo e))))
    (hleaf : n.fields.type = textType ∨ n.fields.type = expressionType) : Kept source n s e := by
  have hslice := slice_fragment hs hse
  refine ⟨⟨_, h.originIn? hslice, rfl⟩, ?_⟩
  intro depth
  rw [Node.patched_leaf (h.originIn? hslice) rfl hleaf, Place.solid, String.toList_ofList]

/-! ## Elements -/

theorem ne_textType_of_isName {name : String} (h : Token.IsName name.toList) :
    name ≠ textType ∧ name ≠ expressionType := by
  obtain ⟨c, r, hname, hc, _⟩ := h
  constructor
  · rintro rfl
    cases hname
    exact absurd hc (by decide)
  · rintro rfl
    cases hname
    exact absurd hc (by decide)

theorem Node.isLeaf_of_isName {n : Node} (h : Token.IsName n.type.toList) : n.isLeaf = false := by
  obtain ⟨htext, hexpression⟩ := ne_textType_of_isName h
  simp [isLeaf, isText, isExpression, htext, hexpression]

/-- The node that an element is read as. -/
def elementNode (imports : List Import) (id : String) (place : Place) (tag : String)
    (attributes : List Attribute) (text : Option String) (nodes : List Node) : Node :=
  Node.withPlace
    { id, fields := { Fields.ofTag tag attributes with text },
      component := ComponentInfo.ofTag? imports tag, children := nodes } place

/-- A run of text that stands alone is the text of the element, all else becomes its children. -/
theorem ofMarkup_element (imports : List Import) (g : IdSource) (place : Place) (tag : String)
    (attributes : List Attribute) (held : List Markup) :
    (∃ p t, held = [.text p t] ∧
      (Node.ofMarkup imports g (.element place tag attributes held)).1 =
        elementNode imports g.next.1 place tag attributes (some t) []) ∨
    (Node.ofMarkup imports g (.element place tag attributes held)).1 =
      elementNode imports g.next.1 place tag attributes none
        (Node.allOfMarkup imports g.next.2 held).1 := by
  have hnone : { Fields.ofTag tag attributes with text := none } = Fields.ofTag tag attributes := by
    rw [← Fields.ofTag_text tag attributes]
  rw [elementNode, hnone]
  rcases held with _ | ⟨m, _ | ⟨m', ms⟩⟩
  · exact .inr rfl
  · cases m with
    | text p t => exact .inl ⟨p, t, rfl, rfl⟩
    | expression => exact .inr rfl
    | element => exact .inr rfl
  · cases m <;> exact .inr rfl

theorem ofMarkup_childless (imports : List Import) (g : IdSource) (place : Place) (tag : String)
    (attributes : List Attribute) :
    (Node.ofMarkup imports g (.element place tag attributes [])).1 =
      elementNode imports g.next.1 place tag attributes none [] := by
  rcases ofMarkup_element imports g place tag attributes [] with ⟨_, _, hnil, _⟩ | hn
  · cases hnil
  · exact hn

section ElementNode

variable (imports : List Import) (id : String) (place : Place) (tag : String)
  (attributes : List Attribute) (text : Option String) (nodes : List Node)

theorem elementNode_type :
    (elementNode imports id place tag attributes text nodes).fields.type = tag :=
  Fields.ofTag_type tag attributes

theorem elementNode_sameProps :
    (elementNode imports id place tag attributes text nodes).fields.sameProps
      (elementNode imports id place tag attributes text nodes).fields = true :=
  Fields.sameProps_self fun _ hm => @Fields.ofTag_animation tag attributes _ hm

theorem isFresh_elementNode : (elementNode imports id place tag attributes text nodes).IsFresh place :=
  Node.isFresh_withPlace _ place

variable {imports id place tag attributes text nodes} in
theorem isLeaf_elementNode (htag : Token.IsName tag.toList) :
    (elementNode imports id place tag attributes text nodes).isLeaf = false :=
  Node.isLeaf_of_isName (by rw [Node.type, elementNode_type]; exact htag)

variable (g : IdSource) (held : List Markup)

theorem exists_ofMarkup_element :
    ∃ text nodes, (Node.ofMarkup imports g (.element place tag attributes held)).1 =
      elementNode imports g.next.1 place tag attributes text nodes := by
  rcases ofMarkup_element imports g place tag attributes held with ⟨_, _, _, hn⟩ | hn
  · exact ⟨_, _, hn⟩
  · exact ⟨_, _, hn⟩

theorem type_ofMarkup_element :
    (Node.ofMarkup imports g (.element place tag attributes held)).1.type = tag := by
  obtain ⟨_, _, hn⟩ := exists_ofMarkup_element imports place tag attributes g held
  rw [hn]
  exact elementNode_type ..

theorem component_ofMarkup_element :
    (Node.ofMarkup imports g (.element place tag attributes held)).1.component =
      ComponentInfo.ofTag? imports tag := by
  obtain ⟨_, _, hn⟩ := exists_ofMarkup_element imports place tag attributes g held
  rw [hn]
  rfl

end ElementNode

theorem kept_closed {c after : Cursor} {tag : OpenTag} (hc : (ofText source).Leads c)
    (htag : c.openTag = .ok (tag, after)) (imports : List Import) (g : IdSource) :
    Kept source (Node.ofMarkup imports g (c.closedElement tag after)).1 c after := by
  have hslice := slice_fragment hc (leads_of_openTag htag)
  have hname := ne_textType_of_isName (isName_of_openTag htag)
  rw [closedElement, ofMarkup_childless]
  have hfresh := isFresh_elementNode imports g.next.1
    (.solid (c.span after) (String.ofList (c.upTo after))) tag.name tag.attributes none []
  refine ⟨⟨_, hfresh.originIn? hslice, rfl⟩, ?_⟩
  intro depth
  have hpatched := Node.patched_solid (hfresh.originIn? hslice) rfl
    ((elementNode_type ..).symm ▸ hname.1) ((elementNode_type ..).symm ▸ hname.2)
    (elementNode_sameProps ..) rfl rfl depth
  rw [Place.solid, String.toList_ofList] at hpatched
  exact hpatched

theorem kept_element {c inner close after : Cursor} {tag : OpenTag} {held : List Markup}
    (hc : (ofText source).Leads c) (htag : c.openTag = .ok (tag, inner))
    (hheld : inner.Leads close) (hclose : close.closeTag tag.name = .ok after)
    (imports : List Import) (g : IdSource)
    (hkept : ∀ b : Cursor, (ofText source).Leads b → b.Leads inner →
      KeptBetween source (Node.allOfMarkup imports g.next.2 held).1 b close) :
    Kept source (Node.ofMarkup imports g (c.openedElement tag inner close after held)).1 c after := by
  have hinner := leads_of_openTag htag
  have hend := leads_of_closeTag hclose
  have hname := ne_textType_of_isName (isName_of_openTag htag)
  have hslice := slice_fragment hc (hinner.trans (hheld.trans hend))
  have hopen : sliceOr source (c.span inner) = c.upTo inner := sliceOr_of_leads hc hinner
  have hback : sliceOr source (close.span after) = close.upTo after :=
    sliceOr_of_leads (hc.trans (hinner.trans hheld)) hend
  -- Whichever children the node has, they are kept between the two tags.
  have hnode : ∀ text nodes,
      (∀ b : Cursor, (ofText source).Leads b → b.Leads inner → KeptBetween source nodes b close) →
      Kept source (elementNode imports g.next.1 ⟨c.span after, c.span inner,
        some (inner.span close), String.ofList (c.upTo after)⟩ tag.name tag.attributes text nodes)
        c after := by
    intro text nodes hnodes
    have hfresh := isFresh_elementNode imports g.next.1 ⟨c.span after, c.span inner,
        some (inner.span close), String.ofList (c.upTo after)⟩ tag.name tag.attributes text nodes
    have hin := (hnodes _ (Leads.refl _) (hc.trans hinner)).inOrder
    refine ⟨⟨_, hfresh.originIn? hslice, rfl⟩, ?_⟩
    intro depth
    have hbody := (hnodes inner (hc.trans hinner) (Leads.refl inner)).text (depth + 1)
    have hpatched := Node.patched_element (hfresh.originIn? hslice) rfl
      ((elementNode_type ..).symm ▸ hname.1) ((elementNode_type ..).symm ▸ hname.2)
      (elementNode_sameProps ..) rfl depth
    rw [Node.patchedBody_eq hin] at hpatched
    calc _ = sliceOr source (c.span inner)
          ++ Node.patchedBetween source (depth + 1) (inner.span close) nodes
          ++ sliceOr source (close.span after) := hpatched
      _ = c.upTo inner ++ inner.upTo close ++ close.upTo after := by rw [hopen, hbody, hback]
      _ = c.upTo after := by rw [hinner.upTo_append hheld, (hinner.trans hheld).upTo_append hend]
  rw [openedElement]
  rcases ofMarkup_element imports g ⟨c.span after, c.span inner, some (inner.span close),
    String.ofList (c.upTo after)⟩ tag.name tag.attributes held with ⟨_, t, _, hn⟩ | hn
  · rw [hn]
    exact hnode _ _ fun b hb hbi => keptBetween_nil hb (hbi.trans hheld)
  · rw [hn]
    exact hnode _ _ hkept

/-! ## Content -/

theorem allOfMarkup_cons (imports : List Import) (g : IdSource) (m : Markup) (ms : List Markup) :
    (Node.allOfMarkup imports g (m :: ms)).1 =
      (Node.ofMarkup imports g m).1 ::
        (Node.allOfMarkup imports (Node.ofMarkup imports g m).2 ms).1 := by
  rw [Node.allOfMarkup]

/-- The nodes of some markup are kept whatever position before it the text is counted from. -/
def KeptFrom (source : List Char) (imports : List Import) (ms : List Markup)
    (c stop : Cursor) : Prop :=
  ∀ (g : IdSource) (b : Cursor), (ofText source).Leads b → b.Leads c →
    KeptBetween source (Node.allOfMarkup imports g ms).1 b stop

theorem keptFrom_cons {imports : List Import} {m : Markup} {ms : List Markup}
    {c s e stop : Cursor} (hcs : c.Leads s) (hse : s.Leads e) (hstop : e.Leads stop)
    (hm : (ofText source).Leads s → ∀ g, Kept source (Node.ofMarkup imports g m).1 s e)
    (hms : KeptFrom source imports ms e stop) : KeptFrom source imports (m :: ms) c stop := by
  intro g b hb hbc
  have hbs := hbc.trans hcs
  rw [allOfMarkup_cons]
  exact keptBetween_cons hb hbs hse hstop (hm (hb.trans hbs) g)
    (hms _ e (hb.trans (hbs.trans hse)) (Leads.refl e))

theorem keptFrom_textRuns {imports : List Import} {ms : List Markup} {c stop : Cursor}
    (hstop : c.skipText.Leads stop) (hms : KeptFrom source imports ms c.skipText stop) :
    KeptFrom source imports (c.textRuns ++ ms) c stop := by
  rw [textRuns]
  cases hrun : c.textRun? c.skipText with
  | none =>
    intro g b hb hbc
    exact hms g b hb (hbc.trans (leads_skipText c))
  | some m =>
    obtain ⟨s, e, hcs, hse, hed, _, rfl⟩ := textRun?_eq_some (leads_skipText c) hrun
    refine keptFrom_cons hcs hse (hed.trans hstop) ?_ ?_
    · intro hs g
      exact kept_leaf hs hse (Node.isFresh_withPlace _ _) (.inl rfl)
    · intro g b hb hbe
      exact hms g b hb (hbe.trans hed)

theorem keptFrom_nil (imports : List Import) {c stop : Cursor} (h : c.Leads stop) :
    KeptFrom source imports [] c stop :=
  fun _ _ hb hbc => keptBetween_nil hb (hbc.trans h)

theorem keptFrom_of_reads (imports : List Import) {c stop : Cursor} {ms : List Markup}
    (h : Reads c ms stop) : KeptFrom source imports ms c stop := by
  induction h with
  | @stop c r hr =>
    have hnil : KeptFrom source imports (c.textRuns ++ []) c c.skipText :=
      keptFrom_textRuns (Leads.refl _) (keptFrom_nil imports (Leads.refl c.skipText))
    rwa [List.append_nil] at hnil
  | closed hr htag hclosed hmore ih =>
    have htagged := leads_of_openTag htag
    refine keptFrom_textRuns (htagged.trans hmore.leads) ?_
    exact keptFrom_cons (Leads.refl _) htagged hmore.leads
      (fun hs g => kept_closed hs htag imports g) ih
  | element hr htag hclosed hheld hclose hmore ihheld ihmore =>
    have htagged := leads_of_openTag htag
    have hwhole := htagged.trans (hheld.leads.trans (leads_of_closeTag hclose))
    refine keptFrom_textRuns (hwhole.trans hmore.leads) ?_
    exact keptFrom_cons (Leads.refl _) hwhole hmore.leads
      (fun hs g => kept_element hs htag hheld.leads hclose imports g (ihheld g.next.2)) ihmore
  | expression hr hbraced hmore ih =>
    have hb := leads_of_braced hbraced
    refine keptFrom_textRuns (hb.trans hmore.leads) ?_
    exact keptFrom_cons (Leads.refl _) hb hmore.leads
      (fun hs g => kept_leaf hs hb (Node.isFresh_withPlace _ _) (.inr rfl)) ih

theorem kept_of_readsElement (imports : List Import) {c after : Cursor} {m : Markup}
    (h : ReadsElement c m after) (hc : (ofText source).Leads c) (g : IdSource) :
    Kept source (Node.ofMarkup imports g m).1 c after := by
  cases h with
  | closed htag _ => exact kept_closed hc htag imports g
  | element htag _ hheld hclose =>
    exact kept_element hc htag hheld.leads hclose imports g
      (keptFrom_of_reads imports hheld g.next.2)

end PageEditor
