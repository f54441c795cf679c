import PageEditor.Proofs.Markup.Lossless
import PageEditor.Proofs.Markup.Reopening
import PageEditor.Proofs.Node.Outline
import PageEditor.Proofs.Text.Replacing

/-!
# Retouched pages

A page in which fields have got new values and nothing else has changed is written as the text it
was read from with some spans replaced: the open tags of the elements whose props have changed, and
the places of the texts that have changed. The nodes still have the outlines of the nodes that were
read, and with them their places, so the replaced spans come in the order of the nodes and nothing is
replaced twice.
-/
set_option autoImplicit false

namespace PageEditor

open Cursor

/-! ## What is replaced -/

/-- The part of a span without the blanks at its ends; the whole span if it is blank. -/
def trimmedSpan (source : List Char) (s : Span) : Span :=
  let region := sliceOr source s
  if (Text.trim region).isEmpty then s
  else
    let start := s.start + Text.byteLength (Text.leading region)
    ⟨start, start + Text.byteLength (Text.trim region)⟩

/-- What a node puts in the place of its open tag: its open tag anew if its props have changed. -/
def Node.tagReplacements (n : Node) (place : Place) : List Replacement :=
  if n.propsChanged then [⟨place.openTag, n.fields.openTag place.content.isNone⟩] else []

/-- What a node puts in the place of its text: its text anew if that has changed. -/
def Node.textReplacements (n : Node) (span : Span) (text : List Char) : List Replacement :=
  if n.textChanged then [⟨span, text⟩] else []

/-- What a node replaces in the text that it was read from. -/
def Node.replacements (source : List Char) (n : Node) : List Replacement :=
  let text := Value.escapeText (n.fields.text.getD "")
  match n.origin with
  | none => []
  | some o =>
    if n.isText then n.textReplacements o.place.span text
    else if n.isExpression then n.textReplacements o.place.span ('\x7b' :: n.textChars ++ ['\x7d'])
    else
      n.tagReplacements o.place ++
        match o.place.content with
        | some content =>
          if n.children.isEmpty then n.textReplacements (trimmedSpan source content) text else []
        | none => []

theorem replaces_spliceText {source region : List Char} {s : Span}
    (h : Text.slice source s = some region) (text : List Char) :
    Replaces source s [⟨trimmedSpan source s, text⟩] (spliceText region text) := by
  have hsliceOr : sliceOr source s = region := by rw [sliceOr, h, Option.getD_some]
  rw [trimmedSpan, hsliceOr, spliceText]
  by_cases hempty : (Text.trim region).isEmpty = true
  · simp only [if_pos hempty]
    exact .whole h text
  · simp only [if_neg hempty]
    obtain ⟨back, hregion, _⟩ := exists_trim_append region
    obtain ⟨front, more, hsource, hstart, hstop⟩ := Text.slice_eq_some.1 h
    have hlength := congrArg Text.byteLength hregion
    simp only [Text.byteLength_append] at hlength
    have hdrop : (Text.leading region ++ Text.trim region ++ back).drop
        (Text.leading region ++ Text.trim region).length = back := List.drop_left
    rw [List.append_assoc, hregion, List.length_append] at hdrop
    rw [← hregion] at hsource
    simp only [List.append_assoc] at hsource
    refine ⟨Text.leading region, Text.trim region, back, ?_, ?_, ?_, ?_⟩
    · exact Text.slice_eq_some.2 ⟨front, _, hsource, hstart, rfl⟩
    · refine Text.slice_eq_some.2 ⟨front ++ Text.leading region, back ++ more, ?_, ?_, rfl⟩
      · rw [hsource, List.append_assoc]
      · rw [Text.byteLength_append, hstart]
    · refine Text.slice_eq_some.2
        ⟨front ++ (Text.leading region ++ Text.trim region), more, ?_, ?_, ?_⟩
      · rw [hsource]
        simp only [List.append_assoc]
      · rw [Text.byteLength_append, Text.byteLength_append, hstart, Nat.add_assoc]
      · simp only
        omega
    · rw [hdrop]

namespace Node

/-! ## Retouched nodes -/

/-- The node has the outline of a node that was read. -/
def IsRetouched (source : List Char) (n : Node) : Prop :=
  ∃ (k : Node) (place : Place), k.LaidOut source place ∧ n.outline = k.outline

variable {source : List Char} {n : Node} {place : Place}

section

variable {k : Node} {content : Span} (hk : k.HasContent source place content)

include hk

theorem HasContent.replaces_tag (n : Node) : Replaces source ⟨place.span.start, content.start⟩
    (if n.propsChanged then [⟨place.openTag, n.fields.openTag false⟩] else [])
    (if n.propsChanged then n.fields.openTag false else sliceOr source place.openTag) := by
  obtain ⟨tag, htag, _⟩ := hk.isTag
  rw [sliceOr, htag, ← hk.openTag]
  cases n.propsChanged with
  | false => exact htag
  | true => exact .whole htag _

theorem HasContent.slice_close : Text.slice source ⟨content.stop, place.span.stop⟩ =
    some (sliceOr source ⟨content.stop, place.span.stop⟩) := by
  obtain ⟨close, hclose, _⟩ := hk.closeTag
  rw [sliceOr, hclose]
  rfl

end

section

variable {k : Node} (hk : k.LaidOut source place) (h : n.outline = k.outline)

include hk h

theorem origin_retouched : n.origin = some ⟨place, k.fields, k.childIds⟩ :=
  (origin_of_outline h).trans hk.fresh

theorem originIn?_retouched : n.originIn? source = some ⟨place, k.fields, k.childIds⟩ :=
  hk.originIn? (origin_of_outline h)

theorem replaces_leaf (hleaf : n.isLeaf = true) (depth : Nat) :
    Replaces source place.span (n.replacements source) (n.patched source depth) := by
  have htype : k.fields.type = n.fields.type := (type_of_outline h).symm
  have horigin := originIn?_retouched hk h
  have hreplaces : ∀ text, Replaces source place.span (n.textReplacements place.span text)
      (if n.textChanged then text else place.fragment.toList) := by
    intro text
    rw [textReplacements]
    split
    · exact .whole hk.slice text
    · exact hk.slice
  rw [isLeaf, Bool.or_eq_true] at hleaf
  rw [replacements, origin_retouched hk h]
  by_cases htext : n.isText = true
  · rw [patched_text horigin htype (by simpa [isText, type] using htext)]
    simp only [if_pos htext]
    exact hreplaces _
  · have hexpression := hleaf.resolve_left htext
    rw [patched_expression horigin htype (by simpa [isExpression, type] using hexpression)]
    simp only [if_neg htext, if_pos hexpression]
    exact hreplaces _

theorem replacements_element (hleaf : n.isLeaf = false) :
    n.replacements source =
      n.tagReplacements place ++
        match place.content with
        | some content =>
          if n.children.isEmpty then
            n.textReplacements (trimmedSpan source content)
              (Value.escapeText (n.fields.text.getD ""))
          else []
        | none => [] := by
  rw [isLeaf, Bool.or_eq_false_iff] at hleaf
  rw [replacements, origin_retouched hk h]
  simp [hleaf.1, hleaf.2]

theorem children_retouched (hcontent : place.content = none) : n.children = [] := by
  rw [← List.isEmpty_iff, isEmpty_of_outline h, (hk.solid hcontent).2]
  rfl

theorem text?_retouched (hleaf : n.isLeaf = false) (hcontent : place.content = none) :
    n.text? = none := by
  have htakes : n.takesText = false := by
    simp [takesText, hleaf, origin_retouched hk h, hcontent]
  rw [text?, text_of_outline h htakes,
    (hk.closed hcontent ((isLeaf_of_outline h).symm.trans hleaf)).1]
  rfl

theorem patched_closed_retouched (hleaf : n.isLeaf = false) (hcontent : place.content = none)
    (depth : Nat) :
    n.patched source depth =
      if n.propsChanged then n.fields.openTag true else place.fragment.toList := by
  rw [patched_closed (originIn?_retouched hk h) (type_of_outline h).symm hleaf hcontent,
    children_retouched hk h hcontent, text?_retouched hk h hleaf hcontent]
  rfl

theorem replaces_closed (hleaf : n.isLeaf = false) (hcontent : place.content = none) (depth : Nat) :
    Replaces source place.span (n.replacements source) (n.patched source depth) := by
  rw [replacements_element hk h hleaf, patched_closed_retouched hk h hleaf hcontent,
    tagReplacements, hcontent, (hk.solid hcontent).1]
  simp only [Option.isNone_none, List.append_nil]
  split
  · exact .whole hk.slice _
  · exact hk.slice

theorem replaces_solid (hcontent : place.content = none) (depth : Nat) :
    Replaces source place.span (n.nodes.flatMap (replacements source))
      (n.patched source depth) := by
  rw [nodes_eq, children_retouched hk h hcontent, nodesAll, List.flatMap_singleton]
  cases hleaf : n.isLeaf with
  | true => exact replaces_leaf hk h hleaf depth
  | false => exact replaces_closed hk h hleaf hcontent depth

/-- An element with content, when its children replace what they do in the content. -/
theorem replaces_content (hleaf : n.isLeaf = false) {content : Span}
    (hcontent : place.content = some content) (depth : Nat)
    (hin : n.children ≠ [] → inOrder source 0 n.children = true)
    (hbetween : n.children ≠ [] →
      Replaces source content ((nodesAll n.children).flatMap (replacements source))
        (patchedBetween source (depth + 1) content n.children)) :
    Replaces source place.span (n.nodes.flatMap (replacements source))
      (n.patched source depth) := by
  obtain ⟨_, hholds⟩ := hk.content content hcontent
  have horigin := originIn?_retouched hk h
  have hfront : Replaces source ⟨place.span.start, content.start⟩ (n.tagReplacements place)
      (if n.propsChanged then n.fields.openTag false else sliceOr source place.openTag) := by
    rw [tagReplacements, hcontent]
    exact hholds.replaces_tag n
  have hids : k.childIds = n.childIds := (childIds_of_outline h).symm
  rw [nodes_eq, List.flatMap_cons, replacements_element hk h hleaf,
    patched_content horigin (type_of_outline h).symm hleaf hcontent, patchedContent]
  simp only [hcontent, hids]
  by_cases hnil : n.children = []
  · have hempty : k.children = [] := by
      have hisEmpty := isEmpty_of_outline h
      rw [hnil] at hisEmpty
      exact List.isEmpty_iff.1 hisEmpty.symm
    obtain ⟨body, hbody, _⟩ := hholds.text hempty
    have hmiddle : Replaces source content
        (n.textReplacements (trimmedSpan source content) (Value.escapeText (n.fields.text.getD "")))
        (n.patchedText source content) := by
      rw [textReplacements, patchedText, sliceOr, hbody]
      split
      · exact replaces_spliceText hbody _
      · exact hbody
    have hnoIds : n.childIds.isEmpty = true := by rw [childIds, hnil]; rfl
    have hall := (hfront.append hmiddle).append_slice hholds.slice_close
    simpa [hnil, hnoIds, nodesAll] using hall
  · have hfull : n.children.isEmpty = false := by simpa using hnil
    have htakes : n.takesText = false := by simp [takesText, hleaf, hnil]
    have htextChanged : n.textChanged = false := by
      rw [textChanged, origin_retouched hk h]
      simp [text_of_outline h htakes]
    have hchildrenChanged : n.childrenChanged = false := by
      rw [childrenChanged, origin_retouched hk h]
      simp [hids]
    have hall := (hfront.append (hbetween hnil)).append_slice hholds.slice_close
    simpa [hfull, htextChanged, hchildrenChanged, hin hnil] using hall

end

/-! ## What is written anew -/

/-- Whether the text of a leaf or the tag of an element has changed. -/
def isChanged (n : Node) : Bool := if n.isLeaf then n.textChanged else n.propsChanged

/-- Of a node itself something is written anew only if it has changed. -/
theorem anew_of_retouched {k : Node} (hk : k.LaidOut source place) (h : n.outline = k.outline) :
    n.anew source = (if n.isChanged then [n] else []) ++ anewAll source n.children := by
  have ho := originIn?_retouched hk h
  have htype := (type_of_outline h).symm
  rw [isChanged]
  cases hleaf : n.isLeaf with
  | true =>
    have hcontent : place.content = none := Option.eq_none_iff_forall_ne_some.2 fun content hc => by
      rw [isLeaf_of_outline h, (hk.content content hc).1] at hleaf
      cases hleaf
    rw [anew_of_leaf ho htype hleaf, children_retouched hk h hcontent, anewAll, List.append_nil, if_pos rfl]
  | false =>
    rw [anew_of_element ho htype hleaf, if_neg Bool.false_ne_true]
    cases hcontent : place.content with
    | some content => rfl
    | none =>
      rw [children_retouched hk h hcontent, text?_retouched hk h hleaf hcontent]
      rfl

mutual

theorem anew_retouched : (n : Node) → (∀ m ∈ n.nodes, m.IsRetouched source) →
    n.anew source = n.nodes.filter isChanged
  | ⟨id, fields, component, origin, children⟩, hnodes => by
    obtain ⟨k, place, hk, h⟩ := hnodes _ (mem_nodes_self _)
    rw [anew_of_retouched hk h, nodes, List.filter_cons, anewAll_retouched children fun m hm =>
      hnodes m (mem_nodes_of_below hm)]
    split <;> rfl

theorem anewAll_retouched : (ns : List Node) → (∀ m ∈ nodesAll ns, m.IsRetouched source) →
    anewAll source ns = (nodesAll ns).filter isChanged
  | [], _ => rfl
  | n :: ns, hnodes => by
    rw [nodesAll, List.forall_mem_append] at hnodes
    rw [anewAll, nodesAll, List.filter_append, anew_retouched n hnodes.1, anewAll_retouched ns hnodes.2]

end

/-! ## All nodes -/

theorem inOrder_of_tiles {P : List Char → Prop} {ns : List Node}
    (hns : ∀ n ∈ ns, n.IsRetouched source) : ∀ {region : Span} {start : Nat},
    Tiles P source region ns → start ≤ region.start → inOrder source start ns = true := by
  induction ns with
  | nil => exact fun _ _ => rfl
  | cons n ns ih =>
    rintro region start ⟨o, ho, _, ⟨gap, hgap, _⟩, hmore⟩ hstart
    obtain ⟨k, place, hk, h⟩ := hns n List.mem_cons_self
    obtain rfl := Option.some.inj (ho.symm.trans (origin_retouched hk h))
    have hle := Text.le_of_slice hgap
    rw [inOrder, originIn?_retouched hk h]
    simp only [Bool.and_eq_true, decide_eq_true_eq]
    exact ⟨Nat.le_trans hstart hle,
      ih (fun m hm => hns m (List.mem_cons_of_mem n hm)) hmore (Nat.le_refl _)⟩

theorem tiles_retouched {k : Node} (hk : k.LaidOut source place) (h : n.outline = k.outline)
    {content : Span} (hcontent : place.content = some content) (hne : n.children ≠ []) :
    Tiles IsBlank source content n.children := by
  have hne' : k.children ≠ [] := by
    have hisEmpty := isEmpty_of_outline h
    intro hnil
    rw [hnil] at hisEmpty
    exact hne (List.isEmpty_iff.1 hisEmpty)
  obtain ⟨_, hholds⟩ := hk.content content hcontent
  exact (hholds.children hne').2.of_origins (children_of_outline h origin_of_outline)

mutual

/-- What a node and the nodes below it replace at the place of the node. -/
theorem replaces_patched (source : List Char) (depth : Nat) : (n : Node) →
    (∀ m ∈ n.nodes, m.IsRetouched source) → ∀ o, n.origin = some o →
    Replaces source o.place.span (n.nodes.flatMap (replacements source)) (n.patched source depth)
  | ⟨id, fields, component, origin, children⟩, hnodes, o, ho => by
    obtain ⟨k, place, hk, h⟩ := hnodes _ (mem_nodes_self _)
    obtain rfl := Option.some.inj (ho.symm.trans (origin_retouched hk h))
    have hbelow : ∀ m ∈ nodesAll children, m.IsRetouched source := fun m hm =>
      hnodes m (mem_nodes_of_below hm)
    cases hcontent : place.content with
    | none => exact replaces_solid hk h hcontent depth
    | some content =>
      have hleaf := (isLeaf_of_outline h).trans (hk.content content hcontent).1
      refine replaces_content hk h hleaf hcontent depth (fun hne => ?_) fun hne => ?_
      · exact inOrder_of_tiles (fun m hm => hbelow m (mem_nodesAll hm))
          (tiles_retouched hk h hcontent hne) (Nat.zero_le _)
      · exact replaces_patchedBetween source (depth + 1) children hbelow
          (tiles_retouched hk h hcontent hne)

theorem replaces_patchedBetween (source : List Char) (depth : Nat) : (ns : List Node) →
    (∀ m ∈ nodesAll ns, m.IsRetouched source) → ∀ {P : List Char → Prop} {region : Span},
    Tiles P source region ns →
    Replaces source region ((nodesAll ns).flatMap (replacements source))
      (patchedBetween source depth region ns)
  | [], _, P, region, htiles => by
    obtain ⟨gap, hgap, _⟩ := htiles
    rw [patchedBetween, sliceOr, hgap]
    exact hgap
  | n :: ns, hnodes, P, region, htiles => by
    obtain ⟨o, ho, _, ⟨gap, hgap, _⟩, hmore⟩ := htiles
    obtain ⟨k, place, hk, h⟩ := hnodes n (List.mem_append_left _ n.mem_nodes_self)
    have hn := replaces_patched source depth n (fun m hm => hnodes m (List.mem_append_left _ hm)) o ho
    have hns := replaces_patchedBetween source depth ns
      (fun m hm => hnodes m (List.mem_append_right _ hm)) hmore
    obtain rfl := Option.some.inj (ho.symm.trans (origin_retouched hk h))
    rw [patchedBetween_cons (originIn?_retouched hk h), nodesAll, List.flatMap_append, sliceOr, hgap]
    exact (Replaces.slice_append hgap hn).append hns

end

theorem head_patched {k : Node} (hk : k.LaidOut source place) (horigin : n.origin = k.origin)
    (htype : n.type = k.type) (hleaf : k.isLeaf = false) (depth : Nat) :
    ∃ r, n.patched source depth = '<' :: r := by
  have hin := hk.originIn? horigin
  have hleaf' := (isLeaf_congr htype).trans hleaf
  cases hcontent : place.content with
  | none =>
    rw [patched_closed hin htype.symm hleaf' hcontent]
    split
    · exact head_markup (htype ▸ ne_rootType_of_isName (hk.isName hleaf)) hleaf' _ _
    · split
      · exact ⟨_, rfl⟩
      · exact (hk.closed hcontent hleaf).2.head
  | some content =>
    obtain ⟨_, _, ⟨tag, htag, his⟩, _⟩ := hk.content content hcontent
    obtain ⟨r, rfl⟩ := his.head
    rw [patched_content hin htype.symm hleaf' hcontent]
    split
    · exact ⟨_, rfl⟩
    · rw [sliceOr, htag]
      exact ⟨_, rfl⟩

end Node

/-! ## Pages -/

section Pages

variable {source : List Char} {imports : List Import} {c e : Cursor} {ms : List Markup}
  {ids : IdSource} {t : Tree}

theorem missing_of_outline {is' : List Import}
    (h : t.root.outline = (Page.ofParts source imports ms ids).tree.root.outline)
    (hnames : is'.map Import.names = imports.map Import.names) : t.missing is' = [] := by
  have hneeded : ∀ {n k : Node}, n.outline = k.outline → n.needed? = k.needed? := by
    intro n k h
    rw [Node.needed?, Node.needed?, Node.component?, Node.component?, Node.component_of_outline h,
      Node.type_of_outline h]
  refine missing_of_allNamed fun x hx => ?_
  rw [neededAll_eq_flatMap] at hx
  obtain ⟨n, hn, hx⟩ := List.mem_flatMap.1 hx
  obtain ⟨k, hk, houtline⟩ := Node.exists_mem_outline h hn
  rw [Import.resolve?_congr hnames]
  refine allNamed_ofParts source imports ms ids x ?_
  rw [neededAll_eq_flatMap]
  exact List.mem_flatMap.2 ⟨k, hk, hneeded houtline ▸ hx⟩

theorem patched_retouched {root : Node} {place : Place} {P : List Char → Prop}
    (hfresh : root.IsFresh place) (hslice : Text.slice source place.span = some place.fragment.toList)
    (h : t.root.outline = root.outline) (htiles : Tiles P source place.span t.root.children)
    (hnodes : ∀ n ∈ Node.nodesAll t.root.children, n.IsRetouched source) :
    t.patched source =
      sliceOr source ⟨0, place.span.start⟩
        ++ Node.patchedBetween source 0 place.span t.root.children
        ++ sliceOr source ⟨place.span.stop, Text.byteLength source⟩ := by
  have horigin : t.root.origin = some ⟨place, root.fields, root.childIds⟩ :=
    (Node.origin_of_outline h).trans hfresh
  have hin := (Node.originIn?_congr (Node.origin_of_outline h)).trans (hfresh.originIn? hslice)
  have hchildren : t.root.childrenChanged = false := by
    rw [Node.childrenChanged, horigin]
    simp [Node.childIds_of_outline h]
  have hinOrder := Node.inOrder_of_tiles (fun n hn => hnodes n (Node.mem_nodesAll hn)) htiles
    (Nat.zero_le _)
  simp [Tree.patched, hin, hchildren, hinOrder]

/-- What a page that was read, and then retouched, still knows of its text. -/
theorem retouched_of_read {key source : String} {p : Page} (hp : Page.read source key = .ok p)
    (h : t.root.outline = p.tree.root.outline) {place : Place} (hfresh : p.tree.root.IsFresh place) :
    Text.slice source.toList place.span = some place.fragment.toList ∧
      Tiles IsInterlude source.toList place.span t.root.children ∧
      (∀ n ∈ Node.nodesAll t.root.children, n.IsRetouched source.toList) ∧
      ∀ first ∈ t.root.children.head?,
        first.origin.map (·.place.span.start) = some place.span.start := by
  obtain ⟨hlaid, place', hfresh', hslice, htiles, hfirst, _⟩ := tiles_of_read hp
  obtain ⟨rfl, _⟩ := Origin.mk.inj (Option.some.inj (hfresh.symm.trans hfresh'))
  have horigins := Node.children_of_outline h Node.origin_of_outline
  refine ⟨hslice, htiles.of_origins horigins, fun n hn => ?_, fun n hn => ?_⟩
  · obtain ⟨k, hk, houtline⟩ := Node.exists_mem_below h hn
    obtain ⟨place, hplace⟩ := hlaid k hk
    exact ⟨k, place, hplace, houtline⟩
  · have hhead := congrArg List.head? horigins
    rw [List.head?_map, List.head?_map, Option.mem_def.1 hn, Option.map_some] at hhead
    obtain ⟨k, hk, horigin⟩ := Option.map_eq_some_iff.1 hhead.symm
    rw [← horigin]
    exact hfirst k hk

theorem replaces_page {key source : String} {p : Page} (hp : Page.read source key = .ok p)
    (h : t.root.outline = p.tree.root.outline) :
    Replaces source.toList ⟨0, Text.byteLength source.toList⟩
      ((Node.nodesAll t.root.children).flatMap (Node.replacements source.toList))
      (t.patched source.toList) := by
  obtain ⟨_, place, hfresh, _⟩ := tiles_of_read hp
  obtain ⟨hslice, htiles, hnodes, _⟩ := retouched_of_read hp h hfresh
  obtain ⟨front, hfront⟩ := Text.slice_front hslice
  obtain ⟨back, hback⟩ := Text.slice_back hslice
  have hbody := Node.replaces_patchedBetween source.toList 0 _ hnodes htiles
  rw [patched_retouched hfresh hslice h htiles hnodes, sliceOr, hfront, sliceOr, hback]
  exact (Replaces.slice_append hfront hbody).append_slice hback

theorem head_patchedBetween {k n : Node} {ns : List Node} {place : Place} {region : Span}
    (hk : k.LaidOut source place) (horigin : n.origin = k.origin) (htype : n.type = k.type)
    (hleaf : k.isLeaf = false) (hstart : n.origin.map (·.place.span.start) = some region.start)
    (hregion : Text.slice source ⟨region.start, region.start⟩ = some []) (depth : Nat) :
    ∃ r, Node.patchedBetween source depth region (n :: ns) = '<' :: r := by
  obtain ⟨r, hr⟩ := Node.head_patched hk horigin htype hleaf depth
  have hin := hk.originIn? horigin
  rw [horigin, hk.fresh, Option.map_some, Option.some.injEq] at hstart
  rw [Node.patchedBetween_cons hin, hstart, sliceOr, hregion, hr]
  exact ⟨_, rfl⟩

theorem head_region {key source : String} (htop : ReadsTop c ms e)
    (hp : Page.read source key = .ok (Page.ofParts source.toList imports ms ids))
    (h : t.root.outline = (Page.ofParts source.toList imports ms ids).tree.root.outline) :
    ∃ r, Node.patchedBetween source.toList 0 (c.span e) t.root.children = '<' :: r := by
  have hfresh := isFresh_root source.toList imports ms ids
  rw [htop.region] at hfresh
  obtain ⟨hslice, _, _, hfirst⟩ := retouched_of_read hp h hfresh
  cases hchildren : t.root.children with
  | nil =>
    have hempty := Node.isEmpty_of_outline h
    rw [hchildren] at hempty
    exact absurd (allOfMarkup_eq_nil (List.isEmpty_iff.1 hempty.symm)) htop.ne_nil
  | cons n ns =>
    have hmem : n ∈ t.root.children := by
      rw [hchildren]
      exact List.mem_cons_self
    obtain ⟨k, hk, houtline⟩ := Node.exists_mem_child h hmem
    obtain ⟨place, hplace⟩ := (tiles_of_read hp).1 k (Node.mem_nodesAll hk)
    exact head_patchedBetween hplace (Node.origin_of_outline houtline)
      (Node.type_of_outline houtline) (htop.isLeaf imports ids k hk)
      (hfirst n (by rw [hchildren]; rfl)) (Text.slice_start hslice) 0

theorem syncImports_retouched {key source : String} {p : Page} (hp : Page.read source key = .ok p)
    (h : t.root.outline = p.tree.root.outline) :
    t.syncImports (t.patched source.toList) = t.patched source.toList := by
  obtain ⟨imports, c, ms, hprelude, helements, rfl⟩ := Page.read_eq_ok hp
  by_cases hms : ms = []
  · have hnil : t.root.children = [] := by
      have hempty := Node.isEmpty_of_outline h
      rw [hms] at hempty
      exact List.isEmpty_iff.1 hempty
    have hpatched : t.patched source.toList = source.toList := by
      have hreplaces := replaces_page hp h
      rw [hnil] at hreplaces
      have hwhole : Text.slice source.toList ⟨0, Text.byteLength source.toList⟩ =
          some source.toList :=
        Text.slice_eq_some.2 ⟨[], [], (List.append_nil _).symm, rfl, Nat.zero_add _⟩
      exact Option.some.inj (hreplaces.symm.trans hwhole)
    rw [hpatched, Tree.syncImports, hprelude]
    simp [missing_of_outline h rfl]
  · have hc := leads_of_prelude hprelude
    obtain ⟨e, htop⟩ := readsTop_of_elements _ true c ms (Nat.le_refl _) helements hms
    rw [skipTrivia_of_prelude hprelude] at htop
    have hfresh := isFresh_root source.toList imports ms (.ofKey key)
    rw [htop.region] at hfresh
    obtain ⟨hslice, htiles, hnodes, _⟩ := retouched_of_read hp h hfresh
    have hpatched := patched_retouched hfresh hslice h htiles hnodes
    have hfront : sliceOr source.toList ⟨0, c.offset⟩ = (ofText source.toList).upTo c :=
      upTo_ofText hc
    obtain ⟨r, hr⟩ := head_region htop hp h
    rw [List.append_assoc, hr] at hpatched
    simp only [span, hfront] at hpatched
    have hrest : (ofText (t.patched source.toList)).rest = _ := hpatched
    -- The imports end where they did, since the same tag or a new one stands behind them.
    have hends := endsImports_of_head (opens_of_trivia (r := r
      ++ sliceOr source.toList ⟨e.offset, Text.byteLength source.toList⟩) isTrivia_nil).head
    obtain ⟨r', hr'⟩ := htop.head
    obtain ⟨is', d, hread, hnames, _⟩ :=
      prelude_grafted hprelude (hr' ▸ List.cons_ne_nil _ _) hends hrest
    simp [Tree.syncImports, hread, missing_of_outline h hnames]

end Pages

end PageEditor
