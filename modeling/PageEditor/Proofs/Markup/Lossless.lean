import PageEditor.Proofs.Markup.Interludes
import PageEditor.Proofs.Markup.ReadPages
import PageEditor.Proofs.Markup.TopLevel

/-!
# Nothing is lost

The places of the nodes account for every character of a page from its first element to its last
one. The text at the place of a node is its fragment. An element is its open tag, its content and
its close tag, and in the content nothing but white space stands beside the children; without
children the content is the text of the element, but for the white space around it. At the top of
the page comments may stand beside the elements as well. In front of the first element stand only the
imports, blanks and comments, and behind the last one only blanks, comments and a text without a tag.
-/
set_option autoImplicit false

namespace PageEditor

open Cursor

/-! ## Tokens of a text -/

/-- What is left is exactly these tokens, with blanks between them. -/
def Cursor.Lexes (c : Cursor) : List Token → Prop
  | [] => c.lex = .finished
  | t :: ts => ∃ span next, c.lex = .token t span next ∧ next.Lexes ts

theorem lex_of_nil {c : Cursor} (h : c.rest = []) : c.lex = .finished := by
  simp [lex, skipSpace, h, advance]

theorem IsCloseTag.lexes {name : String} {cs : List Char} (h : IsCloseTag name cs) :
    (ofText cs).Lexes [.closeTagOpen, .ident name, .greater] := by
  have hread := h.reads (ofText cs) [] (List.append_nil cs).symm
  obtain ⟨l, n, g, hl, hn, hname, hg, hend⟩ := closeTag_eq_ok.1 hread
  obtain ⟨hl, hopen⟩ := expect_eq_ok.1 hl
  obtain ⟨hg, hgreater⟩ := expect_eq_ok.1 hg
  have hdone : g.next.lex = .finished := by
    refine lex_of_nil ?_
    rw [hend]
    exact List.drop_length
  exact ⟨_, _, hopen ▸ next_eq_ok.1 hl, _, _, hname ▸ next_eq_ok.1 hn, _, _,
    hgreater ▸ next_eq_ok.1 hg, hdone⟩

/-! ## Nodes -/

/-- The content of an element: it starts where the open tag ends and ends where the close tag
starts, and it holds the children or, if there are none, the text. -/
structure Node.HasContent (source : List Char) (n : Node) (place : Place) (content : Span) :
    Prop where
  openTag : place.openTag = ⟨place.span.start, content.start⟩
  isTag : ∃ tag, Text.slice source place.openTag = some tag ∧ IsTag n.type false tag
  closeTag : ∃ close, Text.slice source ⟨content.stop, place.span.stop⟩ = some close ∧
    (ofText close).Lexes [.closeTagOpen, .ident n.type, .greater]
  children : n.children ≠ [] → n.fields.text = none ∧ Tiles IsBlank source content n.children
  text : n.children = [] → ∃ body, Text.slice source content = some body ∧
    n.fields.text = Text.trimmed? body ∧ (n.fields.text = none ↔ IsBlank body)

/-- How a node that was read stands in the text. Only an element can have content. Every other node
is its own open tag and has no children, and if it is an element, it has no text. -/
structure Node.LaidOut (source : List Char) (n : Node) (place : Place) : Prop where
  fresh : n.IsFresh place
  slice : Text.slice source place.span = some place.fragment.toList
  solid : place.content = none → place.openTag = place.span ∧ n.children = []
  closed : place.content = none → n.isLeaf = false →
    n.fields.text = none ∧ IsTag n.type true place.fragment.toList
  content : ∀ content, place.content = some content →
    n.isLeaf = false ∧ n.HasContent source place content

theorem Node.LaidOut.originIn? {source : List Char} {n k : Node} {place : Place}
    (h : k.LaidOut source place) (horigin : n.origin = k.origin) :
    n.originIn? source = some ⟨place, k.fields, k.childIds⟩ :=
  (originIn?_congr horigin).trans (h.fresh.originIn? h.slice)

theorem Node.LaidOut.isName {source : List Char} {n : Node} {place : Place}
    (h : n.LaidOut source place) (hleaf : n.isLeaf = false) : Token.IsName n.type.toList := by
  cases hcontent : place.content with
  | none => exact (h.closed hcontent hleaf).2.isName
  | some content =>
    obtain ⟨_, _, his⟩ := (h.content content hcontent).2.isTag
    exact his.isName

section Elements

variable {source : List Char} {imports : List Import} {c inner close after stop : Cursor}
  {ms held : List Markup} {tag : OpenTag}

theorem laidOut_closed {r : List Char} (hc : (ofText source).Leads c) (hr : c.rest = '<' :: r)
    (htag : c.openTag = .ok (tag, after)) (hclosed : tag.closed = true) (g : IdSource) :
    (Node.ofMarkup imports g (c.closedElement tag after)).1.LaidOut source
      (c.closedElement tag after).place := by
  have htagged := isTag_of_openTag hr htag
  rw [hclosed] at htagged
  rw [closedElement, ofMarkup_childless]
  refine ⟨isFresh_elementNode .., slice_fragment hc (leads_of_openTag htag), fun _ => ⟨rfl, rfl⟩,
    fun _ _ => ⟨rfl, ?_⟩, by rintro _ ⟨⟩⟩
  rw [Node.type, elementNode_type, Markup.place, Place.solid, String.toList_ofList]
  exact htagged

theorem laidOut_element {r : List Char} (hc : (ofText source).Leads c) (hr : c.rest = '<' :: r)
    (htag : c.openTag = .ok (tag, inner)) (hclosed : tag.closed = false)
    (hheld : Reads inner held close) (hclose : close.closeTag tag.name = .ok after)
    (g : IdSource) :
    (Node.ofMarkup imports g (c.openedElement tag inner close after held)).1.LaidOut source
      (c.openedElement tag inner close after held).place := by
  have hinner := leads_of_openTag htag
  have hend := leads_of_closeTag hclose
  have hbody := hc.trans hinner
  have hname := isName_of_openTag htag
  have htagged := isTag_of_openTag hr htag
  rw [hclosed] at htagged
  obtain ⟨r', hr'⟩ := hheld.slash
  rw [openedElement]
  obtain ⟨text, nodes, hn, htext, _, htiles⟩ := exists_elementNode hheld hbody imports g
    ⟨c.span after, c.span inner, some (inner.span close), String.ofList (c.upTo after)⟩ tag.name
    tag.attributes
  rw [hn]
  refine ⟨isFresh_elementNode .., slice_fragment hc (hinner.trans (hheld.leads.trans hend)),
    (by rintro ⟨⟩), (by rintro ⟨⟩), ?_⟩
  rintro _ ⟨⟩
  have htype : Node.type (elementNode imports g.next.1 ⟨c.span after, c.span inner,
      some (inner.span close), String.ofList (c.upTo after)⟩ tag.name tag.attributes text nodes) =
      tag.name := elementNode_type ..
  refine ⟨isLeaf_elementNode hname, rfl, ?_, ?_, ?_, ?_⟩
  · rw [htype]
    exact ⟨_, slice_of_leads hc hinner, htagged⟩
  · rw [htype]
    exact ⟨_, slice_of_leads (hbody.trans hheld.leads) hend,
      (isCloseTag_of_closeTag hr' hclose).lexes⟩
  · intro (hne : nodes ≠ [])
    exact ⟨htext.trans (if_neg (by simpa using hne)), htiles hne⟩
  · intro (hnil : nodes = [])
    have htrimmed : text = Text.trimmed? (inner.upTo close) :=
      htext.trans (if_pos (by rw [hnil]; rfl))
    refine ⟨_, slice_of_leads hbody hheld.leads, htrimmed, ?_⟩
    show text = none ↔ _
    rw [htrimmed]
    exact trimmed?_eq_none _

theorem Node.IsMade.laidOut {n : Node} (h : n.IsMade source imports) :
    ∃ place, n.LaidOut source place := by
  obtain ⟨g, m, s, e, rfl, hm⟩ := h
  cases hm with
  | text hs hse _ =>
    exact ⟨_, Node.isFresh_withPlace _ _, slice_fragment hs hse,
      fun _ => ⟨rfl, rfl⟩, (by rintro _ ⟨⟩), by rintro _ ⟨⟩⟩
  | expression hs hr hbraced =>
    exact ⟨_, Node.isFresh_withPlace _ _, slice_fragment hs (leads_of_braced hbraced),
      fun _ => ⟨rfl, rfl⟩, (by rintro _ ⟨⟩), by rintro _ ⟨⟩⟩
  | element hs hr hm =>
    cases hm with
    | closed htag hclosed => exact ⟨_, laidOut_closed hs hr htag hclosed g⟩
    | element htag hclosed hheld hclose =>
      exact ⟨_, laidOut_element hs hr htag hclosed hheld hclose g⟩

end Elements

/-! ## Pages -/

theorem isFresh_ofMarkup (imports : List Import) (g : IdSource) (m : Markup) :
    (Node.ofMarkup imports g m).1.IsFresh m.place := by
  cases m with
  | text => exact Node.isFresh_withPlace _ _
  | expression => exact Node.isFresh_withPlace _ _
  | element place tag attributes held =>
    obtain ⟨_, _, hn⟩ := exists_ofMarkup_element imports place tag attributes g held
    rw [hn]
    exact isFresh_elementNode ..

theorem places_allOfMarkup (imports : List Import) (ms : List Markup) : ∀ g : IdSource,
    (Node.allOfMarkup imports g ms).1.map (fun n => n.origin.map (·.place)) =
      ms.map (some ·.place) := by
  induction ms with
  | nil => exact fun _ => rfl
  | cons m ms ih =>
    intro g
    rw [allOfMarkup_cons, List.map_cons, List.map_cons, ih, isFresh_ofMarkup imports g m]
    rfl

theorem allOfMarkup_eq_nil {imports : List Import} {g : IdSource} {ms : List Markup}
    (h : (Node.allOfMarkup imports g ms).1 = []) : ms = [] := by
  have hplaces := places_allOfMarkup imports ms g
  rw [h, List.map_nil] at hplaces
  exact List.map_eq_nil_iff.1 hplaces.symm

theorem isFresh_root (source : List Char) (imports : List Import) (ms : List Markup)
    (ids : IdSource) :
    (Page.ofParts source imports ms ids).tree.root.IsFresh
      (let region := Markup.region (Import.endOffset imports) ms
      ⟨region, ⟨region.start, region.start⟩, some region,
        String.ofList ((Text.slice source region).getD [])⟩) := rfl

theorem region_allOfMarkup (imports : List Import) (g : IdSource) (ms : List Markup) (o : Nat) :
    (∀ first ∈ (Node.allOfMarkup imports g ms).1.head?,
      first.origin.map (·.place.span.start) = some (Markup.region o ms).start) ∧
    ∀ last ∈ (Node.allOfMarkup imports g ms).1.getLast?,
      last.origin.map (·.place.span.stop) = some (Markup.region o ms).stop := by
  have hplaces := places_allOfMarkup imports ms g
  have hhead := congrArg List.head? hplaces
  have hlast := congrArg List.getLast? hplaces
  rw [List.head?_map, List.head?_map] at hhead
  rw [List.getLast?_map, List.getLast?_map] at hlast
  cases hms : ms.head? with
  | none =>
    rw [List.head?_eq_none_iff] at hms
    subst hms
    exact ⟨(by rintro _ ⟨⟩), (by rintro _ ⟨⟩)⟩
  | some m =>
    cases hms' : ms.getLast? with
    | none =>
      rw [List.getLast?_eq_none_iff] at hms'
      subst hms'
      cases hms
    | some m' =>
      have hregion : Markup.region o ms = ⟨m.place.span.start, m'.place.span.stop⟩ := by
        rw [Markup.region, hms, hms']
      rw [hregion]
      refine ⟨?_, ?_⟩
      · intro first hfirst
        rw [hms, Option.mem_def.1 hfirst] at hhead
        have hplace := Option.some.inj hhead
        have hspan := congrArg (Option.map (·.span.start)) hplace
        rwa [Option.map_map] at hspan
      · intro last hin
        rw [hms', Option.mem_def.1 hin] at hlast
        have hplace := Option.some.inj hlast
        have hspan := congrArg (Option.map (·.span.stop)) hplace
        rwa [Option.map_map] at hspan

theorem row_of_read {source : List Char} {imports : List Import} {c : Cursor} {ms : List Markup}
    (hprelude : (ofText source).prelude = .ok (imports, c)) (helements : c.elements true = .ok ms) :
    ∃ s e : Cursor, (ofText source).Leads s ∧ s.Leads e ∧
      Markup.region (Import.endOffset imports) ms = s.span e ∧ Row IsInterlude source s ms e := by
  obtain ⟨s, e, hs, hse, hregion, htop⟩ := region_of_read hprelude helements
  refine ⟨s, e, hs, hse, hregion, ?_⟩
  rcases htop with ⟨rfl, rfl⟩ | htop
  · exact .nil (Leads.refl s) (joins_isInterlude.upTo_self s)
  · exact htop.row joins_isInterlude (fun _ hne => isInterlude_upTo_skipTrivia hne) hs

theorem tiles_of_read {source key : String} {p : Page} (h : Page.read source key = .ok p) :
    (∀ n ∈ Node.nodesAll p.tree.root.children, ∃ place, n.LaidOut source.toList place) ∧
    ∃ place, p.tree.root.IsFresh place ∧
      Text.slice source.toList place.span = some place.fragment.toList ∧
      Tiles IsInterlude source.toList place.span p.tree.root.children ∧
      (∀ first ∈ p.tree.root.children.head?,
        first.origin.map (·.place.span.start) = some place.span.start) ∧
      ∀ last ∈ p.tree.root.children.getLast?,
        last.origin.map (·.place.span.stop) = some place.span.stop := by
  obtain ⟨imports, c, ms, hprelude, helements, rfl⟩ := Page.read_eq_ok h
  obtain ⟨s, e, hs, hse, hregion, hrow⟩ := row_of_read hprelude helements
  have hends := region_allOfMarkup imports (.ofKey key) ms (Import.endOffset imports)
  have htiles := hrow.tiles imports hs (.ofKey key)
  have hmade := isMade_allOfMarkup source.toList imports (.ofKey key) ms hrow
  have hslice := slice_of_leads hs hse
  rw [hregion] at hends
  rw [Page.ofParts, hregion, hslice]
  refine ⟨fun n hn => (hmade n hn).laidOut, _, Node.isFresh_withPlace _ _, ?_, htiles, hends⟩
  exact slice_fragment hs hse

/-! ## In front of the elements and behind them -/

/-- What may stand behind the nodes at the top of a page: blanks and comments, the last of which may
be left open, and behind an element also a text without a tag. -/
def EndsPage (ns : List Node) (cs : List Char) : Prop :=
  IsEnding cs ∨
    ns ≠ [] ∧ ∃ front back, cs = front ++ back ∧ IsInterlude front ∧ '<' ∉ back

theorem endsPage_of_elements {c : Cursor} {ns : List Node} (hne : ns ≠ [])
    (h : c.elements false = .ok []) : EndsPage ns c.rest := by
  by_cases hnil : c.skipTrivia.rest = []
  · exact .inl (isEnding_of_skipTrivia hnil)
  · exact .inr ⟨hne, _, _, (leads_skipTrivia c).rest.symm, isInterlude_upTo_skipTrivia hnil,
      elements_eq_nil_iff.1 h⟩

theorem surroundings_of_read {source key : String} {p : Page} (h : Page.read source key = .ok p) :
    ∃ place, p.tree.root.IsFresh place ∧
      TilesImports source.toList ⟨0, place.span.start⟩ p.imports ∧
      ∃ behind, Text.slice source.toList ⟨place.span.stop, Text.byteLength source.toList⟩ =
          some behind ∧ EndsPage p.tree.root.children behind := by
  obtain ⟨imports, c, ms, hprelude, helements, rfl⟩ := Page.read_eq_ok h
  refine ⟨_, isFresh_root source.toList imports ms (.ofKey key), ?_⟩
  obtain ⟨e, himports, hend⟩ := readsImports_of_prelude hprelude
  have hskip : e.skipTrivia = c := prelude_eq_nil hend
  have he := himports.leads
  by_cases hms : ms = []
  · -- Without elements the root stands behind the imports, where only blanks and comments are left.
    subst hms
    have hnone := elements_eq_nil helements
    rw [← hskip, skipTrivia_skipTrivia] at hnone
    have hregion : Markup.region (Import.endOffset imports) [] = e.span e := by
      rw [himports.endOffset]
      rfl
    rw [hregion]
    exact ⟨himports.tiles (Leads.refl _) (Leads.refl e) (joins_isInterlude.upTo_self e),
      _, slice_rest he, .inl (isEnding_of_skipTrivia hnone)⟩
  · obtain ⟨stop, htop⟩ := readsTop_of_elements _ true c ms (Nat.le_refl _) helements hms
    rw [← hskip, skipTrivia_skipTrivia] at htop
    have hfront : IsInterlude (e.upTo e.skipTrivia) := by
      obtain ⟨r, hr⟩ := htop.head
      exact isInterlude_upTo_skipTrivia (hr ▸ List.cons_ne_nil _ _)
    have hnodes : (Page.ofParts source.toList imports ms (.ofKey key)).tree.root.children ≠ [] :=
      fun hnil => hms (allOfMarkup_eq_nil hnil)
    rw [htop.region]
    exact ⟨himports.tiles (Leads.refl _) (leads_skipTrivia e) hfront,
      _, slice_rest ((he.trans (leads_skipTrivia e)).trans htop.leads),
      endsPage_of_elements hnodes htop.end⟩

/-! ## All of the text -/

/-- Reading loses nothing: every node stands in the text as its place says, and the place of the
root goes from the first element to the last one with only blanks and comments between them. In
front of that place stand the imports with blanks and comments between them, and behind it only
blanks, comments and a text without a tag. -/
theorem laidOut_of_read {source key : String} {p : Page} (h : Page.read source key = .ok p) :
    (∀ n ∈ Node.nodesAll p.tree.root.children, ∃ place, n.LaidOut source.toList place) ∧
    ∃ place, p.tree.root.IsFresh place ∧
      Text.slice source.toList place.span = some place.fragment.toList ∧
      Tiles IsInterlude source.toList place.span p.tree.root.children ∧
      (∀ first ∈ p.tree.root.children.head?,
        first.origin.map (·.place.span.start) = some place.span.start) ∧
      (∀ last ∈ p.tree.root.children.getLast?,
        last.origin.map (·.place.span.stop) = some place.span.stop) ∧
      TilesImports source.toList ⟨0, place.span.start⟩ p.imports ∧
      ∃ behind, Text.slice source.toList ⟨place.span.stop, Text.byteLength source.toList⟩ =
          some behind ∧ EndsPage p.tree.root.children behind := by
  obtain ⟨hnodes, place, hfresh, hslice, htiles, hfirst, hlast⟩ := tiles_of_read h
  obtain ⟨place', hfresh', hsurroundings⟩ := surroundings_of_read h
  cases hfresh.symm.trans hfresh'
  exact ⟨hnodes, place, hfresh, hslice, htiles, hfirst, hlast, hsurroundings⟩

theorem laidOut_buttonPage : ∃ p place, Page.read buttonPage "k" = .ok p ∧
    p.imports.length = 1 ∧ p.tree.root.children.map (·.children.length) = [3] ∧
    (∀ n ∈ Node.nodesAll p.tree.root.children, ∃ place, n.LaidOut buttonPage.toList place) ∧
    p.tree.root.IsFresh place ∧
    Text.slice buttonPage.toList place.span = some place.fragment.toList ∧
    Tiles IsInterlude buttonPage.toList place.span p.tree.root.children ∧
    TilesImports buttonPage.toList ⟨0, place.span.start⟩ p.imports ∧
    ∃ behind, Text.slice buttonPage.toList ⟨place.span.stop, Text.byteLength buttonPage.toList⟩ =
        some behind ∧ EndsPage p.tree.root.children behind := by
  have hpage : (Page.read buttonPage "k").toOption.any (fun p => p.imports.length == 1 &&
      p.tree.root.children.map (·.children.length) == [3]) = true := by decide +kernel
  cases hp : Page.read buttonPage "k" with
  | error e =>
    rw [hp] at hpage
    cases hpage
  | ok p =>
    rw [hp] at hpage
    obtain ⟨himports, hchildren⟩ := Bool.and_eq_true_iff.1 hpage
    obtain ⟨hnodes, place, hfresh, hslice, htiles, -, -, hsurroundings⟩ := laidOut_of_read hp
    exact ⟨p, place, rfl, beq_iff_eq.1 himports, beq_iff_eq.1 hchildren, hnodes, hfresh, hslice,
      htiles, hsurroundings⟩

end PageEditor
