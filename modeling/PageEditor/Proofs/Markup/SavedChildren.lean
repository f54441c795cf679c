import PageEditor.Proofs.Markup.Fitting
import PageEditor.Proofs.Markup.Renewed
import PageEditor.Proofs.Markup.RoundTrip
import PageEditor.Proofs.Tree.Edits

/-!
# Saved children

No child is lost when an element is saved, and none is written twice. Whether the element keeps its
tags, gets a new open tag, has its children written on new lines or is printed from scratch, what is
written of its children stands behind its open tag, child by child and each of them once. Beside the
children stand line feeds and indentations where they are on new lines, and where they are not, what
stood between their places. An edited page that is saved on a text has its top-level nodes in it in the
same way.
-/
set_option autoImplicit false

namespace PageEditor

/-! ## Pieces of a text -/

/-- The text is these pieces, one behind the other, and what stands in front of, between and behind
them has `P`. -/
inductive InTurn (P : List Char → Prop) : List (List Char) → List Char → Prop
  | nil {gap : List Char} (hgap : P gap) : InTurn P [] gap
  | cons {gap : List Char} (hgap : P gap) (piece : List Char) {pieces : List (List Char)}
      {rest : List Char} (h : InTurn P pieces rest) : InTurn P (piece :: pieces) (gap ++ (piece ++ rest))

/-- The indentation of a line, perhaps with a line feed in front of it. -/
def IsBreak (indent gap : List Char) : Prop :=
  ∃ depth, gap = indentation indent depth ∨ gap = '\n' :: indentation indent depth

theorem isBreak_nil (indent : List Char) : IsBreak indent [] := ⟨0, .inl rfl⟩

theorem isBreak_append (indent : List Char) (depth : Nat) {front : List Char}
    (hfront : front = [] ∨ front = ['\n']) : IsBreak indent (front ++ indentation indent depth) := by
  rcases hfront with rfl | rfl
  · exact ⟨depth, .inl rfl⟩
  · exact ⟨depth, .inr rfl⟩

namespace Node

/-- Each node on an indented line of its own. -/
def linesOf (write : Node → List Char) (indent : List Char) (depth : Nat) (ns : List Node) :
    List Char :=
  ns.flatMap fun n => indentation indent depth ++ (write n ++ ['\n'])

/-- The text is the region of the source with what is written of each node at its place, and no node
has lost its place. -/
def InPlace (source : List Char) (write : Node → List Char) : Span → List Node → List Char → Prop
  | region, [], text => text = sliceOr source region
  | region, n :: ns, text =>
    ∃ o rest, n.originIn? source = some o ∧
      text = sliceOr source ⟨region.start, o.place.span.start⟩ ++ (write n ++ rest) ∧
      InPlace source write ⟨o.place.span.stop, region.stop⟩ ns rest

/-! ## Runs of nodes -/

theorem inTurn_linesOf (write : Node → List Char) (indent : List Char) (inner outer : Nat)
    (ns : List Node) : ∀ {front : List Char}, (front = [] ∨ front = ['\n']) →
    InTurn (IsBreak indent) (ns.map write)
      (front ++ (linesOf write indent inner ns ++ indentation indent outer)) := by
  induction ns with
  | nil => exact fun hfront => .nil (isBreak_append indent outer hfront)
  | cons n ns ih =>
    intro front hfront
    have hmore := InTurn.cons (isBreak_append indent inner hfront) (write n) (ih (.inr rfl))
    simpa [linesOf] using hmore

theorem lines_eq_linesOf (indent : List Char) (depth : Nat) (ns : List Node) :
    lines indent depth ns = linesOf (markup indent depth) indent depth ns := by
  induction ns with
  | nil => rfl
  | cons n ns ih => simp [lines, linesOf, ih]

theorem patchedLines_eq_linesOf (source : List Char) (depth : Nat) (ns : List Node) :
    patchedLines source depth ns = linesOf (patched source depth) defaultIndent depth ns := by
  induction ns with
  | nil => rfl
  | cons n ns ih => simp [patchedLines, linesOf, ih]

theorem inTurn_moreTopLines (indent : List Char) (depth : Nat) (ns : List Node) :
    InTurn (IsBreak indent) (ns.map (markup indent depth)) (moreTopLines indent depth ns) := by
  induction ns with
  | nil => exact .nil (isBreak_nil indent)
  | cons n ns ih =>
    rw [moreTopLines, List.append_assoc]
    exact .cons (isBreak_append indent depth (.inr rfl)) _ ih

theorem inTurn_topLines (indent : List Char) (depth : Nat) (ns : List Node) :
    InTurn (IsBreak indent) (ns.map (markup indent depth)) (topLines indent depth ns) := by
  cases ns with
  | nil => exact .nil (isBreak_nil indent)
  | cons n ns => exact .cons (isBreak_nil indent) _ (inTurn_moreTopLines indent depth ns)

section Patcher

variable (source : List Char)

theorem inTurn_patchedTop (ns : List Node) : ∀ {front : List Char},
    (front = [] ∨ front = ['\n']) →
    InTurn (IsBreak defaultIndent) (ns.map (patched source 0)) (front ++ patchedTop source ns) := by
  have hbreak : ∀ {front : List Char}, (front = [] ∨ front = ['\n']) →
      IsBreak defaultIndent front := by
    intro front hfront
    have hindented := isBreak_append defaultIndent 0 hfront
    rwa [indentation, List.replicate_zero, List.flatten_nil, List.append_nil] at hindented
  fun_induction patchedTop source ns with
  | case1 =>
    intro front hfront
    rw [List.append_nil]
    exact .nil (hbreak hfront)
  | case2 n =>
    intro front hfront
    have hlast := InTurn.cons (hbreak hfront) (n.patched source 0) (.nil (hbreak (.inl rfl)))
    rwa [List.append_nil] at hlast
  | case3 n ns _ ih => exact fun hfront => .cons (hbreak hfront) _ (ih (.inr rfl))

/-- Nodes in order have origins in the text, so none of them is passed over. -/
theorem inPlace_patchedBetween (depth : Nat) (ns : List Node) : ∀ {start : Nat} (region : Span),
    inOrder source start ns = true →
    InPlace source (patched source depth) region ns (patchedBetween source depth region ns) := by
  induction ns with
  | nil => exact fun _ _ => rfl
  | cons n ns ih =>
    intro start region hin
    rw [inOrder] at hin
    split at hin
    · rename_i o ho
      refine ⟨o, _, ho, ?_, ih _ (Bool.and_eq_true_iff.1 hin).2⟩
      rw [patchedBetween_cons ho, List.append_assoc]
    · cases hin

end Patcher

end Node

/-! ## Texts that agree on a place -/

section Agreement

variable {P : List Char → Prop} {text source x : List Char} {outer : Span}

theorem Tiles.start_le_stop {ns : List Node} : ∀ {region : Span}, Tiles P text region ns →
    region.start ≤ region.stop := by
  induction ns with
  | nil =>
    rintro region ⟨gap, hgap, _⟩
    exact Text.le_of_slice hgap
  | cons n ns ih =>
    rintro region ⟨o, _, hle, ⟨gap, hgap, _⟩, hmore⟩
    exact (Text.le_of_slice hgap).trans (hle.trans (ih hmore))

/-- What tiles a region of one text tiles it in every text that agrees with it there. -/
theorem Tiles.of_agree (htext : Text.slice text outer = some x)
    (hsource : Text.slice source outer = some x) {ns : List Node} : ∀ {region : Span},
    outer.start ≤ region.start → region.stop ≤ outer.stop → Tiles P text region ns →
    Tiles P source region ns := by
  induction ns with
  | nil =>
    rintro region hstart hstop ⟨gap, hgap, hP⟩
    exact ⟨gap, Text.slice_of_agree htext hsource hstart hstop hgap, hP⟩
  | cons n ns ih =>
    rintro region hstart hstop ⟨o, ho, hle, ⟨gap, hgap, hP⟩, hmore⟩
    have hfirst := hstart.trans (Text.le_of_slice hgap)
    have hlast := hle.trans (hmore.start_le_stop.trans hstop)
    exact ⟨o, ho, hle, ⟨gap, Text.slice_of_agree htext hsource hstart hlast hgap, hP⟩,
      ih (hfirst.trans hle) hstop hmore⟩

theorem Tiles.slice_of_agree (htext : Text.slice text outer = some x)
    (hsource : Text.slice source outer = some x) {ns : List Node} : ∀ (region : Span),
    outer.start ≤ region.start → region.stop ≤ outer.stop → Tiles P text region ns →
    ∀ n ∈ ns, ∀ o y, n.origin = some o → Text.slice text o.place.span = some y →
      Text.slice source o.place.span = some y := by
  induction ns with
  | nil => rintro _ _ _ _ _ ⟨⟩
  | cons n ns ih =>
    rintro region hstart hstop ⟨o, ho, hle, ⟨gap, hgap, _⟩, hmore⟩ m hm o' y ho' hy
    have hfirst := hstart.trans (Text.le_of_slice hgap)
    rcases List.mem_cons.1 hm with rfl | hm
    · cases ho.symm.trans ho'
      exact Text.slice_of_agree htext hsource hfirst (hmore.start_le_stop.trans hstop) hy
    · exact ih ⟨_, region.stop⟩ (hfirst.trans hle) hstop hmore m hm o' y ho' hy

namespace Node

variable {n : Node} {place : Place} {content : Span}

theorem LaidOut.bounds (h : n.LaidOut text place) (hcontent : place.content = some content) :
    place.span.start ≤ content.start ∧ content.start ≤ content.stop ∧
      content.stop ≤ place.span.stop := by
  obtain ⟨_, hheld⟩ := h.content content hcontent
  obtain ⟨tag, htag, _⟩ := hheld.isTag
  obtain ⟨close, hclose, _⟩ := hheld.closeTag
  obtain ⟨-, -, htiles⟩ := h.fits.content _ content h.fresh hcontent
  rw [hheld.openTag] at htag
  exact ⟨Text.le_of_slice htag, htiles.start_le_stop, Text.le_of_slice hclose⟩

/-- A node that stands in one text stands in every text that has its fragment at its place. -/
theorem LaidOut.fits_of_slice (h : n.LaidOut text place)
    (hslice : Text.slice source place.span = some place.fragment.toList) : n.Fits source := by
  refine ⟨?_, ?_, h.fits.solid⟩
  · intro o ho
    cases h.fresh.symm.trans ho
    exact hslice
  · intro o content ho hcontent
    cases h.fresh.symm.trans ho
    obtain ⟨hstart, hle, hstop⟩ := h.bounds hcontent
    obtain ⟨⟨tag, htag⟩, ⟨close, hclose⟩, htiles⟩ := h.fits.content _ content ho hcontent
    have hopen := (h.content content hcontent).2.openTag
    refine ⟨⟨tag, ?_⟩, ⟨close, ?_⟩, htiles.of_agree h.slice hslice hstart hstop⟩
    · refine Text.slice_of_agree h.slice hslice ?_ ?_ htag
      · rw [hopen]
      · rw [hopen]
        exact hle.trans hstop
    · exact Text.slice_of_agree h.slice hslice (hstart.trans hle) (Nat.le_refl _) hclose

mutual

theorem fits_of_agree : (n : Node) → (∀ m ∈ n.nodes, ∃ place, m.LaidOut text place) →
    (∀ o, n.origin = some o → Text.slice source o.place.span = some o.place.fragment.toList) →
    ∀ m ∈ n.nodes, m.Fits source
  | ⟨id, fields, component, origin, children⟩, hlaid, hslice => by
    obtain ⟨⟨place, hself⟩, hbelow⟩ := List.forall_mem_cons.1 hlaid
    have hsource := hslice _ hself.fresh
    refine List.forall_mem_cons.2 ⟨hself.fits_of_slice hsource, fits_of_agreeAll children hbelow ?_⟩
    intro c hc o ho
    obtain ⟨cplace, hclaid⟩ := hbelow c (mem_nodesAll_iff.2 ⟨c, hc, c.mem_nodes_self⟩)
    cases ho.symm.trans hclaid.fresh
    cases hcontent : place.content with
    | none =>
      have hnil : children = [] := (hself.solid hcontent).2
      rw [hnil] at hc
      cases hc
    | some content =>
      obtain ⟨hstart, _, hstop⟩ := hself.bounds hcontent
      obtain ⟨-, htiles⟩ := (hself.content content hcontent).2.children (List.ne_nil_of_mem hc)
      exact htiles.slice_of_agree hself.slice hsource content hstart hstop c hc _ _ ho hclaid.slice

theorem fits_of_agreeAll : (ns : List Node) →
    (∀ m ∈ nodesAll ns, ∃ place, m.LaidOut text place) →
    (∀ n ∈ ns, ∀ o, n.origin = some o →
      Text.slice source o.place.span = some o.place.fragment.toList) →
    ∀ m ∈ nodesAll ns, m.Fits source
  | [], _, _ => by rintro _ ⟨⟩
  | n :: ns, hlaid, hslice => by
    rw [nodesAll] at hlaid ⊢
    obtain ⟨hn, hns⟩ := List.forall_mem_append.1 hlaid
    obtain ⟨hslicen, hslices⟩ := List.forall_mem_cons.1 hslice
    exact List.forall_mem_append.2 ⟨fits_of_agree n hn hslicen, fits_of_agreeAll ns hns hslices⟩

end

end Node

end Agreement

/-! ## Where an origin comes from -/

/-- The text was read as a page with a node that has this origin. -/
def Origin.IsFrom (o : Origin) (text : String) : Prop :=
  ∃ key page, Page.read text key = .ok page ∧ ∃ k ∈ page.tree.root.nodes, k.origin = some o

/-- In every text that an origin comes from, a node with its fields stands at its place. -/
theorem Origin.IsFrom.laidOut {o : Origin} {text : String} (h : o.IsFrom text)
    (hroot : o.fields.type ≠ rootType) :
    ∃ k : Node, k.fields = o.fields ∧ k.LaidOut text.toList o.place := by
  obtain ⟨key, page, hread, k, hk, hko⟩ := h
  obtain ⟨hbelow, place, hfresh, -⟩ := tiles_of_read hread
  rw [Node.nodes_eq] at hk
  rcases List.mem_cons.1 hk with rfl | hk
  · -- The root is no element.
    cases hko.symm.trans hfresh
    exact absurd (Page.wellFormed_of_read hread).root_type hroot
  · obtain ⟨place, hlaid⟩ := hbelow k hk
    cases hko.symm.trans hlaid.fresh
    exact ⟨k, rfl, hlaid⟩

namespace Node

/-! ## Tags that are kept -/

/-- The element still has its tags in the text, with room for content between them. -/
def keepsTags (source : List Char) (n : Node) : Bool :=
  (n.originIn? source).any fun o => o.fields.type == n.fields.type && o.place.content.isSome

/-- The open tag that the element was read with. -/
def WasTag (n : Node) (tag : List Char) : Prop :=
  ∃ o, n.origin = some o ∧ IsTag n.type false tag ∧
    ∀ text, o.IsFrom text → Text.slice text.toList o.place.openTag = some tag

/-- The close tag that the element was read with. -/
def WasCloseTag (n : Node) (close : List Char) : Prop :=
  ∃ o content, n.origin = some o ∧ o.place.content = some content ∧
    (Cursor.ofText close).Lexes [.closeTagOpen, .ident n.type, .greater] ∧
    ∀ text, o.IsFrom text →
      Text.slice text.toList ⟨content.stop, o.place.span.stop⟩ = some close

section Tags

variable {source : List Char} {n : Node} {o : Origin} {content : Span} (hroot : n.type ≠ rootType)
  (ho : n.originIn? source = some o) (htype : o.fields.type = n.fields.type)
  (hcontent : o.place.content = some content)

include hroot ho htype hcontent

/-- Where an element stands again as it was read, its tags are those that it was read with. -/
theorem tags_of_isFrom {text : String} (h : o.IsFrom text) :
    (Text.slice text.toList o.place.openTag = some (sliceOr source o.place.openTag) ∧
      IsTag n.type false (sliceOr source o.place.openTag)) ∧
    Text.slice text.toList ⟨content.stop, o.place.span.stop⟩ =
        some (sliceOr source ⟨content.stop, o.place.span.stop⟩) ∧
      (Cursor.ofText (sliceOr source ⟨content.stop, o.place.span.stop⟩)).Lexes
        [.closeTagOpen, .ident n.type, .greater] := by
  obtain ⟨k, hk, hlaid⟩ := h.laidOut (htype ▸ hroot)
  have hname : k.type = n.type := (congrArg Fields.type hk).trans htype
  have hsource := slice_of_originIn? ho
  obtain ⟨-, hheld⟩ := hlaid.content content hcontent
  obtain ⟨hstart, hle, hstop⟩ := hlaid.bounds hcontent
  obtain ⟨tag, htag, his⟩ := hheld.isTag
  obtain ⟨close, hclose, hlexes⟩ := hheld.closeTag
  have hopen := hheld.openTag
  have htag' := Text.slice_of_agree hlaid.slice hsource (by rw [hopen])
    (by rw [hopen]; exact hle.trans hstop) htag
  have hclose' : Text.slice source ⟨content.stop, o.place.span.stop⟩ = some close :=
    Text.slice_of_agree hlaid.slice hsource (hstart.trans hle) (Nat.le_refl _) hclose
  rw [sliceOr, sliceOr, htag', hclose']
  exact ⟨⟨htag, hname ▸ his⟩, hclose, hname ▸ hlexes⟩

variable (hfrom : ∃ text, o.IsFrom text)

include hfrom

theorem wasTag_of_originIn? : n.WasTag (sliceOr source o.place.openTag) := by
  obtain ⟨text, h⟩ := hfrom
  exact ⟨o, origin_of_originIn? ho, (tags_of_isFrom hroot ho htype hcontent h).1.2,
    fun text h => (tags_of_isFrom hroot ho htype hcontent h).1.1⟩

theorem wasCloseTag_of_originIn? :
    n.WasCloseTag (sliceOr source ⟨content.stop, o.place.span.stop⟩) := by
  obtain ⟨text, h⟩ := hfrom
  exact ⟨o, content, origin_of_originIn? ho, hcontent, (tags_of_isFrom hroot ho htype hcontent h).2.2,
    fun text h => (tags_of_isFrom hroot ho htype hcontent h).2.1⟩

end Tags

/-! ## Elements -/

/-- An element's content on new lines: first its own text, and then what is written of its children,
one by one. -/
def OnLines (indent : List Char) (depth : Nat) (n : Node) (write : Node → List Char)
    (body : List Char) : Prop :=
  ∃ rest, body = firstLine indent depth n.text? ++ rest ∧
    InTurn (IsBreak indent) (n.children.map write) rest

/-- How an element is printed: between its tags are its children on new lines. -/
def Prints (indent : List Char) (depth : Nat) (n : Node) (out : List Char) : Prop :=
  ∃ body, out = n.fields.openTag false ++ body ++ n.fields.closeTag ∧
    n.OnLines indent depth (markup indent (depth + 1)) body

/-- How an element is saved. While it keeps its tags, its open tag is printed only if the props have
changed, its close tag stays, and its children are patched; they stand at their places unless its
content has changed. An element that has lost its tags is printed. -/
def Saves (source : List Char) (depth : Nat) (n : Node) (out : List Char) : Prop :=
  if n.keepsTags source then
    ∃ tag body close, out = tag ++ body ++ close ∧
      (if n.propsChanged then tag = n.fields.openTag false else n.WasTag tag) ∧
      n.WasCloseTag close ∧
      if n.childrenChanged || n.textChanged || !inOrder source 0 n.children then
        n.OnLines defaultIndent depth (patched source (depth + 1)) body
      else
        ∃ o content, n.origin = some o ∧ o.place.content = some content ∧
          InPlace source (patched source (depth + 1)) content n.children body
  else n.Prints defaultIndent depth out

theorem onLines_linesOf (n : Node) (write : Node → List Char) (indent : List Char) (depth : Nat) :
    n.OnLines indent depth write (firstLine indent depth n.text?
      ++ linesOf write indent (depth + 1) n.children ++ indentation indent depth) :=
  ⟨_, List.append_assoc _ _ _, inTurn_linesOf write indent (depth + 1) depth n.children (.inl rfl)⟩

section Elements

variable {n : Node} (hroot : n.type ≠ rootType) (hleaf : n.isLeaf = false) (hne : n.children ≠ [])

include hroot hleaf hne

theorem prints_markup (indent : List Char) (depth : Nat) :
    n.Prints indent depth (n.markup indent depth) := by
  refine ⟨_, markup_branch hroot hleaf hne indent depth, ?_⟩
  rw [contentMarkup, lines_eq_linesOf]
  exact onLines_linesOf n (markup indent (depth + 1)) indent depth

theorem saves_of_keepsTags {source : List Char} {o : Origin} {content : Span} (depth : Nat)
    (ho : n.originIn? source = some o) (htype : o.fields.type = n.fields.type)
    (hcontent : o.place.content = some content) (hfrom : ∃ text, o.IsFrom text) :
    n.Saves source depth (n.patched source depth) := by
  have hkeeps : n.keepsTags source = true := by
    rw [keepsTags, ho, Option.any_some, hcontent, htype, beq_self_eq_true]
    rfl
  rw [Saves, hkeeps]
  refine ⟨_, _, _, patched_content ho htype hleaf hcontent depth, ?_,
    wasCloseTag_of_originIn? hroot ho htype hcontent hfrom, ?_⟩
  · cases hprops : n.propsChanged with
    | true => rfl
    | false => exact wasTag_of_originIn? hroot ho htype hcontent hfrom
  · rw [patchedContent, if_neg fun hempty => hne (List.isEmpty_iff.1 hempty)]
    split
    · rw [patchedLines_eq_linesOf]
      exact onLines_linesOf n (patched source (depth + 1)) defaultIndent depth
    · rename_i hsame
      simp only [Bool.or_eq_true, Bool.not_eq_true', not_or, Bool.not_eq_false] at hsame
      exact ⟨o, content, origin_of_originIn? ho, hcontent,
        inPlace_patchedBetween source (depth + 1) n.children content hsame.2⟩

/-- No child is lost when an element is saved, whether it keeps its tags or not. -/
theorem saves_patched (source : List Char) (depth : Nat)
    (horigin : ∀ o, n.origin = some o → ∃ text, o.IsFrom text) :
    n.Saves source depth (n.patched source depth) := by
  have hprinted : n.keepsTags source = false →
      n.patched source depth = n.markup defaultIndent depth →
      n.Saves source depth (n.patched source depth) := by
    intro hkeeps hpatched
    rw [Saves, hkeeps, hpatched]
    exact prints_markup hroot hleaf hne defaultIndent depth
  cases ho : n.originIn? source with
  | none =>
    refine hprinted ?_ (patched_of_originIn?_eq_none ho depth)
    rw [keepsTags, ho]
    rfl
  | some o =>
    by_cases hother : o.fields.type ≠ n.fields.type
    · refine hprinted ?_ (patched_of_type ho hother depth)
      rw [keepsTags, ho, Option.any_some, beq_eq_false_iff_ne.2 hother, Bool.false_and]
    have htype := Decidable.not_not.1 hother
    cases hcontent : o.place.content with
    | none =>
      refine hprinted ?_ ?_
      · rw [keepsTags, ho, Option.any_some, hcontent, Option.isSome_none, Bool.and_false]
      · rw [patched_closed ho htype hleaf hcontent, List.isEmpty_eq_false_iff.2 hne]
        rfl
    | some content =>
      exact saves_of_keepsTags hroot hleaf hne depth ho htype hcontent
        (horigin o (origin_of_originIn? ho))

end Elements

end Node

/-! ## Edited pages -/

namespace Tree

/-- What becomes of a tree by structural edits, one after the other. -/
inductive Edited (t₀ : Tree) : Tree → Prop
  | refl : Edited t₀ t₀
  | apply {t : Tree} (h : Edited t₀ t) (d : Defaults) (c : Command) : Edited t₀ (c.apply d t).2

variable {t₀ t : Tree} {source text : List Char}

theorem Edited.remembers (h : t₀.Edited t) (h₀ : t₀.WellFormed) (hself : t₀.Remembers t₀) :
    t.WellFormed ∧ t₀.Remembers t := by
  induction h with
  | refl => exact ⟨h₀, hself⟩
  | apply _ d c ih => exact ⟨wellFormed_apply ih.1 d c, ih.2.apply ih.1.indexed d c⟩

/-- The offset behind the imports of a text; zero when they cannot be read. -/
def importsEnd (source : List Char) : Nat :=
  match (Cursor.ofText source).prelude with
  | .ok (imports, _) => Import.endOffset imports
  | .error _ => 0

/-- How an edited tree is saved on a text. If the text still has the tree's region, it is kept in front
of the region and behind it, and the top-level nodes stand there at their places, or on lines of their
own if they have changed. Else the tree is printed behind the imports of the text. -/
def Saves (t : Tree) (source out : List Char) : Prop :=
  match t.root.originIn? source with
  | some o =>
    ∃ front body back, out = front ++ body ++ back ∧
      Text.slice source ⟨0, o.place.span.start⟩ = some front ∧
      Text.slice source ⟨o.place.span.stop, Text.byteLength source⟩ = some back ∧
      if t.root.childrenChanged || !Node.inOrder source 0 t.root.children then
        InTurn (IsBreak defaultIndent) (t.root.children.map (Node.patched source 0)) body
      else Node.InPlace source (Node.patched source 0) o.place.span t.root.children body
  | none =>
    ∃ imports body,
      out = imports ++ (if 0 < importsEnd source then ['\n', '\n'] else []) ++ body ++ ['\n'] ∧
      Text.slice source ⟨0, importsEnd source⟩ = some imports ∧
      InTurn (IsBreak defaultIndent) (t.root.children.map (Node.markup defaultIndent 0)) body

theorem exists_slice_importsEnd (source : List Char) :
    ∃ imports, Text.slice source ⟨0, importsEnd source⟩ = some imports := by
  rw [importsEnd]
  cases hprelude : (Cursor.ofText source).prelude with
  | error e => exact ⟨_, Cursor.slice_of_leads (Cursor.Leads.refl _) (Cursor.Leads.refl _)⟩
  | ok read =>
    obtain ⟨imports, c⟩ := read
    obtain ⟨e, he, hend, -⟩ := end_of_prelude hprelude
    simp only [hend]
    exact ⟨_, Cursor.slice_of_leads (Cursor.Leads.refl _) he⟩

theorem printBehindImportsBy_eq (t : Tree) (source : List Char) :
    t.printBehindImportsBy (Text.slice source) source = some (t.printBehindImports source) := by
  obtain ⟨imports, himports⟩ := exists_slice_importsEnd source
  exact congrArg (Option.map _) (agrees_of_slice himports)

theorem saves_printBehindImports (h : t.root.type = rootType)
    (ho : t.root.originIn? source = none) : t.Saves source (t.printBehindImports source) := by
  obtain ⟨imports, himports⟩ := exists_slice_importsEnd source
  have hcut : sliceOr source ⟨0, importsEnd source⟩ = imports := by
    rw [sliceOr, himports]
    rfl
  rw [Saves, ho]
  refine ⟨imports, t.print, ?_, himports, ?_⟩
  · rw [← hcut]
    rfl
  · rw [print, Node.markup_root h]
    exact Node.inTurn_topLines defaultIndent 0 t.root.children

theorem Fits.saves {o : Origin} (h : t.Fits source) (ho : t.root.originIn? source = some o) :
    t.Saves source (t.patched source) := by
  obtain ⟨hfront, hback, -⟩ := h.cuttable.region o ho
  rw [Saves, patched, ho]
  refine ⟨_, _, _, rfl, hfront, hback, ?_⟩
  split
  · exact Node.inTurn_patchedTop source t.root.children (.inl rfl)
  · rename_i hsame
    simp only [Bool.or_eq_true, Bool.not_eq_true', not_or, Bool.not_eq_false] at hsame
    exact Node.inPlace_patchedBetween source 0 t.root.children o.place.span hsame.2

theorem fits_of_originIn? {text key : String} {p : Page} (hread : Page.read text key = .ok p)
    {o : Origin} (ho : p.tree.root.originIn? source = some o) : p.tree.Fits source := by
  obtain ⟨hlaid, place, hfresh, hslice, htiles, -⟩ := tiles_of_read hread
  obtain ⟨imports, -, ms, -, -, rfl⟩ := Page.read_eq_ok hread
  have hroot := isFresh_root text.toList imports ms (.ofKey key)
  cases hfresh.symm.trans hroot
  have hsource := Node.slice_of_originIn? ho
  cases (Node.origin_of_originIn? ho).symm.trans hroot
  have htiles' := htiles.of_agree hslice hsource (Nat.le_refl _) (Nat.le_refl _)
  refine ⟨?_, _, hroot, rfl⟩
  rw [Node.nodes_eq]
  refine List.forall_mem_cons.2 ⟨fits_root hroot hsource htiles', ?_⟩
  refine Node.fits_of_agreeAll _ hlaid fun c hc o hco => ?_
  obtain ⟨place, hclaid⟩ := hlaid c (Node.mem_nodesAll_iff.2 ⟨c, hc, c.mem_nodes_self⟩)
  cases hco.symm.trans hclaid.fresh
  exact htiles.slice_of_agree hslice hsource _ (Nat.le_refl _) (Nat.le_refl _) c hc _ _ hco
    hclaid.slice

/-- What structural edits made of a page is saved on any text without a cut that fails, and the
top-level nodes are in what is saved. -/
theorem saves_of_edited {text key : String} {p : Page} (hread : Page.read text key = .ok p)
    (hedited : p.tree.Edited t) (source : List Char) :
    t.patchedBy (Text.slice source) source = some (t.patched source) ∧
      t.Saves source (t.patched source) := by
  obtain ⟨hwell, hremembers⟩ := hedited.remembers (Page.wellFormed_of_read hread) (fits_of_read hread).2
  cases ho : t.root.originIn? source with
  | none =>
    rw [Tree.patchedBy, Tree.patched, ho]
    exact ⟨printBehindImportsBy_eq t source, saves_printBehindImports hwell.root_type ho⟩
  | some o =>
    have hpage : p.tree.root.originIn? source = some o := by
      rw [Node.originIn?, ← Node.origin_of_mark hremembers.root]
      exact ho
    have hfits := hremembers.fits (fits_of_originIn? hread hpage)
    exact ⟨hfits.cuttable.patchedBy_eq, hfits.saves ho⟩

end Tree

/-! ## All that is saved -/

/-- No child is lost, and none is written twice. An element with children whose place was read is saved
on any text with what is written of its children between its own tags, one by one and with nothing
else between them than breaks or what stood there; so it is where it is printed. What structural edits
made of a page is saved on any text with what is written of its top-level nodes, one by one, and no cut
that this takes fails. -/
theorem no_child_lost :
    (∀ n : Node, n.type ≠ rootType → n.isLeaf = false → n.children ≠ [] →
      (∀ o, n.origin = some o → ∃ text, o.IsFrom text) →
      ∀ source depth, n.Saves source depth (n.patched source depth)) ∧
    (∀ n : Node, n.type ≠ rootType → n.isLeaf = false → n.children ≠ [] →
      ∀ indent depth, n.Prints indent depth (n.markup indent depth)) ∧
    ∀ text key p t, Page.read text key = .ok p → p.tree.Edited t → ∀ source,
      t.patchedBy (Text.slice source) source = some (t.patched source) ∧
        t.Saves source (t.patched source) :=
  ⟨fun _ hroot hleaf hne horigin source depth =>
      Node.saves_patched hroot hleaf hne source depth horigin,
    fun _ hroot hleaf hne => Node.prints_markup hroot hleaf hne,
    fun _ _ _ _ hread hedited => Tree.saves_of_edited hread hedited⟩

theorem no_child_lost_buttonPage :
    ∃ p n, Page.read buttonPage "k" = .ok p ∧ n ∈ p.tree.root.children ∧ n.children.length = 3 ∧
      n.keepsTags buttonPage.toList = true ∧
      n.Saves buttonPage.toList 0 (n.patched buttonPage.toList 0) ∧
      n.Prints defaultIndent 0 (n.markup defaultIndent 0) ∧
      let t := ((Command.duplicate n.id).apply Defaults.standard p.tree).2
      t.root.children.length = 2 ∧
        t.patchedBy (Text.slice buttonPage.toList) buttonPage.toList =
          some (t.patched buttonPage.toList) ∧
        t.Saves buttonPage.toList (t.patched buttonPage.toList) := by
  have hall : (match Page.read buttonPage "k" with
      | .ok p => p.tree.root.children.any fun n => n.children.length == 3 &&
          n.keepsTags buttonPage.toList && n.type != rootType && !n.isLeaf &&
          ((Command.duplicate n.id).apply Defaults.standard p.tree).2.root.children.length == 2
      | .error _ => false) = true := by decide +kernel
  split at hall
  · rename_i p hp
    obtain ⟨n, hn, hnode⟩ := List.any_eq_true.1 hall
    simp only [Bool.and_eq_true, beq_iff_eq, bne_iff_ne, Bool.not_eq_true'] at hnode
    obtain ⟨⟨⟨⟨hthree, hkeeps⟩, hroot⟩, hleaf⟩, htwo⟩ := hnode
    have hne : n.children ≠ [] := by
      intro hnil
      rw [hnil] at hthree
      cases hthree
    have horigin : ∀ o, n.origin = some o → ∃ text, o.IsFrom text := fun o ho =>
      ⟨buttonPage, "k", p, hp, n, Node.nodes_eq p.tree.root ▸ List.mem_cons_of_mem _
        (Node.mem_nodesAll_iff.2 ⟨n, hn, n.mem_nodes_self⟩), ho⟩
    exact ⟨p, n, hp, hn, hthree, hkeeps,
      no_child_lost.1 n hroot hleaf hne horigin buttonPage.toList 0,
      no_child_lost.2.1 n hroot hleaf hne defaultIndent 0, htwo,
      no_child_lost.2.2 buttonPage "k" p _ hp (.apply .refl Defaults.standard (.duplicate n.id))
        buttonPage.toList⟩
  · cases hall

end PageEditor
