import PageEditor.Proofs.Markup.Bounds.Imports
import PageEditor.Proofs.Markup.Bounds.Tags
import PageEditor.Proofs.Markup.Fitting
import PageEditor.Proofs.Markup.Taken

/-!
# Reading pages by offsets

Elements with what they hold, whole pages, and what is cut when a page is written back. The loop over
the content of elements keeps where each open element starts: these places lie behind one another, so
the fragment of an element can still be cut out when its close tag is found.
-/
set_option autoImplicit false

namespace PageEditor

open Cursor

/-! ## Elements -/

namespace Checked

/-- `OpenElement` with offsets for its places. -/
structure OpenElement where
  start : Nat
  tag : OpenTag
  inner : Nat
  held : List Markup

def OpenElement.hold (e : OpenElement) (m : Markup) : OpenElement := { e with held := m :: e.held }

section Elements

variable (source : List Char)

/-- The run of text between two offsets, if it is not blank. -/
def textRun? (pos stop : Nat) : Except Stop (Option Markup) := do
  let raw ← cut source ⟨pos, stop⟩
  let trimmed := Text.trim raw
  if trimmed.isEmpty then return none
  else
    let start := pos + Text.byteLength (Text.leading raw)
    let s : Span := ⟨start, start + Text.byteLength trimmed⟩
    let content ← cut source s
    return some (.text (.solid s (String.ofList content)) (String.ofList content))

/-- The expression between two offsets; its inside is cut out of it. -/
def expression (pos stop : Nat) : Except Stop Markup := do
  let raw ← cut source ⟨pos, stop⟩
  let inner ← cut raw ⟨1, Text.byteLength raw - 1⟩
  return .expression (.solid ⟨pos, stop⟩ (String.ofList raw)) (String.ofList inner)

def closedElement (pos : Nat) (tag : OpenTag) (stop : Nat) : Except Stop Markup := do
  let fragment ← cut source ⟨pos, stop⟩
  return .element (.solid ⟨pos, stop⟩ (String.ofList fragment)) tag.name tag.attributes []

def close (e : OpenElement) (stop after : Nat) : Except Stop Markup := do
  let fragment ← cut source ⟨e.start, after⟩
  return .element ⟨⟨e.start, after⟩, ⟨e.start, e.inner⟩, some ⟨e.inner, stop⟩,
    String.ofList fragment⟩ e.tag.name e.tag.attributes e.held.reverse

def content : Nat → List OpenElement → OpenElement → Nat → Except Stop (Markup × Nat)
  | 0, _, _, _ => throw .exhausted
  | n + 1, outer, top, pos => do
    let c ← seek source pos
    let stop := c.skipText.offset
    let run ← textRun? source pos stop
    let top := match run with
      | some m => top.hold m
      | none => top
    let d ← seek source stop
    match d.rest with
    | [] => throw (.refused (.unexpectedEnd (.closeTag top.tag.name)))
    | '<' :: '/' :: _ =>
      let after ← closeTag source stop top.tag.name
      let m ← close source top stop after
      match outer with
      | [] => return (m, after)
      | next :: outer => content n outer (next.hold m) after
    | '<' :: _ =>
      let (tag, after) ← openTag source stop
      if tag.closed then
        let m ← closedElement source stop tag after
        content n outer (top.hold m) after
      else content n (top :: outer) ⟨stop, tag, after, []⟩ after
    | _ =>
      let after ← braced source stop
      let m ← expression source stop after
      content n outer (top.hold m) after

def element (pos : Nat) : Except Stop (Markup × Nat) := do
  let (tag, after) ← openTag source pos
  if tag.closed then
    let m ← closedElement source pos tag after
    return (m, after)
  else content source (rounds source) [] ⟨pos, tag, after, []⟩ after

def elements : Nat → Bool → Nat → Except Stop (List Markup)
  | 0, _, _ => throw .exhausted
  | n + 1, first, pos => do
    let pos ← skipTrivia source (rounds source) pos
    let c ← seek source pos
    match c.rest with
    | [] => return []
    | '<' :: _ =>
      let (m, after) ← element source pos
      let more ← elements n false after
      return m :: more
    | rest =>
      if first ∨ rest.contains '<' then throw (.refused (.expectedElement ⟨pos, pos + 1⟩))
      else return []

end Elements

/-- The offsets of an open element. -/
def OpenElement.of (e : PageEditor.OpenElement) : OpenElement :=
  ⟨e.start.offset, e.tag, e.inner.offset, e.held⟩

section Elements

variable {source : List Char} {c d : Cursor}

theorem textRun?_of_leads (hc : (ofText source).Leads c) (h : c.Leads d) :
    textRun? source c.offset d.offset = .ok (c.textRun? d) := by
  rw [textRun?, cut_of_leads hc h, ok_bind]
  cases hrun : c.textRun? d with
  | none =>
    rw [Cursor.textRun?] at hrun
    split at hrun
    · rename_i hempty
      rw [if_pos hempty]
      rfl
    · cases hrun
  | some m =>
    obtain ⟨s, e, hcs, hse, -, ⟨-, -, htrim⟩, rfl⟩ := textRun?_eq_some h hrun
    rw [Cursor.textRun?] at hrun
    split at hrun
    · cases hrun
    · rename_i hne
      simp only [Option.some.injEq, Markup.text.injEq, Place.solid, Place.mk.injEq] at hrun
      simp only [hrun.1.1]
      rw [if_neg hne, cut_of_slice (slice_of_leads (hc.trans hcs) hse)]
      rfl

theorem expression_of_leads (hc : (ofText source).Leads c) (h : c.braced = .ok d) {r : List Char}
    (hr : c.rest = '\x7b' :: r) :
    expression source c.offset d.offset = .ok (c.expression d) := by
  obtain ⟨inner, hinner⟩ := (isGroup_of_braced hr h).exists_inside
  rw [expression, cut_of_leads hc (leads_of_braced h), ok_bind, cut_inside hinner, ok_bind,
    Cursor.expression, hinner, List.cons_append, List.tail_cons, List.dropLast_concat]
  rfl

theorem closedElement_of_leads (hc : (ofText source).Leads c) (h : c.Leads d) (tag : OpenTag) :
    closedElement source c.offset tag d.offset = .ok (c.closedElement tag d) := by
  rw [closedElement, cut_of_leads hc h]
  rfl

theorem close_of_leads {e : PageEditor.OpenElement} (hc : (ofText source).Leads e.start)
    (h : e.start.Leads d) (stop : Cursor) :
    close source (.of e) stop.offset d.offset = .ok (e.close stop d) := by
  rw [close, OpenElement.of, cut_of_leads hc h]
  rfl

/-- What the loop keeps: it has come from the beginning of the text to `c`, past the start of every
open element. -/
structure Opened (source : List Char) (outer : List PageEditor.OpenElement)
    (top : PageEditor.OpenElement) (c : Cursor) : Prop where
  here : (ofText source).Leads c
  past : ∀ e ∈ top :: outer, (ofText source).Leads e.start ∧ e.start.Leads c

section Opened

variable {outer : List PageEditor.OpenElement} {top e : PageEditor.OpenElement}

theorem Opened.innermost (h : Opened source outer top c) :
    (ofText source).Leads top.start ∧ top.start.Leads c :=
  h.past top List.mem_cons_self

theorem Opened.next (h : Opened source outer top c) (hd : c.Leads d) (he : e.start = top.start) :
    Opened source outer e d := by
  refine ⟨h.here.trans hd, List.forall_mem_cons.2 ⟨?_, fun x hx => ?_⟩⟩
  · rw [he]
    exact ⟨h.innermost.1, h.innermost.2.trans hd⟩
  · obtain ⟨hx', hxc⟩ := h.past x (List.mem_cons_of_mem _ hx)
    exact ⟨hx', hxc.trans hd⟩

theorem Opened.push (h : Opened source outer top c) (hd : c.Leads d) (tag : OpenTag) :
    Opened source (top :: outer) ⟨c, tag, d, []⟩ d :=
  ⟨h.here.trans hd, List.forall_mem_cons.2 ⟨⟨h.here, hd⟩, (h.next hd rfl).past⟩⟩

theorem Opened.pop (h : Opened source (e :: outer) top c) : Opened source outer e c :=
  ⟨h.here, fun x hx => h.past x (List.mem_cons_of_mem _ hx)⟩

end Opened

theorem follows_content (n : Nat) : ∀ {c : Cursor} {outer : List PageEditor.OpenElement}
    {top : PageEditor.OpenElement}, Opened source outer top c → c.rest.length < n →
    Follows source (fun p => (p.1, p.2.offset)) (c.content outer top)
      (content source n (outer.map .of) (.of top) c.offset) := by
  induction n with
  | zero =>
    intro c _ _ _ hn
    cases hn
  | succ n ih =>
    intro c outer top h hn
    have hskip := c.leads_skipText
    have hle := c.skipText_length_le
    have hd := h.here.trans hskip
    have hopen : Opened source outer (top.holdAll c.textRuns) c.skipText := h.next hskip rfl
    have hheld : (match c.textRun? c.skipText with
        | some m => OpenElement.hold (.of top) m
        | none => .of top) = .of (top.holdAll c.textRuns) := by
      rw [textRuns]
      cases c.textRun? c.skipText <;> rfl
    rw [content, seek_of_leads h.here, ok_bind]
    simp only [textRun?_of_leads h.here hskip, seek_of_leads hd, ok_bind, hheld]
    rcases c.skipText_cases with hr | ⟨r, hr⟩ | ⟨r, hr, hslash⟩ | ⟨r, hr⟩
    · rw [content_nil hr, hr]
      exact .error (inside_of_end _)
    · rw [content_closeTag hr, hr]
      refine (follows_closeTag hd _).bind fun after hclose => ?_
      have hafter := leads_of_closeTag hclose
      have hlt := closeTag_length_lt hclose
      have hnext := hopen.next hafter rfl
      simp only [close_of_leads hopen.innermost.1 hnext.innermost.2, ok_bind]
      cases outer with
      | nil => exact .ok (_, after)
      | cons e outer => exact ih (hnext.pop.next (.refl _) rfl) (by omega)
    · rw [content_openTag hr hslash, hr]
      split
      · rename_i hnil
        cases hnil
      · rename_i hclose
        exact absurd (List.cons.inj hclose).2 (hslash _)
      · refine (follows_openTag hd).bind fun p htag => ?_
        obtain ⟨tag, after⟩ := p
        have hafter := leads_of_openTag htag
        have hlt : after.rest.length < c.skipText.rest.length := openTag_length_lt htag
        refine .ite (fun _ => ?_) fun _ => ih (hopen.push hafter tag) (by simp only; omega)
        rw [closedElement_of_leads hd hafter tag, ok_bind]
        exact ih (hopen.next hafter rfl) (by simp only; omega)
      · rename_i hless
        exact (hless r rfl).elim
    · rw [content_braced hr, hr]
      refine (follows_braced hd).bind fun after hbraced => ?_
      have hafter := leads_of_braced hbraced
      have hlt := braced_length_lt hbraced
      rw [expression_of_leads hd hbraced hr, ok_bind]
      exact ih (hopen.next hafter rfl) (by omega)

theorem follows_element (hc : (ofText source).Leads c) :
    Follows source (fun p => (p.1, p.2.offset)) c.element (element source c.offset) := by
  rw [element, element_eq]
  refine (follows_openTag hc).bind fun p htag => ?_
  obtain ⟨tag, after⟩ := p
  have hafter := leads_of_openTag htag
  refine .ite (fun _ => ?_) fun _ => ?_
  · rw [closedElement_of_leads hc hafter tag]
    exact .ok (_, after)
  · have hopen : Opened source [] ⟨c, tag, after, []⟩ after :=
      ⟨hc.trans hafter, List.forall_mem_singleton.2 ⟨hc, hafter⟩⟩
    exact follows_content _ hopen (lt_rounds hopen.here)

theorem inside_of_rest (hc : (ofText source).Leads c) (hne : c.rest ≠ []) :
    (Span.mk c.offset (c.offset + 1)).Inside source := by
  obtain ⟨x, r, hr⟩ := List.exists_cons_of_ne_nil hne
  obtain ⟨_, _, _, _, hstop⟩ := Text.slice_eq_some.1 (slice_rest hc)
  have hx := x.utf8Size_pos
  rw [hr] at hstop
  simp only [Text.byteLength] at hstop
  exact ⟨Nat.le_succ _, by simp only; omega⟩

theorem follows_elements (n : Nat) : ∀ {c : Cursor} (first : Bool), (ofText source).Leads c →
    c.rest.length < n →
    Follows source id (c.elements first) (elements source n first c.offset) := by
  induction n with
  | zero =>
    intro c _ _ hn
    cases hn
  | succ n ih =>
    intro c first hc hn
    have hd := hc.trans c.leads_skipTrivia
    have hle := c.skipTrivia_length_le
    rw [elements, skipTrivia_of_leads _ hc (lt_rounds hc), ok_bind, seek_of_leads hd, ok_bind]
    split
    · rename_i hr
      rw [elements_of_nil hr]
      exact .ok []
    · rename_i hr
      rw [elements_of_less hr]
      refine (follows_element hd).bind fun p hp => ?_
      obtain ⟨m, after⟩ := p
      have hlt : after.rest.length < c.skipTrivia.rest.length := element_length_lt hp
      exact (ih false (hd.trans (element_eq_ok.1 hp).leads) (by omega)).bind fun more _ => .ok (m :: more)
    · rename_i hnil hless
      obtain ⟨x, r, hr⟩ := List.exists_cons_of_ne_nil hnil
      rw [elements_of_text hr (by rintro rfl; exact hless r hr)]
      refine .ite (fun _ => .error ?_) fun _ => .ok []
      rintro _ ⟨⟩
      exact inside_of_rest hd hnil

end Elements

/-! ## Pages -/

/-- Reads a page; the fragment of its root is cut out, which then has its place in the text. -/
def read (source key : String) : Except Stop Page := do
  let text := source.toList
  let (imports, pos) ← prelude text (rounds text) 0
  let top ← elements text (rounds text) true pos
  let _ ← cut text (Markup.region (Import.endOffset imports) top)
  return .ofParts text imports top (.ofKey key)

def readImports (source : List Char) : Except Stop (List Import) := do
  let (imports, _) ← prelude source (rounds source) 0
  return imports

/-- Puts a block behind the last import, the text being cut in two there. -/
def insertBlock (source : List Char) (imports : List Import) (block : List Char) :
    Except Stop (List Char) :=
  match imports.getLast? with
  | some i => do
    let front ← cut source ⟨0, i.span.stop⟩
    let back ← cut source ⟨i.span.stop, Text.byteLength source⟩
    return front ++ '\n' :: block ++ back
  | none => return block ++ (if source.head? = some '\n' then ['\n'] else ['\n', '\n']) ++ source

/-- Adds the missing imports, unless the present ones are refused. -/
def syncImports (t : Tree) (source : List Char) : Except Stop (List Char) :=
  match readImports source with
  | .error (.refused _) => return source
  | .error e => throw e
  | .ok imports =>
    let missing := t.missing imports
    if missing.isEmpty then return source
    else insertBlock source imports (String.intercalate "\n" (Needed.lines missing)).toList

def regenerate (t : Tree) (source : String) : Except Stop String := do
  let some patched := t.patchedBy (Text.slice source.toList) source.toList | throw .outside
  let text ← syncImports t patched
  return String.ofList text

section Pages

variable {source : List Char} {imports : List Import} {c : Cursor}

theorem follows_readImports (source : List Char) :
    Follows source id ((ofText source).prelude.map (·.1)) (readImports source) := by
  have hstart := Leads.refl (ofText source)
  have heq : (ofText source).prelude.map (·.1) = (ofText source).prelude >>= fun p => .ok p.1 := by
    cases (ofText source).prelude <;> rfl
  rw [heq, readImports]
  exact (follows_prelude _ hstart (lt_rounds hstart)).bind fun p _ => .ok p.1

theorem insertBlock_of_prelude (h : (ofText source).prelude = .ok (imports, c))
    (block : List Char) :
    insertBlock source imports block = .ok (Import.insertBlock source imports block) := by
  obtain ⟨e, he, -⟩ := readsImports_of_prelude h
  rw [insertBlock, Import.insertBlock]
  cases hlast : imports.getLast? with
  | none => rfl
  | some i =>
    have hfront : cut source ⟨0, e.offset⟩ = .ok ((ofText source).upTo e) :=
      cut_of_leads (Leads.refl _) he.leads
    have hlength : Text.byteLength ((ofText source).upTo e) = e.offset := by
      have hoffset := he.leads.offset
      rwa [ofText, Nat.zero_add] at hoffset
    have hsplit : Text.splitBytes e.offset source = some ((ofText source).upTo e, e.rest) :=
      Text.splitBytes_eq_some.2 ⟨(upTo_ofText_append_rest he.leads).symm, hlength⟩
    simp only [he.stop i hlast, hfront, cut_of_slice (slice_rest he.leads), hsplit, ok_bind]
    rfl

theorem syncImports_eq (t : Tree) (source : List Char) :
    syncImports t source = .ok (t.syncImports source) := by
  rw [syncImports, (follows_readImports source).same, Tree.syncImports]
  cases hprelude : (ofText source).prelude with
  | error e => rfl
  | ok p =>
    obtain ⟨imports, c⟩ := p
    simp only [Except.map, Except.mapError, id_eq]
    split
    · rfl
    · exact insertBlock_of_prelude hprelude _

theorem regenerate_of_fits {t : Tree} {source : String} (h : t.Fits source.toList) :
    regenerate t source = .ok (t.regenerate source) := by
  rw [regenerate, h.cuttable.patchedBy_eq]
  simp only [syncImports_eq, ok_bind]
  rfl

theorem follows_read (source key : String) :
    Follows source.toList id (Page.read source key) (read source key) := by
  have hstart := Leads.refl (ofText source.toList)
  rw [read, Page.read]
  refine (follows_prelude _ hstart (lt_rounds hstart)).bind fun p hprelude => ?_
  obtain ⟨imports, c⟩ := p
  have hc := hstart.trans (leads_of_prelude hprelude)
  refine (follows_elements _ true hc (lt_rounds hc)).bind fun top htop => ?_
  obtain ⟨s, e, hs, hse, hregion, -⟩ := region_of_read hprelude htop
  simp only [id_eq]
  rw [hregion, cut_of_slice (slice_of_leads hs hse)]
  exact .ok _

end Pages

end Checked

/-! ## In bounds -/

/-- Reading a page, reading its imports and writing it back as it was read take no cut that leaves
the text or splits a character, and no loop takes more rounds than the text has characters and one
more. Where an error has a place, the place is in the text. -/
theorem reads_in_bounds (source key : String) :
    Checked.read source key = (Page.read source key).mapError .refused ∧
    Checked.readImports source.toList = (Import.readAll source).mapError .refused ∧
    (∀ e, Page.read source key = .error e ∨ Import.readAll source = .error e →
      e.Inside source.toList) ∧
    ∀ p, Page.read source key = .ok p →
      (∀ n ∈ p.tree.root.nodes, ∀ o, n.origin = some o →
        Checked.cut source.toList o.place.span = .ok o.place.fragment.toList) ∧
      Checked.regenerate p.tree source = .ok (p.tree.regenerate source) := by
  have hread := Checked.follows_read source key
  have himports := Checked.follows_readImports source.toList
  refine ⟨?_, ?_, ?_, ?_⟩
  · have hsame := hread.same
    rwa [Except.map_id] at hsame
  · have hsame := himports.same
    rwa [Except.map_id] at hsame
  · rintro e (h | h)
    · exact hread.inside e h
    · exact himports.inside e h
  · intro p hp
    have hfits := (fits_of_read hp).1
    exact ⟨fun n hn o ho => Checked.cut_of_slice ((hfits.nodes n hn).fragment o ho),
      Checked.regenerate_of_fits hfits⟩

/-- A page with characters of two bytes in a comment, an attribute, a style, a text and an
expression, and behind its element. -/
def umlautPage : String :=
  "// é\n<p title=\"ü\" style=\x7b\x7b color: 'ä' \x7d\x7d>\n  \u00a0größe \x7bé\x7d\n</p>\nfür\n"

/-- The page is read and written back within its bounds. With another close tag it is refused, at the
name of this tag, which stands behind a character of two bytes. -/
theorem reads_in_bounds_umlautPage :
    (∃ p, Page.read umlautPage "k" = .ok p ∧
      Checked.read umlautPage "k" = .ok p ∧
      Checked.regenerate p.tree umlautPage = .ok (p.tree.regenerate umlautPage)) ∧
    ∃ e, Page.read "<p>é</q>" "k" = .error e ∧ e.span? = some ⟨7, 8⟩ ∧
      e.Inside "<p>é</q>".toList := by
  have hok : (Page.read umlautPage "k").isOk = true := by decide +kernel
  have hrefused : (Page.read "<p>é</q>" "k").map (fun _ => ()) =
      .error (.mismatchedTag ⟨7, 8⟩ "p" "q") := by decide +kernel
  refine ⟨?_, ?_⟩
  · cases hp : Page.read umlautPage "k" with
    | error e =>
      rw [hp] at hok
      cases hok
    | ok p =>
      obtain ⟨hread, -, -, hwrite⟩ := reads_in_bounds umlautPage "k"
      refine ⟨p, rfl, ?_, (hwrite p hp).2⟩
      rw [hread, hp]
      rfl
  · cases he : Page.read "<p>é</q>" "k" with
    | error e =>
      rw [he] at hrefused
      cases hrefused
      exact ⟨_, rfl, rfl, (reads_in_bounds "<p>é</q>" "k").2.2.1 _ (.inl he)⟩
    | ok p =>
      rw [he] at hrefused
      cases hrefused

end PageEditor
