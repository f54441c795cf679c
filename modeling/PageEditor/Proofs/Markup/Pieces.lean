import PageEditor.Proofs.Markup.Reading
import PageEditor.Proofs.Markup.Tags

/-!
# Pieces of markup

Texts that the readers of markup pass wherever they stand: tags, whole elements, and pieces of
content, which join to pieces of content. Each piece is described by what the reader does with it,
so a piece that was cut out of a text and one that was printed are treated alike.
-/
set_option autoImplicit false

namespace PageEditor

open Cursor

/-! ## Positions behind a piece -/

theorem Cursor.Leads.eq_advance {c d : Cursor} {m : List Char} (h : c.Leads d)
    (hc : c.rest = m ++ d.rest) : d = c.advance m.length := by
  have hm := upTo_of_append hc
  have hoffset := h.offset
  obtain ⟨o, r⟩ := d
  simp only at hc hoffset
  rw [hm] at hoffset
  subst hoffset
  rw [advance, hc, List.take_left, List.drop_left]

theorem Cursor.advance_zero (c : Cursor) : c.advance 0 = c :=
  ((Leads.refl c).eq_advance (m := []) rfl).symm

theorem Cursor.advance_rest_append {c : Cursor} {m rest : List Char} (hc : c.rest = m ++ rest) :
    (c.advance m.length).rest = rest := by
  rw [advance_rest, hc, List.drop_left]

theorem Cursor.advance_add {c : Cursor} {a b rest : List Char} (hc : c.rest = a ++ (b ++ rest)) :
    (c.advance a.length).advance b.length = c.advance (a ++ b).length := by
  have ha := advance_rest_append hc
  have hb := advance_rest_append ha
  refine ((leads_advance c _).trans (leads_advance _ _)).eq_advance ?_
  rw [hb, List.append_assoc, hc]

theorem Cursor.advance_add_add {c : Cursor} {a b d rest : List Char}
    (hc : c.rest = a ++ (b ++ (d ++ rest))) :
    ((c.advance a.length).advance b.length).advance d.length =
      c.advance (a ++ (b ++ d)).length := by
  have hall : c.rest = a ++ ((b ++ d) ++ rest) := by rw [hc, List.append_assoc]
  rw [advance_add (advance_rest_append hc), advance_add hall]

/-! ## Tags -/

/-- A text that is read as an open tag of that name wherever it stands. -/
structure IsTag (name : String) (closed : Bool) (cs : List Char) : Prop where
  head : ∃ r, cs = '<' :: r
  reads : ∀ (c : Cursor) (rest : List Char), c.rest = cs ++ rest →
    ∃ attributes, c.openTag = .ok (⟨name, attributes, closed⟩, c.advance cs.length)

theorem IsTag.isName {name : String} {closed : Bool} {cs : List Char} (h : IsTag name closed cs) :
    Token.IsName name.toList := by
  obtain ⟨as, h⟩ := h.reads (ofText cs) [] (List.append_nil cs).symm
  exact isName_of_openTag h

/-- A text that is read as this open tag wherever it stands. -/
structure IsOpenTag (tag : OpenTag) (cs : List Char) : Prop where
  head : ∃ r, cs = '<' :: r
  reads : ∀ (c : Cursor) (rest : List Char), c.rest = cs ++ rest →
    c.openTag = .ok (tag, c.advance cs.length)

theorem IsOpenTag.isTag {tag : OpenTag} {cs : List Char} (h : IsOpenTag tag cs) :
    IsTag tag.name tag.closed cs :=
  ⟨h.head, fun c rest hc => ⟨tag.attributes, h.reads c rest hc⟩⟩

/-- A text that is read as a close tag of that name wherever it stands. -/
structure IsCloseTag (name : String) (cs : List Char) : Prop where
  head : ∃ r, cs = '<' :: '/' :: r
  reads : ∀ (c : Cursor) (rest : List Char), c.rest = cs ++ rest →
    c.closeTag name = .ok (c.advance cs.length)

theorem exists_cons_upTo {c d : Cursor} {x : Char} {r : List Char} (hr : c.rest = x :: r)
    (h : c.Leads d) (hlt : d.rest.length < c.rest.length) : ∃ r', c.upTo d = x :: r' := by
  have hrest := h.rest
  cases hup : c.upTo d with
  | nil => exact absurd hup (upTo_ne_nil h hlt)
  | cons y r' =>
    rw [hup, hr] at hrest
    cases hrest
    exact ⟨r', rfl⟩

theorem isOpenTag_of_openTag {c d : Cursor} {tag : OpenTag} {r : List Char}
    (hr : c.rest = '<' :: r) (h : c.openTag = .ok (tag, d)) : IsOpenTag tag (c.upTo d) := by
  have hle := leads_of_openTag h
  refine ⟨exists_cons_upTo hr hle (openTag_length_lt h), ?_⟩
  intro c' rest hc'
  obtain ⟨d', hd', hrest⟩ := openTag_grafted h ⟨hle, hc'⟩
  rw [hd', (leads_of_openTag hd').eq_advance (by rw [hrest]; exact hc')]

theorem isTag_of_openTag {c d : Cursor} {tag : OpenTag} {r : List Char} (hr : c.rest = '<' :: r)
    (h : c.openTag = .ok (tag, d)) : IsTag tag.name tag.closed (c.upTo d) :=
  (isOpenTag_of_openTag hr h).isTag

theorem isCloseTag_of_closeTag {c d : Cursor} {name : String} {r : List Char}
    (hr : c.rest = '<' :: '/' :: r) (h : c.closeTag name = .ok d) :
    IsCloseTag name (c.upTo d) := by
  have hle := leads_of_closeTag h
  refine ⟨?_, ?_⟩
  · obtain ⟨l, n, g, hl, hn, _, hg, rfl⟩ := closeTag_eq_ok.1 h
    have hback := (leads_of_next hn).trans (leads_of_expect hg)
    obtain ⟨hnext, ht⟩ := expect_eq_ok.1 hl
    have hlex := next_eq_ok.1 hnext
    rw [ht] at hlex
    obtain ⟨_, _, blanks, hblanks, hup⟩ := isProper_of_lex hlex (by rintro _ ⟨⟩)
    have hrest := (leads_of_lex hlex).rest
    rw [hup, hr] at hrest
    cases blanks with
    | nil => exact ⟨_, by rw [← (leads_of_lex hlex).upTo_append hback, hup]; rfl⟩
    | cons b blanks =>
      obtain ⟨rfl, _⟩ := List.cons.inj hrest
      exact absurd hblanks (by simp [Token.isSpace])
  · intro c' rest hc'
    obtain ⟨d', hd', hrest⟩ := closeTag_grafted h ⟨hle, hc'⟩
    rw [hd', (leads_of_closeTag hd').eq_advance (by rw [hrest]; exact hc')]

/-! ## Elements -/

/-- A text that is read as an element wherever it stands. -/
structure IsElement (cs : List Char) : Prop where
  head : ∃ r, cs = '<' :: r
  reads : ∀ (c : Cursor) (rest : List Char), c.rest = cs ++ rest →
    ∃ m, ReadsElement c m (c.advance cs.length)

/-- A text that is read as an element with `P` wherever it stands. -/
structure IsElementWith (P : Markup → Prop) (cs : List Char) : Prop where
  head : ∃ r, cs = '<' :: r
  reads : ∀ (c : Cursor) (rest : List Char), c.rest = cs ++ rest →
    ∃ m, ReadsElement c m (c.advance cs.length) ∧ P m

theorem IsTag.isElement {name : String} {cs : List Char} (h : IsTag name true cs) :
    IsElement cs := by
  refine ⟨h.head, ?_⟩
  intro c rest hc
  obtain ⟨as, htag⟩ := h.reads c rest hc
  exact ⟨_, .closed htag rfl⟩

/-! ## Content -/

/-- A text whose characters belong to one run of text. -/
def IsPlain (cs : List Char) : Prop := ∀ x ∈ cs, endsText x = false

/-- A text that can be put in front of what an element holds. -/
def IsContent (cs : List Char) : Prop :=
  ∀ (c : Cursor) (rest : List Char), c.rest = cs ++ rest →
    ∀ (ms : List Markup) (stop : Cursor), Reads (c.advance cs.length) ms stop →
      ∃ ms', Reads c ms' stop

theorem IsContent.append {a b : List Char} (ha : IsContent a) (hb : IsContent b) :
    IsContent (a ++ b) := by
  intro c rest hc ms stop h
  rw [List.append_assoc] at hc
  rw [← advance_add hc] at h
  obtain ⟨ms', h'⟩ := hb _ rest (advance_rest_append hc) ms stop h
  exact ha c _ hc ms' stop h'

/-- Only where a run of text ends matters to what is read behind it. -/
theorem reads_of_skipText_eq {c d stop : Cursor} {ms : List Markup} (hskip : d.skipText = c.skipText)
    (h : Reads d ms stop) : ∃ tail, ms = d.textRuns ++ tail ∧ Reads c (c.textRuns ++ tail) stop := by
  cases h with
  | stop hr =>
    rw [hskip] at hr ⊢
    refine ⟨[], (List.append_nil _).symm, ?_⟩
    rw [List.append_nil]
    exact .stop hr
  | closed hr htag hclosed hmore =>
    rw [hskip] at hr htag
    exact ⟨_, rfl, hskip ▸ .closed hr htag hclosed hmore⟩
  | element hr htag hclosed hheld hclose hmore =>
    rw [hskip] at hr htag
    exact ⟨_, rfl, hskip ▸ .element hr htag hclosed hheld hclose hmore⟩
  | expression hr hbraced hmore =>
    rw [hskip] at hr hbraced
    exact ⟨_, rfl, hskip ▸ .expression hr hbraced hmore⟩

theorem IsPlain.skipText_advance {c : Cursor} {cs rest : List Char} (h : IsPlain cs)
    (hc : c.rest = cs ++ rest) : (c.advance cs.length).skipText = c.skipText := by
  have hd := advance_rest_append hc
  refine ((leads_advance c _).trans (leads_skipText _)).eq_advance ?_
  have hskip := (leads_skipText (c.advance cs.length)).rest
  have hup : (c.advance cs.length).upTo (c.advance cs.length).skipText =
      rest.takeWhile fun x => !endsText x := by
    rw [← hd]
    exact upTo_advance_takeWhile _ _
  have htake : (c.rest.takeWhile fun x => !endsText x) =
      cs ++ rest.takeWhile fun x => !endsText x := by
    rw [hc, List.takeWhile_append_of_pos fun x hx => by simp [h x hx]]
  rw [htake, List.append_assoc, ← hup, hskip, hd, hc]

theorem IsPlain.isContent {cs : List Char} (h : IsPlain cs) : IsContent cs := by
  intro c rest hc ms stop hreads
  obtain ⟨tail, _, hreads'⟩ := reads_of_skipText_eq (h.skipText_advance hc) hreads
  exact ⟨_, hreads'⟩

theorem IsPlain.append {a b : List Char} (ha : IsPlain a) (hb : IsPlain b) : IsPlain (a ++ b) :=
  List.forall_mem_append.2 ⟨ha, hb⟩

theorem isPlain_of_all {cs : List Char} (h : cs.all (fun x => !endsText x) = true) :
    IsPlain cs := by
  intro x hx
  simpa using List.all_eq_true.1 h x hx

theorem isPlain_upTo_skipText (c : Cursor) : IsPlain (c.upTo c.skipText) := by
  have hup : c.upTo c.skipText = c.rest.takeWhile fun x => !endsText x :=
    upTo_advance_takeWhile c _
  rw [hup]
  exact isPlain_of_all List.all_takeWhile

theorem skipText_of_endsText {c : Cursor} {x : Char} {r : List Char} (hc : c.rest = x :: r)
    (hx : endsText x = true) : c.skipText = c := by
  have htake : (c.rest.takeWhile fun x => !endsText x) = [] := by
    rw [hc, List.takeWhile_cons_of_neg (by simp [hx])]
  rw [skipText, htake]
  exact advance_zero c

theorem skipText_of_plain {c : Cursor} {pre rest : List Char} (hpre : IsPlain pre)
    (hrest : ∀ x, rest.head? = some x → endsText x = true) (hc : c.rest = pre ++ rest) :
    c.skipText = c.advance pre.length := by
  have htake : (c.rest.takeWhile fun x => !endsText x) = pre := by
    rw [hc]
    refine Token.takeWhile_append_of_head (List.all_eq_true.2 fun x hx => ?_) fun x hx => ?_
    · rw [hpre x hx]
      rfl
    · rw [hrest x hx]
      rfl
  rw [skipText, htake]

theorem upTo_advance_append {c : Cursor} {pre rest : List Char} (hc : c.rest = pre ++ rest) :
    c.upTo (c.advance pre.length) = pre := by
  refine upTo_of_append ?_
  rw [advance_rest_append hc, hc]

theorem reads_plain {c : Cursor} {pre r : List Char} (hpre : IsPlain pre)
    (hc : c.rest = pre ++ '<' :: '/' :: r) :
    Reads c c.textRuns (c.advance pre.length) ∧ c.upTo c.skipText = pre := by
  have hskip := skipText_of_plain hpre (by rintro _ ⟨⟩; rfl) hc
  have hread : Reads c c.textRuns c.skipText := .stop (by rw [hskip, advance_rest_append hc])
  rw [hskip] at hread ⊢
  exact ⟨hread, upTo_advance_append hc⟩

theorem Cursor.ReadsElement.reads {c after stop : Cursor} {m : Markup} {ms : List Markup}
    {r : List Char} (hr : c.skipText.rest = '<' :: r) (hm : ReadsElement c.skipText m after)
    (hmore : Reads after ms stop) : Reads c (c.textRuns ++ m :: ms) stop := by
  cases hm with
  | closed htag hclosed => exact .closed hr htag hclosed hmore
  | element htag hclosed hheld hclose => exact .element hr htag hclosed hheld hclose hmore

theorem IsElement.isContent {cs : List Char} (h : IsElement cs) : IsContent cs := by
  intro c rest hc ms stop hmore
  obtain ⟨r, hr⟩ := h.head
  obtain ⟨m, hm⟩ := h.reads c rest hc
  rw [hr] at hc
  have hskip : c.skipText = c := skipText_of_endsText hc (by decide)
  have hhead : c.skipText.rest = '<' :: (r ++ rest) := by rw [hskip, hc, List.cons_append]
  have hhere : ReadsElement c.skipText m (c.advance cs.length) := by rwa [hskip]
  exact ⟨_, hhere.reads hhead hmore⟩

theorem IsGroup.isContent {cs : List Char} (h : IsGroup cs) : IsContent cs := by
  intro c rest hc ms stop hmore
  obtain ⟨r, hr⟩ : ∃ r, c.rest = '\x7b' :: r := by
    cases cs with
    | nil => cases h.1
    | cons x r =>
      cases h.1
      exact ⟨_, hc⟩
  have hskip : c.skipText = c := skipText_of_endsText hr (by decide)
  have hbraced : c.skipText.braced = .ok (c.advance cs.length) :=
    hskip.symm ▸ braced_of_isGroup h hc
  exact ⟨_, .expression (hskip.symm ▸ hr) hbraced hmore⟩

theorem readsElement_of_parts {tag : OpenTag} {front body close rest : List Char} {c : Cursor}
    {held : List Markup} (hc : c.rest = front ++ (body ++ (close ++ rest)))
    (hopen : c.openTag = .ok (tag, c.advance front.length)) (hclosed : tag.closed = false)
    (hheld : Reads (c.advance front.length) held
      ((c.advance front.length).advance body.length))
    (hclose : IsCloseTag tag.name close) :
    ∃ place, ReadsElement c (.element place tag.name tag.attributes held)
      (c.advance (front ++ body ++ close).length) := by
  have hinner := advance_rest_append hc
  have hshut := hclose.reads _ rest (advance_rest_append hinner)
  have hwhole : ((c.advance front.length).advance body.length).advance close.length =
      c.advance (front ++ body ++ close).length := by
    rw [advance_add_add hc, List.append_assoc]
  rw [hwhole] at hshut
  exact ⟨_, .element hopen hclosed hheld hshut⟩

section

variable {P : Markup → Prop} {name : String} {as : List Attribute} {tag body close : List Char}

theorem isElementWith_closed (htag : IsOpenTag ⟨name, as, true⟩ tag)
    (h : ∀ place, P (.element place name as [])) : IsElementWith P tag :=
  ⟨htag.head, fun c rest hc => ⟨_, .closed (htag.reads c rest hc) rfl, h _⟩⟩

theorem isElementWith_opened (htag : IsOpenTag ⟨name, as, false⟩ tag)
    (hbody : ∀ (c : Cursor) (r : List Char), c.rest = body ++ '<' :: '/' :: r →
      ∃ ms, Reads c ms (c.advance body.length) ∧ ∀ place, P (.element place name as ms))
    (hclose : IsCloseTag name close) : IsElementWith P (tag ++ body ++ close) := by
  refine ⟨?_, ?_⟩
  · obtain ⟨r, hr⟩ := htag.head
    exact ⟨r ++ body ++ close, by rw [hr]; rfl⟩
  · intro c rest hc
    simp only [List.append_assoc] at hc
    obtain ⟨r, hr⟩ := hclose.head
    have hinner := advance_rest_append hc
    rw [hr] at hinner
    obtain ⟨ms, hread, h⟩ := hbody _ _ hinner
    obtain ⟨place, helement⟩ := readsElement_of_parts hc (htag.reads c _ hc) rfl hread hclose
    exact ⟨_, helement, h place⟩

end

theorem isElement_of_parts {name : String} {tag body close : List Char}
    (htag : IsTag name false tag) (hbody : IsContent body) (hclose : IsCloseTag name close) :
    IsElement (tag ++ body ++ close) := by
  refine ⟨?_, ?_⟩
  · obtain ⟨r, hr⟩ := htag.head
    exact ⟨r ++ body ++ close, by rw [hr]; rfl⟩
  · intro c rest hc
    simp only [List.append_assoc] at hc
    obtain ⟨as, hopen⟩ := htag.reads c _ hc
    have hinner := advance_rest_append hc
    have hstop := advance_rest_append hinner
    obtain ⟨r, hr⟩ := hclose.head
    have hskip : ((c.advance tag.length).advance body.length).skipText =
        (c.advance tag.length).advance body.length := by
      rw [hr] at hstop
      exact skipText_of_endsText hstop (by decide)
    have hend : Reads ((c.advance tag.length).advance body.length)
        ((c.advance tag.length).advance body.length).textRuns
        ((c.advance tag.length).advance body.length) := by
      have hslash : ((c.advance tag.length).advance body.length).skipText.rest =
          '<' :: '/' :: (r ++ rest) := by
        rw [hskip, hstop, hr]
        rfl
      have hreads := Reads.stop hslash
      rwa [hskip] at hreads
    obtain ⟨held, hheld⟩ := hbody _ _ hinner _ _ hend
    obtain ⟨place, helement⟩ := readsElement_of_parts hc hopen rfl hheld hclose
    exact ⟨_, helement⟩

/-! ## Pieces that were read -/

section Read

variable {c inner close after stop : Cursor} {tag : OpenTag} {ms held : List Markup} {r : List Char}

theorem isElement_of_closed (hr : c.rest = '<' :: r) (htag : c.openTag = .ok (tag, after))
    (hclosed : tag.closed = true) : IsElement (c.upTo after) := by
  have his := isTag_of_openTag hr htag
  rw [hclosed] at his
  exact his.isElement

theorem isElement_of_opened (hr : c.rest = '<' :: r) (htag : c.openTag = .ok (tag, inner))
    (hclosed : tag.closed = false) (hheld : Reads inner held close)
    (hbody : IsContent (inner.upTo close)) (hclose : close.closeTag tag.name = .ok after) :
    IsElement (c.upTo after) := by
  have his := isTag_of_openTag hr htag
  rw [hclosed] at his
  have hinner := leads_of_openTag htag
  obtain ⟨r', hr'⟩ := hheld.slash
  rw [← (hinner.trans hheld.leads).upTo_append (leads_of_closeTag hclose),
    ← hinner.upTo_append hheld.leads]
  exact isElement_of_parts his hbody (isCloseTag_of_closeTag hr' hclose)

/-- What was read as content is read as content wherever it stands. -/
theorem Cursor.Reads.isContent (h : Reads c ms stop) : IsContent (c.upTo stop) := by
  induction h with
  | stop => exact (isPlain_upTo_skipText _).isContent
  | @closed c after stop tag ms r hr htag hclosed hmore ih =>
    have hafter := leads_of_openTag htag
    rw [← (leads_skipText c).upTo_append (hafter.trans hmore.leads),
      ← hafter.upTo_append hmore.leads]
    exact (isPlain_upTo_skipText c).isContent.append
      ((isElement_of_closed hr htag hclosed).isContent.append ih)
  | @element c inner close after stop tag held ms r hr htag hclosed hheld hclose hmore ihheld ih =>
    have hafter := (leads_of_openTag htag).trans (hheld.leads.trans (leads_of_closeTag hclose))
    rw [← (leads_skipText c).upTo_append (hafter.trans hmore.leads),
      ← hafter.upTo_append hmore.leads]
    exact (isPlain_upTo_skipText c).isContent.append
      ((isElement_of_opened hr htag hclosed hheld ihheld hclose).isContent.append ih)
  | @expression c after stop ms r hr hbraced hmore ih =>
    have hafter := leads_of_braced hbraced
    rw [← (leads_skipText c).upTo_append (hafter.trans hmore.leads),
      ← hafter.upTo_append hmore.leads]
    exact (isPlain_upTo_skipText c).isContent.append
      ((isGroup_of_braced hr hbraced).isContent.append ih)

theorem Cursor.ReadsElement.isElement {m : Markup} (hr : c.rest = '<' :: r)
    (h : ReadsElement c m after) : IsElement (c.upTo after) := by
  cases h with
  | closed htag hclosed => exact isElement_of_closed hr htag hclosed
  | element htag hclosed hheld hclose =>
    exact isElement_of_opened hr htag hclosed hheld hheld.isContent hclose

end Read

end PageEditor
