import PageEditor.Proofs.Markup.Progress

/-!
# Readings

What the loop over the content of elements reads, as a tree of readings in place of a stack of open
elements. `Reads c ms stop` says that behind `c` the pieces `ms` stand up to a close tag at `stop`;
each constructor is one way in which the loop goes on. The loop finds exactly these readings.
-/
set_option autoImplicit false

namespace PageEditor

namespace OpenElement

/-- Holds some more pieces, the first one first. -/
def holdAll (e : OpenElement) (ms : List Markup) : OpenElement :=
  { e with held := ms.reverse ++ e.held }

theorem holdAll_hold (e : OpenElement) (ms : List Markup) (m : Markup) :
    (e.holdAll ms).hold m = e.holdAll (ms ++ [m]) := by
  simp [holdAll, hold]

theorem holdAll_holdAll (e : OpenElement) (ms ns : List Markup) :
    (e.holdAll ms).holdAll ns = e.holdAll (ms ++ ns) := by
  simp [holdAll]

end OpenElement

namespace Cursor

/-! ## The relation -/

/-- The element whose open tag runs from here to `inner`, whose content ends at `stop` and whose
close tag ends at `after`. -/
def openedElement (c : Cursor) (tag : OpenTag) (inner stop after : Cursor) (held : List Markup) :
    Markup :=
  .element ⟨c.span after, c.span inner, some (inner.span stop), String.ofList (c.upTo after)⟩
    tag.name tag.attributes held

/-- The run of text in front of the next tag or brace, as a list of at most one piece. -/
def textRuns (c : Cursor) : List Markup := (c.textRun? c.skipText).toList

inductive Reads : Cursor → List Markup → Cursor → Prop
  | stop {c : Cursor} {r : List Char} (hr : c.skipText.rest = '<' :: '/' :: r) :
      Reads c c.textRuns c.skipText
  | closed {c after stop : Cursor} {tag : OpenTag} {ms : List Markup} {r : List Char}
      (hr : c.skipText.rest = '<' :: r)
      (htag : c.skipText.openTag = .ok (tag, after)) (hclosed : tag.closed = true)
      (hmore : Reads after ms stop) :
      Reads c (c.textRuns ++ c.skipText.closedElement tag after :: ms) stop
  | element {c inner close after stop : Cursor} {tag : OpenTag} {held ms : List Markup}
      {r : List Char} (hr : c.skipText.rest = '<' :: r)
      (htag : c.skipText.openTag = .ok (tag, inner)) (hclosed : tag.closed = false)
      (hheld : Reads inner held close) (hclose : close.closeTag tag.name = .ok after)
      (hmore : Reads after ms stop) :
      Reads c (c.textRuns ++ c.skipText.openedElement tag inner close after held :: ms) stop
  | expression {c after stop : Cursor} {ms : List Markup} {r : List Char}
      (hr : c.skipText.rest = '\x7b' :: r) (hbraced : c.skipText.braced = .ok after)
      (hmore : Reads after ms stop) :
      Reads c (c.textRuns ++ c.skipText.expression after :: ms) stop

/-- The element `m` stands from here to `after`. -/
inductive ReadsElement (c : Cursor) : Markup → Cursor → Prop
  | closed {after : Cursor} {tag : OpenTag} (htag : c.openTag = .ok (tag, after))
      (hclosed : tag.closed = true) : ReadsElement c (c.closedElement tag after) after
  | element {inner close after : Cursor} {tag : OpenTag} {held : List Markup}
      (htag : c.openTag = .ok (tag, inner)) (hclosed : tag.closed = false)
      (hheld : Reads inner held close) (hclose : close.closeTag tag.name = .ok after) :
      ReadsElement c (c.openedElement tag inner close after held) after

/-! ## Steps of the loop -/

theorem head?_skipText (c : Cursor) (x : Char) (h : c.skipText.rest.head? = some x) :
    x = '<' ∨ x = '\x7b' := by
  have hx := List.head?_dropWhile_not (fun y => !endsText y) c.rest
  have hd : c.skipText.rest = c.rest.dropWhile fun y => !endsText y :=
    advance_takeWhile_rest c _
  rw [← hd, h] at hx
  simp only [endsText, Bool.not_eq_false', Bool.or_eq_true, beq_iff_eq] at hx
  exact hx

theorem openTag_ne_ok_of_slash {c after : Cursor} {tag : OpenTag} {r : List Char}
    (hr : c.rest = '<' :: '/' :: r) : c.openTag ≠ .ok (tag, after) := by
  intro h
  obtain ⟨l, _, hl, _⟩ := openTag_eq_ok.1 h
  obtain ⟨hl, ht⟩ := expect_eq_ok.1 hl
  have hlex := next_eq_ok.1 hl
  rw [ht] at hlex
  simp [lex, skipSpace, hr, advance, Token.isSpace, Token.scan] at hlex

/-- Goes on behind the closed element `m`. -/
def resume (outer : List OpenElement) (m : Markup) (after : Cursor) :
    Except ParseError (Markup × Cursor) :=
  match outer with
  | [] => .ok (m, after)
  | next :: outer => after.content outer (next.hold m)

variable {outer : List OpenElement} {top : OpenElement} {c after : Cursor} {tag : OpenTag}

/-- What a run of text ends at: the end of the text, a close tag, an open tag, or a brace. -/
theorem skipText_cases (c : Cursor) :
    c.skipText.rest = [] ∨ (∃ r, c.skipText.rest = '<' :: '/' :: r) ∨
    (∃ r, c.skipText.rest = '<' :: r ∧ ∀ s, r ≠ '/' :: s) ∨ ∃ r, c.skipText.rest = '\x7b' :: r := by
  cases hr : c.skipText.rest with
  | nil => exact .inl rfl
  | cons x r =>
    rcases head?_skipText c x (by rw [hr]; rfl) with rfl | rfl
    · by_cases hslash : ∃ s, r = '/' :: s
      · obtain ⟨s, rfl⟩ := hslash
        exact .inr (.inl ⟨s, rfl⟩)
      · exact .inr (.inr (.inl ⟨r, rfl, fun s hs => hslash ⟨s, hs⟩⟩))
    · exact .inr (.inr (.inr ⟨r, rfl⟩))

theorem content_nil (hr : c.skipText.rest = []) :
    c.content outer top = .error (.unexpectedEnd (.closeTag top.tag.name)) := by
  rw [content]
  cases c.textRun? c.skipText with
  | none => simp only [hr]
  | some m =>
    simp only [hr]
    rfl

theorem content_closeTag {r : List Char} (hr : c.skipText.rest = '<' :: '/' :: r) :
    c.content outer top = c.skipText.closeTag top.tag.name >>= fun after =>
      resume outer ((top.holdAll c.textRuns).close c.skipText after) after := by
  rw [content, textRuns]
  cases c.textRun? c.skipText
  all_goals
    simp only [hr]
    split
    · rename_i h
      rw [show c.skipText.closeTag top.tag.name = _ from h]
      rfl
    · rename_i h
      rw [show c.skipText.closeTag top.tag.name = _ from h]
      cases outer <;> rfl

theorem content_openTag {r : List Char} (hr : c.skipText.rest = '<' :: r)
    (hslash : ∀ s, r ≠ '/' :: s) :
    c.content outer top = c.skipText.openTag >>= fun p =>
      if p.1.closed then
        p.2.content outer ((top.holdAll c.textRuns).hold (c.skipText.closedElement p.1 p.2))
      else p.2.content (top.holdAll c.textRuns :: outer) ⟨c.skipText, p.1, p.2, []⟩ := by
  rw [content, textRuns]
  cases c.textRun? c.skipText
  all_goals
    split
    · simp_all
    · rename_i hclose
      exact absurd (List.cons.inj (hr.symm.trans hclose)).2 (hslash _)
    · split
      · rename_i h
        rw [h]
        rfl
      · rename_i h
        rw [h]
        rfl
    · rename_i hlt
      exact (hlt r hr).elim

theorem content_braced {r : List Char} (hr : c.skipText.rest = '\x7b' :: r) :
    c.content outer top = c.skipText.braced >>= fun after =>
      after.content outer ((top.holdAll c.textRuns).hold (c.skipText.expression after)) := by
  rw [content, textRuns]
  cases c.textRun? c.skipText
  all_goals
    split
    · simp_all
    · simp_all
    · simp_all
    · split
      · rename_i h
        rw [h]
        rfl
      · rename_i h
        rw [h]
        rfl

theorem content_stop {r : List Char} (hr : c.skipText.rest = '<' :: '/' :: r)
    (hclose : c.skipText.closeTag top.tag.name = .ok after) :
    c.content outer top =
      resume outer ((top.holdAll c.textRuns).close c.skipText after) after := by
  rw [content_closeTag hr, hclose]
  rfl

theorem slash_of_openTag {r : List Char} (hr : c.rest = '<' :: r)
    (htag : c.openTag = .ok (tag, after)) : ∀ s, r ≠ '/' :: s := by
  rintro s rfl
  exact openTag_ne_ok_of_slash hr htag

theorem content_closed {r : List Char} (hr : c.skipText.rest = '<' :: r)
    (htag : c.skipText.openTag = .ok (tag, after)) (hclosed : tag.closed = true) :
    c.content outer top =
      after.content outer ((top.holdAll c.textRuns).hold (c.skipText.closedElement tag after)) := by
  rw [content_openTag hr (slash_of_openTag hr htag), htag]
  exact if_pos hclosed

theorem content_open {r : List Char} (hr : c.skipText.rest = '<' :: r)
    (htag : c.skipText.openTag = .ok (tag, after)) (hclosed : tag.closed = false) :
    c.content outer top =
      after.content (top.holdAll c.textRuns :: outer) ⟨c.skipText, tag, after, []⟩ := by
  rw [content_openTag hr (slash_of_openTag hr htag), htag]
  exact if_neg (by simp [hclosed])

theorem content_expression {r : List Char} (hr : c.skipText.rest = '\x7b' :: r)
    (hbraced : c.skipText.braced = .ok after) :
    c.content outer top =
      after.content outer ((top.holdAll c.textRuns).hold (c.skipText.expression after)) := by
  rw [content_braced hr, hbraced]
  rfl

/-- The loop goes on in one of four ways. -/
theorem content_step {p : Markup × Cursor} (h : c.content outer top = .ok p) :
    (∃ r after, c.skipText.rest = '<' :: '/' :: r ∧
      c.skipText.closeTag top.tag.name = .ok after) ∨
    (∃ r tag after, c.skipText.rest = '<' :: r ∧ c.skipText.openTag = .ok (tag, after)) ∨
    (∃ r after, c.skipText.rest = '\x7b' :: r ∧ c.skipText.braced = .ok after) := by
  rcases c.skipText_cases with hr | ⟨r, hr⟩ | ⟨r, hr, hslash⟩ | ⟨r, hr⟩
  · rw [content_nil hr] at h
    cases h
  · rw [content_closeTag hr] at h
    obtain ⟨after, hclose, -⟩ := bind_eq_ok.1 h
    exact .inl ⟨r, after, hr, hclose⟩
  · rw [content_openTag hr hslash] at h
    obtain ⟨⟨tag, after⟩, htag, -⟩ := bind_eq_ok.1 h
    exact .inr (.inl ⟨r, tag, after, hr, htag⟩)
  · rw [content_braced hr] at h
    obtain ⟨after, hbraced, -⟩ := bind_eq_ok.1 h
    exact .inr (.inr ⟨r, after, hr, hbraced⟩)

/-! ## The loop and the relation -/

theorem content_of_reads {ms : List Markup} {stop : Cursor} (h : Reads c ms stop) :
    ∀ (outer : List OpenElement) (top : OpenElement) (after : Cursor),
      stop.closeTag top.tag.name = .ok after →
      c.content outer top = resume outer ((top.holdAll ms).close stop after) after := by
  induction h with
  | stop hr =>
    intro outer top after hclose
    exact content_stop hr hclose
  | closed hr htag hclosed _ ih =>
    intro outer top after hclose
    rw [content_closed hr htag hclosed, OpenElement.holdAll_hold,
      ih outer (top.holdAll _) after hclose, OpenElement.holdAll_holdAll, List.append_assoc,
      List.singleton_append]
  | @element c inner close after' stop tag held ms r hr htag hclosed _ hclose' _ ihheld ihmore =>
    intro outer top after hclose
    rw [content_open hr htag hclosed,
      ihheld (top.holdAll c.textRuns :: outer) ⟨c.skipText, tag, inner, []⟩ after' hclose', resume]
    have he : (OpenElement.holdAll ⟨c.skipText, tag, inner, []⟩ held).close close after'
        = c.skipText.openedElement tag inner close after' held := by
      simp [OpenElement.holdAll, OpenElement.close, openedElement]
    rw [he, OpenElement.holdAll_hold, ihmore outer (top.holdAll _) after hclose,
      OpenElement.holdAll_holdAll, List.append_assoc, List.singleton_append]
  | expression hr hbraced _ ih =>
    intro outer top after hclose
    rw [content_expression hr hbraced, OpenElement.holdAll_hold,
      ih outer (top.holdAll _) after hclose, OpenElement.holdAll_holdAll, List.append_assoc,
      List.singleton_append]

/-- By induction on the text that is left: what follows an inner element is shorter than what
follows its open tag. -/
theorem reads_of_content (n : Nat) : ∀ (c : Cursor) (outer : List OpenElement)
    (top : OpenElement) (p : Markup × Cursor), c.rest.length ≤ n → c.content outer top = .ok p →
    ∃ ms stop after, Reads c ms stop ∧ stop.closeTag top.tag.name = .ok after ∧
      after.rest.length < c.rest.length ∧
      resume outer ((top.holdAll ms).close stop after) after = .ok p := by
  induction n with
  | zero =>
    intro c outer top p hn h
    have := content_length_lt h
    omega
  | succ n ih =>
    intro c outer top p hn h
    have hskip := c.skipText_length_le
    rcases content_step h with ⟨r, after, hr, hclose⟩ | ⟨r, tag, after, hr, htag⟩ | ⟨r, after, hr, hb⟩
    · refine ⟨_, _, after, .stop hr, hclose, ?_, ?_⟩
      · exact Nat.lt_of_lt_of_le (closeTag_length_lt hclose) hskip
      · rw [← h, content_stop hr hclose]
    · have hlt := openTag_length_lt htag
      simp only at hlt
      cases hclosed : tag.closed with
      | true =>
        rw [content_closed hr htag hclosed] at h
        obtain ⟨ms, stop, last, hreads, hclose, hl, hres⟩ := ih _ _ _ _ (by omega) h
        refine ⟨_, stop, last, .closed hr htag hclosed hreads, hclose, by omega, ?_⟩
        rw [OpenElement.holdAll_hold, OpenElement.holdAll_holdAll, List.append_assoc] at hres
        exact hres
      | false =>
        rw [content_open hr htag hclosed] at h
        obtain ⟨held, close, last, hheld, hclose, hl, hres⟩ := ih _ _ _ _ (by omega) h
        rw [resume] at hres
        have he : (OpenElement.holdAll ⟨c.skipText, tag, after, []⟩ held).close close last
            = c.skipText.openedElement tag after close last held := by
          simp [OpenElement.holdAll, OpenElement.close, openedElement]
        rw [he] at hres
        obtain ⟨ms, stop, last', hreads, hclose', hl', hres'⟩ := ih _ _ _ _ (by omega) hres
        refine ⟨_, stop, last', .element hr htag hclosed hheld hclose hreads, hclose', by omega, ?_⟩
        rw [OpenElement.holdAll_hold, OpenElement.holdAll_holdAll, List.append_assoc] at hres'
        exact hres'
    · have hlt := braced_length_lt hb
      rw [content_expression hr hb] at h
      obtain ⟨ms, stop, last, hreads, hclose, hl, hres⟩ := ih _ _ _ _ (by omega) h
      refine ⟨_, stop, last, .expression hr hb hreads, hclose, by omega, ?_⟩
      rw [OpenElement.holdAll_hold, OpenElement.holdAll_holdAll, List.append_assoc] at hres
      exact hres

theorem element_eq (c : Cursor) : c.element = (do
    let (tag, after) ← c.openTag
    if tag.closed then return (c.closedElement tag after, after)
    else after.content [] ⟨c, tag, after, []⟩) := by
  rw [element]
  cases c.openTag <;> rfl

theorem element_eq_ok {m : Markup} : c.element = .ok (m, after) ↔ ReadsElement c m after := by
  rw [element_eq, bind_eq_ok]
  constructor
  · rintro ⟨⟨tag, inner⟩, htag, h⟩
    simp only at h
    split at h
    · cases h
      exact .closed htag ‹_›
    · rename_i hclosed
      obtain ⟨held, close, last, hheld, hclose, _, hres⟩ := reads_of_content _ _ _ _ _ (Nat.le_refl _) h
      cases hres
      have he := ReadsElement.element htag (by simpa using hclosed) hheld hclose
      simpa [OpenElement.holdAll, OpenElement.close, openedElement] using he
  · intro h
    cases h with
    | closed htag hclosed => exact ⟨_, htag, if_pos hclosed⟩
    | element htag hclosed hheld hclose =>
      refine ⟨_, htag, ?_⟩
      simp only [hclosed]
      rw [if_neg (by simp), content_of_reads hheld _ _ _ hclose]
      simp [resume, OpenElement.holdAll, OpenElement.close, openedElement]

/-! ## Readings move forward -/

theorem Reads.leads {ms : List Markup} {stop : Cursor} (h : Reads c ms stop) : c.Leads stop := by
  induction h with
  | stop => exact leads_skipText _
  | closed _ htag _ _ ih => exact (leads_skipText _).trans ((leads_of_openTag htag).trans ih)
  | element _ htag _ _ hclose _ ihheld ihmore =>
    exact (leads_skipText _).trans ((leads_of_openTag htag).trans
      (ihheld.trans ((leads_of_closeTag hclose).trans ihmore)))
  | expression _ hb _ ih => exact (leads_skipText _).trans ((leads_of_braced hb).trans ih)

theorem ReadsElement.leads {m : Markup} (h : ReadsElement c m after) : c.Leads after := by
  cases h with
  | closed htag => exact leads_of_openTag htag
  | element htag _ hheld hclose =>
    exact (leads_of_openTag htag).trans (hheld.leads.trans (leads_of_closeTag hclose))

theorem Reads.slash {ms : List Markup} {stop : Cursor} (h : Reads c ms stop) :
    ∃ r, stop.rest = '<' :: '/' :: r := by
  induction h with
  | stop hr => exact ⟨_, hr⟩
  | closed _ _ _ _ ih => exact ih
  | element _ _ _ _ _ _ _ ih => exact ih
  | expression _ _ _ ih => exact ih

end Cursor

end PageEditor
