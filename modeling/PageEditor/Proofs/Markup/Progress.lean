import PageEditor.Proofs.Text.Cuts

/-!
# Readers move forward

Every reader of markup stops at a position that its start leads to, so nothing is skipped and nothing
is read twice. The span of an import statement runs between two such positions.
-/
set_option autoImplicit false

namespace PageEditor

/-! ## Successful steps -/

theorem ok_bind {ε α β : Type} (a : α) (k : α → Except ε β) : (Except.ok a >>= k) = k a := rfl

theorem bind_eq_ok {ε α β : Type} {x : Except ε α} {f : α → Except ε β} {b : β} :
    (x >>= f) = .ok b ↔ ∃ a, x = .ok a ∧ f a = .ok b := by
  cases x with
  | error e => simp [bind, Except.bind]
  | ok a => simp [bind, Except.bind]

namespace Cursor

/-! ## Tokens -/

theorem leads_skipSpace (c : Cursor) : c.Leads c.skipSpace :=
  leads_advance c _

theorem leads_of_lex {c d : Cursor} {t : Token} {s : Span} (h : c.lex = .token t s d) :
    c.Leads d := by
  simp only [lex] at h
  split at h
  · cases h
  · split at h
    · cases h
      exact c.leads_skipSpace.trans (leads_advance _ _)
    · cases h

theorem next_eq_ok {c : Cursor} {e : Expectation} {l : Lexeme} :
    c.next e = .ok l ↔ c.lex = .token l.token l.span l.next := by
  simp only [next]
  constructor
  · intro h
    split at h
    · rename_i hl
      cases h
      exact hl
    · cases h
    · cases h
  · intro h
    rw [h]

theorem peek?_eq_some {c : Cursor} {l : Lexeme} :
    c.peek? = some l ↔ c.lex = .token l.token l.span l.next := by
  simp only [peek?]
  constructor
  · intro h
    split at h
    · rename_i hl
      cases h
      exact hl
    · cases h
  · intro h
    rw [h]

theorem leads_of_next {c : Cursor} {e : Expectation} {l : Lexeme} (h : c.next e = .ok l) :
    c.Leads l.next :=
  leads_of_lex (next_eq_ok.1 h)

theorem leads_of_peek? {c : Cursor} {l : Lexeme} (h : c.peek? = some l) : c.Leads l.next :=
  leads_of_lex (peek?_eq_some.1 h)

theorem leads_skip (c : Cursor) (t : Token) : c.Leads (c.skip t) := by
  simp only [skip]
  split
  · rename_i l hl
    split
    · exact leads_of_peek? hl
    · exact Leads.refl c
  · exact Leads.refl c

theorem expect_eq_ok {c : Cursor} {t : Token} {e : Expectation} {l : Lexeme} :
    c.expect t e = .ok l ↔ c.next e = .ok l ∧ l.token = t := by
  rw [expect, bind_eq_ok]
  constructor
  · rintro ⟨l', hl, h⟩
    split at h
    · cases h
      exact ⟨hl, ‹_›⟩
    · cases h
  · rintro ⟨hl, ht⟩
    exact ⟨l, hl, if_pos ht⟩

theorem ident_eq_ok {c d : Cursor} {e : Expectation} {name : String} :
    c.ident e = .ok (name, d) ↔ ∃ l, c.next e = .ok l ∧ l.token = .ident name ∧ l.next = d := by
  rw [ident, bind_eq_ok]
  constructor
  · rintro ⟨l, hl, h⟩
    split at h
    · rename_i n hn
      cases h
      exact ⟨l, hl, hn, rfl⟩
    · cases h
  · rintro ⟨l, hl, ht, rfl⟩
    refine ⟨l, hl, ?_⟩
    rw [ht]
    rfl

theorem keyword_eq_ok {c d : Cursor} {word : String} :
    c.keyword word = .ok d ↔
      ∃ l, c.expect (.ident word) (.keyword word) = .ok l ∧ l.next = d := by
  rw [keyword, bind_eq_ok]
  constructor
  · rintro ⟨l, hl, h⟩
    cases h
    exact ⟨l, hl, rfl⟩
  · rintro ⟨l, hl, rfl⟩
    exact ⟨l, hl, rfl⟩

theorem leads_of_expect {c : Cursor} {t : Token} {e : Expectation} {l : Lexeme}
    (h : c.expect t e = .ok l) : c.Leads l.next :=
  leads_of_next (expect_eq_ok.1 h).1

theorem leads_of_ident {c d : Cursor} {e : Expectation} {name : String}
    (h : c.ident e = .ok (name, d)) : c.Leads d := by
  obtain ⟨l, hl, _, rfl⟩ := ident_eq_ok.1 h
  exact leads_of_next hl

theorem leads_of_keyword {c d : Cursor} {word : String} (h : c.keyword word = .ok d) :
    c.Leads d := by
  obtain ⟨l, hl, rfl⟩ := keyword_eq_ok.1 h
  exact leads_of_expect hl

/-! ## Tags -/

theorem leads_of_braced {c d : Cursor} (h : c.braced = .ok d) : c.Leads d := by
  simp only [braced] at h
  split at h
  · cases h
    exact leads_advance c _
  · cases h

theorem leads_of_attributeValue {c d : Cursor} {v : AttributeValue}
    (h : c.attributeValue = .ok (v, d)) : c.Leads d := by
  simp only [attributeValue] at h
  split at h
  · cases h
  · rename_i l hl
    split at h
    · cases h
      exact leads_of_peek? hl
    · obtain ⟨d', hd, h⟩ := bind_eq_ok.1 h
      cases h
      exact c.leads_skipSpace.trans (leads_of_braced hd)
    · cases h

theorem leads_of_valueAfterName {c d : Cursor} {v : AttributeValue}
    (h : c.valueAfterName = .ok (v, d)) : c.Leads d := by
  simp only [valueAfterName] at h
  split at h
  · rename_i l hl
    split at h
    · exact (leads_of_peek? hl).trans (leads_of_attributeValue h)
    · cases h
      exact Leads.refl c
  · cases h
    exact Leads.refl c

theorem attributes_eq (c : Cursor) : c.attributes = (do
    let l ← c.next .attributeOrEnd
    match l.token with
    | .greater => return ([], false, l.next)
    | .selfClose => return ([], true, l.next)
    | .ident name =>
      let (value, d) ← l.next.valueAfterName
      let (more, closed, d) ← d.attributes
      return (⟨name, value⟩ :: more, closed, d)
    | .leftBrace => throw (.spreadAttribute l.span)
    | t => throw (.unexpectedToken l.span .attributeOrEnd t)) := by
  rw [attributes]
  split
  · rename_i h
    rw [h]
    rfl
  rename_i l h
  rw [h, ok_bind]
  cases l.token with
  | ident name =>
    simp only
    split
    · rename_i hvalue
      rw [hvalue]
      rfl
    · rename_i value d hvalue
      rw [hvalue, ok_bind]
      cases d.attributes <;> rfl
  | _ => rfl

theorem leads_of_attributes {c d : Cursor} {as : List Attribute} {closed : Bool}
    (h : c.attributes = .ok (as, closed, d)) : c.Leads d := by
  fun_induction attributes c generalizing as closed d with
  | case1 => cases h
  | case2 c l hl => cases h; exact leads_of_next hl
  | case3 c l hl => cases h; exact leads_of_next hl
  | case4 => cases h
  | case5 => cases h
  | case6 c l hl name _ value d' hv more closed' d'' hd ih =>
    cases h
    exact (leads_of_next hl).trans ((leads_of_valueAfterName hv).trans (ih hd))
  | case7 => cases h
  | case8 => cases h

theorem openTag_eq (c : Cursor) : c.openTag = (do
    let l ← c.expect .less .less
    let (name, d) ← l.next.ident .tagName
    let (attributes, closed, d) ← d.attributes
    return (⟨name, attributes, closed⟩, d)) := by
  rw [openTag]
  cases hl : c.expect .less .less with
  | error e => rfl
  | ok l =>
    rw [ok_bind]
    cases hname : l.next.ident .tagName with
    | error e => simp only [hname]; rfl
    | ok p =>
      simp only [hname, ok_bind]
      cases p.2.attributes <;> rfl

theorem openTag_eq_ok {c d : Cursor} {tag : OpenTag} :
    c.openTag = .ok (tag, d) ↔ ∃ l d', c.expect .less .less = .ok l ∧
      l.next.ident .tagName = .ok (tag.name, d') ∧
      d'.attributes = .ok (tag.attributes, tag.closed, d) := by
  rw [openTag_eq, bind_eq_ok]
  constructor
  · rintro ⟨l, hl, h⟩
    obtain ⟨⟨name, d'⟩, hn, h⟩ := bind_eq_ok.1 h
    obtain ⟨⟨as, closed, e⟩, ha, h⟩ := bind_eq_ok.1 h
    cases h
    exact ⟨l, d', hl, hn, ha⟩
  · rintro ⟨l, d', hl, hn, ha⟩
    exact ⟨l, hl, bind_eq_ok.2 ⟨_, hn, bind_eq_ok.2 ⟨_, ha, rfl⟩⟩⟩

theorem leads_of_openTag {c d : Cursor} {tag : OpenTag} (h : c.openTag = .ok (tag, d)) :
    c.Leads d := by
  obtain ⟨l, d', hl, hn, ha⟩ := openTag_eq_ok.1 h
  exact (leads_of_expect hl).trans ((leads_of_ident hn).trans (leads_of_attributes ha))

theorem closeTag_eq_ok {c d : Cursor} {tag : String} :
    c.closeTag tag = .ok d ↔ ∃ l name l', c.expect .closeTagOpen .less = .ok l ∧
      l.next.next .closingTagName = .ok name ∧ name.token = .ident tag ∧
      name.next.expect .greater .greater = .ok l' ∧ l'.next = d := by
  rw [closeTag, bind_eq_ok]
  constructor
  · rintro ⟨l, hl, h⟩
    obtain ⟨name, hn, h⟩ := bind_eq_ok.1 h
    split at h
    · rename_i found hf
      split at h
      · rename_i hft
        obtain ⟨l', hl', h⟩ := bind_eq_ok.1 h
        cases h
        exact ⟨l, name, l', hl, hn, by rw [hf, hft], hl', rfl⟩
      · cases h
    · cases h
  · rintro ⟨l, name, l', hl, hn, ht, hl', rfl⟩
    refine ⟨l, hl, bind_eq_ok.2 ⟨name, hn, ?_⟩⟩
    rw [ht]
    simp only [if_true]
    exact bind_eq_ok.2 ⟨l', hl', rfl⟩

theorem leads_of_closeTag {c d : Cursor} {tag : String} (h : c.closeTag tag = .ok d) :
    c.Leads d := by
  obtain ⟨l, name, l', hl, hn, _, hl', rfl⟩ := closeTag_eq_ok.1 h
  exact (leads_of_expect hl).trans ((leads_of_next hn).trans (leads_of_expect hl'))

/-! ## Texts, blanks and comments -/

theorem leads_skipText (c : Cursor) : c.Leads c.skipText :=
  leads_advance c _

theorem leads_skipBlanks (c : Cursor) : c.Leads c.skipBlanks :=
  leads_advance c _

theorem leads_of_skipComment? {c d : Cursor} (h : c.skipComment? = some d) : c.Leads d := by
  simp only [skipComment?] at h
  split at h
  · cases h
    exact leads_advance c _
  · cases h
    exact leads_advance c _
  · cases h

theorem leads_skipTrivia (c : Cursor) : c.Leads c.skipTrivia := by
  fun_induction skipTrivia c with
  | case1 c d h ih => exact c.leads_skipBlanks.trans ((leads_of_skipComment? h).trans ih)
  | case2 c h => exact c.leads_skipBlanks

/-! ## Imports -/

theorem leads_of_namedBindings {c d : Cursor} {bs : List Binding}
    (h : c.namedBindings = .ok (bs, d)) : c.Leads d := by
  fun_induction namedBindings c generalizing bs d with
  | case1 => cases h
  | case2 c l hl => cases h; exact leads_of_next hl
  | case3 => cases h
  | case4 => cases h
  | case5 c l hl imported _ renamed localName d' hd more d'' hm =>
    rename_i ih
    cases h
    have hn : l.next.Leads d' := by
      split at hd
      · obtain ⟨k, hk, hi⟩ := bind_eq_ok.1 hd
        exact (leads_of_keyword hk).trans (leads_of_ident hi)
      · cases hd
        exact Leads.refl _
    exact (leads_of_next hl).trans (hn.trans ((leads_skip _ _).trans (ih hm)))
  | case6 => cases h

theorem importClause_eq (c : Cursor) : c.importClause = (do
    let l ← c.next .importClause
    match l.token with
    | .star =>
      let d ← l.next.keyword "as"
      let (name, d) ← d.ident .namespaceName
      return ([⟨"*", name, .whole⟩], d)
    | .leftBrace => l.next.namedBindings
    | .ident name =>
      if l.next.peek?.any (·.token == .comma) then
        let b ← (l.next.skip .comma).expect .leftBrace .leftBrace
        let (more, d) ← b.next.namedBindings
        return (⟨"default", name, .default⟩ :: more, d)
      else return ([⟨"default", name, .default⟩], l.next)
    | t => throw (.unexpectedToken l.span .importClause t)) := by
  rw [importClause]
  cases c.next .importClause <;> rfl

theorem leads_of_importClause {c d : Cursor} {bs : List Binding}
    (h : c.importClause = .ok (bs, d)) : c.Leads d := by
  rw [importClause_eq] at h
  obtain ⟨l, hl, h⟩ := bind_eq_ok.1 h
  refine (leads_of_next hl).trans ?_
  split at h
  · obtain ⟨k, hk, h⟩ := bind_eq_ok.1 h
    obtain ⟨⟨name, e⟩, he, h⟩ := bind_eq_ok.1 h
    cases h
    exact (leads_of_keyword hk).trans (leads_of_ident he)
  · exact leads_of_namedBindings h
  · split at h
    · obtain ⟨b, hb, h⟩ := bind_eq_ok.1 h
      obtain ⟨⟨more, e⟩, he, h⟩ := bind_eq_ok.1 h
      cases h
      exact (leads_skip _ _).trans ((leads_of_expect hb).trans (leads_of_namedBindings he))
    · cases h
      exact Leads.refl _
  · cases h

theorem leads_of_importStatement {c d : Cursor} {i : Import}
    (h : c.importStatement = .ok (i, d)) : c.Leads d ∧ i.span = c.span d := by
  obtain ⟨d1, h1, h⟩ := bind_eq_ok.1 h
  obtain ⟨⟨bs, d2⟩, h2, h⟩ := bind_eq_ok.1 h
  obtain ⟨d3, h3, h⟩ := bind_eq_ok.1 h
  obtain ⟨l, h4, h⟩ := bind_eq_ok.1 h
  have hd3 := (leads_of_keyword h1).trans ((leads_of_importClause h2).trans (leads_of_keyword h3))
  split at h
  · cases h
    exact ⟨hd3.trans ((leads_of_next h4).trans (leads_skip _ _)), rfl⟩
  · cases h

theorem prelude_eq (c : Cursor) : c.prelude =
    if c.skipTrivia.peek?.any (·.token == .ident "import") then do
      let (i, d) ← c.skipTrivia.importStatement
      let (more, d) ← d.prelude
      return (i :: more, d)
    else return ([], c.skipTrivia) := by
  rw [prelude]
  split
  · split
    · rename_i h
      rw [h]
      rfl
    · rename_i i d h
      rw [h, ok_bind]
      simp only
      cases d.prelude <;> rfl
  · rfl

theorem prelude_nil {c : Cursor}
    (h : c.skipTrivia.peek?.any (·.token == .ident "import") = false) :
    c.prelude = .ok ([], c.skipTrivia) := by
  rw [prelude_eq, if_neg (by rw [h]; exact Bool.false_ne_true)]
  rfl

theorem of_prelude_nil {c d : Cursor} (h : c.prelude = .ok ([], d)) :
    c.skipTrivia = d ∧ c.skipTrivia.peek?.any (·.token == .ident "import") = false := by
  rw [prelude_eq] at h
  split at h
  · obtain ⟨_, _, h⟩ := bind_eq_ok.1 h
    obtain ⟨_, _, h⟩ := bind_eq_ok.1 h
    cases h
  · rename_i hno
    cases h
    exact ⟨rfl, Bool.not_eq_true _ ▸ hno⟩

theorem prelude_eq_nil {c d : Cursor} (h : c.prelude = .ok ([], d)) : c.skipTrivia = d :=
  (of_prelude_nil h).1

/-- Import statements that stand one behind the other, up to the end of the last one. -/
inductive ReadsImports : Cursor → List Import → Cursor → Prop
  | nil (c : Cursor) : ReadsImports c [] c
  | cons {c d e : Cursor} {i : Import} {is : List Import}
      (hi : c.skipTrivia.importStatement = .ok (i, d)) (h : ReadsImports d is e) :
      ReadsImports c (i :: is) e

theorem ReadsImports.leads {c e : Cursor} {is : List Import} (h : ReadsImports c is e) :
    c.Leads e := by
  induction h with
  | nil c => exact Leads.refl c
  | @cons c d e i is hi _ ih => exact c.leads_skipTrivia.trans ((leads_of_importStatement hi).1.trans ih)

theorem ReadsImports.stop {c e : Cursor} {is : List Import} (h : ReadsImports c is e) :
    ∀ i, is.getLast? = some i → i.span.stop = e.offset := by
  induction h with
  | nil c => rintro _ ⟨⟩
  | @cons c d e i is hi h ih =>
    intro j hj
    cases h with
    | nil =>
      cases hj
      rw [List.getLast_singleton, (leads_of_importStatement hi).2]
      rfl
    | cons => exact ih j hj

theorem readsImports_of_prelude {c d : Cursor} {is : List Import} (h : c.prelude = .ok (is, d)) :
    ∃ e, ReadsImports c is e ∧ e.prelude = .ok ([], d) := by
  fun_induction prelude c generalizing is d with
  | case1 => cases h
  | case2 => cases h
  | case3 c c' _ i e hi more f hm =>
    rename_i ih
    cases h
    obtain ⟨x, hx, hend⟩ := ih hm
    exact ⟨x, .cons hi hx, hend⟩
  | case4 c c' =>
    rename_i hno
    cases h
    exact ⟨c, .nil c, prelude_nil (Bool.not_eq_true _ ▸ hno)⟩

theorem leads_of_prelude {c d : Cursor} {is : List Import} (h : c.prelude = .ok (is, d)) :
    c.Leads d := by
  obtain ⟨e, he, hend⟩ := readsImports_of_prelude h
  exact he.leads.trans (prelude_eq_nil hend ▸ e.leads_skipTrivia)

end Cursor

end PageEditor
