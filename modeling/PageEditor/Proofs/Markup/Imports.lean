import PageEditor.Proofs.Markup.Trivia

/-!
# Imports in other texts

The import statements of a page are read again when something else stands behind them, as long as it
begins neither with a semicolon, which would end the last statement, nor with a further statement.
-/
set_option autoImplicit false

namespace PageEditor

open Cursor

namespace Cursor

variable {c c' d e : Cursor} {new : List Char} {l : Lexeme}

/-! ## Single tokens -/

/-- A token in front of `e` that is read whatever stands behind `e`. -/
structure Legible (e : Cursor) (l : Lexeme) : Prop where
  notNumber : ∀ ds, l.token ≠ .number ds
  leads : l.next.Leads e
  ends : l.next.upTo e = [] → ∀ new, l.token.Ends new

theorem legible_of_ident {name : String} (ht : l.token = .ident name) (h : l.next.Leads e)
    (hlt : e.rest.length < l.next.rest.length) : Legible e l :=
  ⟨by rw [ht]; rintro _ ⟨⟩, h, fun hnil => absurd hnil (upTo_ne_nil h hlt)⟩

theorem Legible.trans (h : Legible d l) (hde : d.Leads e) : Legible e l := by
  refine ⟨h.notNumber, h.leads.trans hde, ?_⟩
  intro hnil
  rw [← h.leads.upTo_append hde, List.append_eq_nil_iff] at hnil
  exact h.ends hnil.1

theorem Grafted.legible {x : Expectation} (h : Grafted e new c c') (hl : c.next x = .ok l)
    (hlegible : Legible e l) :
    ∃ l', c'.next x = .ok l' ∧ l'.token = l.token ∧ Grafted e new l.next l'.next :=
  h.next hl hlegible.notNumber hlegible.leads fun hnil => hlegible.ends hnil new

theorem Grafted.peek?_legible (h : Grafted e new c c') (hl : c.peek? = some l)
    (hlegible : Legible e l) :
    ∃ l', c'.peek? = some l' ∧ l'.token = l.token ∧ Grafted e new l.next l'.next :=
  h.peek? hl hlegible.notNumber hlegible.leads fun hnil => hlegible.ends hnil new

theorem Grafted.keyword {word : String} (h : Grafted e new c c') (hd : c.keyword word = .ok d)
    (hde : d.Leads e) (hlt : e.rest.length < d.rest.length) :
    ∃ d', c'.keyword word = .ok d' ∧ Grafted e new d d' := by
  obtain ⟨l, hl, rfl⟩ := keyword_eq_ok.1 hd
  obtain ⟨hl, ht⟩ := expect_eq_ok.1 hl
  obtain ⟨l', hl', ht', hd'⟩ := h.legible hl (legible_of_ident ht hde hlt)
  exact ⟨l'.next, keyword_eq_ok.2 ⟨l', expect_eq_ok.2 ⟨hl', ht'.trans ht⟩, rfl⟩, hd'⟩

theorem Grafted.ident {name : String} {x : Expectation} (h : Grafted e new c c')
    (hd : c.ident x = .ok (name, d)) (hde : d.Leads e) (hlt : e.rest.length < d.rest.length) :
    ∃ d', c'.ident x = .ok (name, d') ∧ Grafted e new d d' := by
  obtain ⟨l, hl, ht, rfl⟩ := ident_eq_ok.1 hd
  obtain ⟨l', hl', ht', hd'⟩ := h.legible hl (legible_of_ident ht hde hlt)
  exact ⟨l'.next, ident_eq_ok.2 ⟨l', hl', ht'.trans ht, rfl⟩, hd'⟩

theorem peek?_of_next {x : Expectation} (h : c.next x = .ok l) : c.peek? = some l :=
  peek?_eq_some.2 (next_eq_ok.1 h)

theorem skip_of_eq {t : Token} (h : c.peek? = some l) (ht : l.token = t) : c.skip t = l.next := by
  rw [skip, h]
  simp only [ht, if_true]

theorem skip_of_ne {t : Token} (h : c.peek? = some l) (ht : l.token ≠ t) : c.skip t = c := by
  rw [skip, h]
  simp only [ht, if_false]

theorem Grafted.skip {t : Token} (h : Grafted e new c c') (hl : c.peek? = some l)
    (hlegible : Legible e l) : Grafted e new (c.skip t) (c'.skip t) := by
  obtain ⟨l', hl', ht', hd'⟩ := h.peek?_legible hl hlegible
  by_cases ht : l.token = t
  · rw [skip_of_eq hl ht, skip_of_eq hl' (ht'.trans ht)]
    exact hd'
  · rw [skip_of_ne hl ht, skip_of_ne hl' (ht' ▸ ht)]
    exact h

/-! ## Names in braces -/

/-- Reads what a name is called on the page, behind the name that the package has for it. -/
def localName (c : Cursor) (imported : String) : Except ParseError (String × Cursor) :=
  if c.peek?.any (·.token == .ident "as") then (c.keyword "as").bind (·.ident .localName)
  else .ok (imported, c)

theorem namedBindings_eq (c : Cursor) : c.namedBindings = (do
    let l ← c.next .importedName
    match l.token with
    | .rightBrace => return ([], l.next)
    | .ident imported =>
      let (name, d) ← l.next.localName imported
      let (more, d) ← (d.skip .comma).namedBindings
      return (⟨imported, name, .named⟩ :: more, d)
    | t => throw (.unexpectedToken l.span .importedName t)) := by
  rw [namedBindings]
  split
  · rename_i h
    rw [h]
    rfl
  rename_i l h
  rw [h, ok_bind]
  cases l.token with
  | ident imported =>
    simp only
    split
    · rename_i hname
      rw [show l.next.localName imported = _ from hname]
      rfl
    · rename_i name d hname
      rw [show l.next.localName imported = _ from hname, ok_bind]
      cases (d.skip .comma).namedBindings <;> rfl
  | _ => rfl

theorem namedBindings_rightBrace (hl : c.next .importedName = .ok l) (ht : l.token = .rightBrace) :
    c.namedBindings = .ok ([], l.next) := by
  rw [namedBindings_eq, hl, ok_bind, ht]
  rfl

theorem namedBindings_ident {imported name : String} {more : List Binding}
    (hl : c.next .importedName = .ok l) (ht : l.token = .ident imported)
    (hname : l.next.localName imported = .ok (name, d))
    (hmore : (d.skip .comma).namedBindings = .ok (more, e)) :
    c.namedBindings = .ok (⟨imported, name, .named⟩ :: more, e) := by
  rw [namedBindings_eq, hl, ok_bind, ht]
  exact bind_eq_ok.2 ⟨_, hname, bind_eq_ok.2 ⟨_, hmore, rfl⟩⟩

theorem localName_length_le {imported name : String} (h : c.localName imported = .ok (name, d)) :
    d.rest.length ≤ c.rest.length ∧ c.Leads d := by
  rw [localName] at h
  split at h
  · obtain ⟨k, hk, hi⟩ := bind_eq_ok.1 h
    exact ⟨Nat.le_of_lt (Nat.lt_trans (ident_length_lt hi) (keyword_length_lt hk)),
      (leads_of_keyword hk).trans (leads_of_ident hi)⟩
  · cases h
    exact ⟨Nat.le_refl _, Leads.refl c⟩

theorem next_of_namedBindings {bs : List Binding} (h : c.namedBindings = .ok (bs, e)) :
    ∃ l, c.next .importedName = .ok l ∧ Legible e l := by
  have hshort := namedBindings_length_lt h
  have hleads := leads_of_namedBindings h
  rw [namedBindings_eq] at h
  obtain ⟨l, hl, h⟩ := bind_eq_ok.1 h
  refine ⟨l, hl, ?_⟩
  split at h
  · rename_i ht
    cases h
    exact ⟨by rw [ht]; rintro _ ⟨⟩, Leads.refl _, fun _ _ => by rw [ht]; trivial⟩
  · rename_i imported ht
    obtain ⟨⟨name, d⟩, hname, h⟩ := bind_eq_ok.1 h
    obtain ⟨⟨more, f⟩, hmore, h⟩ := bind_eq_ok.1 h
    cases h
    obtain ⟨hle, hd⟩ := localName_length_le hname
    have hskip := d.skip_length_le .comma
    have hlt := namedBindings_length_lt hmore
    simp only at hlt
    exact legible_of_ident ht
      (hd.trans ((leads_skip d .comma).trans (leads_of_namedBindings hmore))) (by omega)
  · cases h

theorem peek?_of_namedBindings {bs : List Binding}
    (h : (c.skip .comma).namedBindings = .ok (bs, e)) : ∃ l, c.peek? = some l ∧ Legible e l := by
  obtain ⟨n, hn, hlegible⟩ := next_of_namedBindings h
  cases hl : c.peek? with
  | none =>
    rw [skip, hl] at hn
    cases hl.symm.trans (peek?_of_next hn)
  | some l =>
    refine ⟨l, rfl, ?_⟩
    by_cases ht : l.token = .comma
    · rw [skip_of_eq hl ht] at h
      exact ⟨by rw [ht]; rintro _ ⟨⟩, leads_of_namedBindings h, fun _ _ => by rw [ht]; trivial⟩
    · rw [skip_of_ne hl ht] at hn
      cases hl.symm.trans (peek?_of_next hn)
      exact hlegible

theorem localName_grafted {imported name : String} (h : Grafted e new c c')
    (hl : d.peek? = some l) (hlegible : Legible e l)
    (hname : c.localName imported = .ok (name, d)) :
    ∃ d', c'.localName imported = .ok (name, d') ∧ Grafted e new d d' := by
  have hde := (leads_of_peek? hl).trans hlegible.leads
  have hlt : e.rest.length < d.rest.length :=
    Nat.lt_of_le_of_lt hlegible.leads.length_le (peek?_length_lt hl)
  rw [localName] at hname
  split at hname
  · rename_i has
    obtain ⟨k, hk, hi⟩ := bind_eq_ok.1 hname
    obtain ⟨k', hk', hgraft⟩ := h.keyword hk ((leads_of_ident hi).trans hde)
      (Nat.lt_trans hlt (ident_length_lt hi))
    obtain ⟨d', hd', hgraft'⟩ := hgraft.ident hi hde hlt
    refine ⟨d', ?_, hgraft'⟩
    obtain ⟨l', hl', rfl⟩ := keyword_eq_ok.1 hk'
    obtain ⟨hl', ht'⟩ := expect_eq_ok.1 hl'
    rw [localName, peek?_of_next hl', Option.any_some, ht', if_pos (beq_self_eq_true _)]
    exact bind_eq_ok.2 ⟨_, hk', hd'⟩
  · rename_i hno
    cases hname
    obtain ⟨l', hl', ht', _⟩ := h.peek?_legible hl hlegible
    refine ⟨c', ?_, h⟩
    rw [hl, Option.any_some] at hno
    rw [localName, hl', Option.any_some, ht', if_neg hno]

theorem namedBindings_grafted {bs : List Binding} (hc : c.namedBindings = .ok (bs, d))
    (hde : d.Leads e) :
    ∀ {c' : Cursor}, Grafted e new c c' →
      ∃ d', c'.namedBindings = .ok (bs, d') ∧ Grafted e new d d' := by
  fun_induction namedBindings c generalizing bs d with
  | case1 => cases hc
  | case2 c l hl ht =>
    cases hc
    intro c' h
    obtain ⟨l', hl', ht', hd'⟩ := h.next hl (by rw [ht]; rintro _ ⟨⟩) hde
      (fun _ => by rw [ht]; trivial)
    exact ⟨_, namedBindings_rightBrace hl' (ht'.trans ht), hd'⟩
  | case3 => cases hc
  | case4 => cases hc
  | case5 c l hl imported ht renamed name f hname more g hmore =>
    rename_i ih
    cases hc
    intro c' h
    obtain ⟨hle, hlf⟩ := localName_length_le hname
    obtain ⟨k, hk, hlegible⟩ := peek?_of_namedBindings hmore
    have hfe := (leads_of_peek? hk).trans (hlegible.leads.trans hde)
    have hlt : e.rest.length < l.next.rest.length := by
      have hshort := peek?_length_lt hk
      have hlast := (hlegible.leads.trans hde).length_le
      omega
    obtain ⟨l', hl', ht', hgraft⟩ := h.legible hl (legible_of_ident ht (hlf.trans hfe) hlt)
    obtain ⟨f', hname', hgraft'⟩ := localName_grafted hgraft hk (hlegible.trans hde) hname
    obtain ⟨d', hmore', hd'⟩ := ih hmore hde (hgraft'.skip hk (hlegible.trans hde))
    exact ⟨d', namedBindings_ident hl' (ht'.trans ht) hname' hmore', hd'⟩
  | case6 => cases hc

/-! ## Statements -/

theorem importClause_star {name : String} (hl : c.next .importClause = .ok l) (ht : l.token = .star)
    (hd : l.next.keyword "as" = .ok d) (he : d.ident .namespaceName = .ok (name, e)) :
    c.importClause = .ok ([⟨"*", name, .whole⟩], e) := by
  rw [importClause, hl]
  simp only [ht]
  exact bind_eq_ok.2 ⟨d, hd, bind_eq_ok.2 ⟨_, he, rfl⟩⟩

theorem importClause_leftBrace (hl : c.next .importClause = .ok l) (ht : l.token = .leftBrace) :
    c.importClause = l.next.namedBindings := by
  rw [importClause, hl]
  simp only [ht]

theorem importClause_default {name : String} (hl : c.next .importClause = .ok l)
    (ht : l.token = .ident name) :
    c.importClause =
      if l.next.peek?.any (·.token == .comma) then do
        let b ← (l.next.skip .comma).expect .leftBrace .leftBrace
        let (more, d) ← b.next.namedBindings
        return (⟨"default", name, .default⟩ :: more, d)
      else .ok ([⟨"default", name, .default⟩], l.next) := by
  rw [importClause, hl]
  simp only [ht]

theorem importClause_star_grafted {name : String} {k : Cursor} (hl : c.next .importClause = .ok l)
    (ht : l.token = .star) (hk : l.next.keyword "as" = .ok k)
    (hname : k.ident .namespaceName = .ok (name, d)) (hde : d.Leads e)
    (hlt : e.rest.length < d.rest.length) (h : Grafted e new c c') :
    ∃ d', c'.importClause = .ok ([⟨"*", name, .whole⟩], d') ∧ Grafted e new d d' := by
  have hke := (leads_of_ident hname).trans hde
  obtain ⟨l', hl', ht', hgraft⟩ := h.next hl (by rw [ht]; rintro _ ⟨⟩)
    ((leads_of_keyword hk).trans hke) (fun _ => by rw [ht]; trivial)
  obtain ⟨k', hk', hgraft⟩ := hgraft.keyword hk hke (Nat.lt_trans hlt (ident_length_lt hname))
  obtain ⟨d', hname', hgraft⟩ := hgraft.ident hname hde hlt
  exact ⟨d', importClause_star hl' (ht'.trans ht) hk' hname', hgraft⟩

theorem importClause_leftBrace_grafted {bs : List Binding} (hl : c.next .importClause = .ok l)
    (ht : l.token = .leftBrace) (hbs : l.next.namedBindings = .ok (bs, d)) (hde : d.Leads e)
    (h : Grafted e new c c') : ∃ d', c'.importClause = .ok (bs, d') ∧ Grafted e new d d' := by
  obtain ⟨l', hl', ht', hgraft⟩ := h.next hl (by rw [ht]; rintro _ ⟨⟩)
    ((leads_of_namedBindings hbs).trans hde) (fun _ => by rw [ht]; trivial)
  obtain ⟨d', hd', hgraft⟩ := namedBindings_grafted hbs hde hgraft
  exact ⟨d', by rw [importClause_leftBrace hl' (ht'.trans ht), hd'], hgraft⟩

theorem importClause_more_grafted {name : String} {more : List Binding} {k b : Lexeme}
    (hl : c.next .importClause = .ok l) (ht : l.token = .ident name)
    (hk : l.next.peek? = some k) (hcomma : k.token = .comma)
    (hb : (l.next.skip .comma).expect .leftBrace .leftBrace = .ok b)
    (hmore : b.next.namedBindings = .ok (more, d)) (hde : d.Leads e) (h : Grafted e new c c') :
    ∃ d', c'.importClause = .ok (⟨"default", name, .default⟩ :: more, d') ∧ Grafted e new d d' := by
  obtain ⟨hbrace, hbt⟩ := expect_eq_ok.1 hb
  have hbe := (leads_of_namedBindings hmore).trans hde
  have hke : k.next.Leads e := by
    rw [skip_of_eq hk hcomma] at hb
    exact (leads_of_expect hb).trans hbe
  have hcommas : Legible e k :=
    ⟨by rw [hcomma]; rintro _ ⟨⟩, hke, fun _ _ => by rw [hcomma]; trivial⟩
  have hle : e.rest.length < l.next.rest.length :=
    Nat.lt_of_le_of_lt hke.length_le (peek?_length_lt hk)
  obtain ⟨l', hl', ht', hgraft⟩ :=
    h.legible hl (legible_of_ident ht ((leads_of_peek? hk).trans hke) hle)
  obtain ⟨k', hk', hkt', _⟩ := hgraft.peek?_legible hk hcommas
  obtain ⟨b', hb', hbt', hgraft⟩ := (hgraft.skip hk hcommas).next hbrace
    (by rw [hbt]; rintro _ ⟨⟩) hbe (fun _ => by rw [hbt]; trivial)
  obtain ⟨d', hd', hgraft⟩ := namedBindings_grafted hmore hde hgraft
  refine ⟨d', ?_, hgraft⟩
  rw [importClause_default hl' (ht'.trans ht), hk', Option.any_some, hkt',
    if_pos (by rw [hcomma]; decide)]
  exact bind_eq_ok.2 ⟨b', expect_eq_ok.2 ⟨hb', hbt'.trans hbt⟩, bind_eq_ok.2 ⟨_, hd', rfl⟩⟩

/-- What stands between `import` and `from`. -/
theorem importClause_grafted {bs : List Binding} (hc : c.importClause = .ok (bs, d))
    (hl : d.peek? = some l) (hlegible : Legible e l) (h : Grafted e new c c') :
    ∃ d', c'.importClause = .ok (bs, d') ∧ Grafted e new d d' := by
  have hde := (leads_of_peek? hl).trans hlegible.leads
  have hlt : e.rest.length < d.rest.length :=
    Nat.lt_of_le_of_lt hlegible.leads.length_le (peek?_length_lt hl)
  rw [importClause_eq] at hc
  obtain ⟨n, hn, hc⟩ := bind_eq_ok.1 hc
  split at hc
  · rename_i ht
    obtain ⟨k, hk, hc⟩ := bind_eq_ok.1 hc
    obtain ⟨⟨name, f⟩, hname, hc⟩ := bind_eq_ok.1 hc
    cases hc
    exact importClause_star_grafted hn ht hk hname hde hlt h
  · rename_i ht
    exact importClause_leftBrace_grafted hn ht hc hde h
  · rename_i name ht
    split at hc
    · rename_i hany
      obtain ⟨k, hk, hkt⟩ := (Option.any_eq_true _ _).1 hany
      obtain ⟨b, hb, hc⟩ := bind_eq_ok.1 hc
      obtain ⟨⟨more, f⟩, hmore, hc⟩ := bind_eq_ok.1 hc
      cases hc
      exact importClause_more_grafted hn ht hk (by simpa using hkt) hb hmore hde h
    · rename_i hno
      cases hc
      obtain ⟨n', hn', ht', hgraft⟩ := h.legible hn (legible_of_ident ht hde hlt)
      obtain ⟨l', hl', hlt', _⟩ := hgraft.peek?_legible hl hlegible
      refine ⟨n'.next, ?_, hgraft⟩
      rw [hl, Option.any_some] at hno
      rw [importClause_default hn' (ht'.trans ht), hl', Option.any_some, hlt', if_neg hno]
  · cases hc

/-! ## What may stand behind the imports -/

/-- A text that does not go on with the imports in front of it: it begins, behind blanks and
comments, neither with a semicolon nor with a further statement. -/
structure EndsImports (new : List Char) : Prop where
  semicolon : (ofText new).skipTrivia.rest.head? ≠ some ';'
  statement : (ofText new).skipTrivia.peek?.any (·.token == .ident "import") = false

instance (new : List Char) : Decidable (EndsImports new) :=
  decidable_of_iff ((ofText new).skipTrivia.rest.head? ≠ some ';' ∧
      (ofText new).skipTrivia.peek?.any (·.token == .ident "import") = false)
    ⟨fun h => ⟨h.1, h.2⟩, fun h => ⟨h.semicolon, h.statement⟩⟩

theorem isBlank_of_isSpace {x : Char} (h : Token.isSpace x = true) : Text.isBlank x = true := by
  simp only [Token.isSpace, Bool.or_eq_true, beq_iff_eq] at h
  rcases h with ((rfl | rfl) | rfl) | rfl <;> decide

theorem skipTrivia_of_skipSpace {x : Char} {r : List Char} (h : c.skipSpace.rest = x :: r)
    (hblank : Text.isBlank x = false) (hslash : x ≠ '/') : c.skipTrivia = c.skipSpace := by
  have htrivia : IsTrivia (c.rest.takeWhile Token.isSpace) := by
    refine isTrivia_of_blanks (List.all_eq_true.2 fun x hx => isBlank_of_isSpace ?_)
    exact List.all_eq_true.1 List.all_takeWhile x hx
  rw [htrivia c (c.rest.dropWhile Token.isSpace) List.takeWhile_append_dropWhile.symm]
  exact skipTrivia_of_head h hblank hslash

theorem peek?_semicolon {r : List Char} (h : c.skipSpace.rest = ';' :: r) :
    ∃ l, c.peek? = some l ∧ l.token = .semicolon := by
  refine ⟨⟨.semicolon, c.skipSpace.span (c.skipSpace.advance 1), c.skipSpace.advance 1⟩, ?_, rfl⟩
  refine peek?_eq_some.2 ?_
  simp only [lex, h]
  rfl

/-- A semicolon may end a statement, but what stands behind the imports does not begin with one. -/
theorem Grafted.skip_semicolon (h : Grafted e new c c')
    (hsemicolon : (ofText new).skipTrivia.rest.head? ≠ some ';') (hde : (c.skip .semicolon).Leads e) :
    Grafted e new (c.skip .semicolon) (c'.skip .semicolon) := by
  by_cases hsemi : ∃ l, c.peek? = some l ∧ l.token = .semicolon
  · obtain ⟨l, hl, ht⟩ := hsemi
    rw [skip_of_eq hl ht] at hde
    exact h.skip hl ⟨by rw [ht]; rintro _ ⟨⟩, hde, fun _ _ => by rw [ht]; trivial⟩
  · have hskip : ∀ x : Cursor, (¬∃ l, x.peek? = some l ∧ l.token = .semicolon) →
        x.skip .semicolon = x := by
      intro x hx
      cases hl : x.peek? with
      | none => rw [Cursor.skip, hl]
      | some l => exact skip_of_ne hl fun ht => hx ⟨l, hl, ht⟩
    have hsemi' : ¬∃ l, c'.peek? = some l ∧ l.token = .semicolon := by
      rintro ⟨l, hl, ht⟩
      have hlex := peek?_eq_some.1 hl
      rw [ht] at hlex
      have hrest : c'.skipSpace.rest = ';' :: l.next.rest := skipSpace_of_lex hlex (by rintro _ ⟨⟩)
      have hdrop : ∀ x : Cursor, x.skipSpace.rest = x.rest.dropWhile Token.isSpace := fun x =>
        advance_takeWhile_rest x _
      rw [hdrop, h.rest, List.dropWhile_append] at hrest
      split at hrest
      · -- All that is left of the old text is blank, so the semicolon begins the new one.
        have hnew : (ofText new).skipSpace.rest = ';' :: l.next.rest := (hdrop _).trans hrest
        refine absurd ?_ hsemicolon
        rw [skipTrivia_of_skipSpace hnew (by decide) (by decide), hnew]
        rfl
      · rename_i hne
        have hold : c.skipSpace.rest = (c.upTo e).dropWhile Token.isSpace ++ e.rest := by
          rw [hdrop, ← h.leads.rest, List.dropWhile_append, if_neg hne]
        cases hup : (c.upTo e).dropWhile Token.isSpace with
        | nil => exact hne (by rw [hup]; rfl)
        | cons x r =>
          rw [hup] at hrest hold
          obtain rfl := (List.cons.inj hrest).1
          exact hsemi (peek?_semicolon hold)
    rw [hskip c hsemi, hskip c' hsemi']
    exact h

end Cursor

/-! ## Imports -/

/-- What an import tells, wherever it stands. -/
def Import.names (i : Import) : String × List Binding := (i.package, i.bindings)

theorem Import.eq_of_names {i j : Import} (h : i.names = j.names) (hspan : i.span = j.span) :
    i = j := by
  obtain ⟨package, bindings, span⟩ := i
  cases h
  cases hspan
  rfl

theorem Import.resolve?_congr {is is' : List Import} (h : is'.map names = is.map names)
    (localName : String) : resolve? is' localName = resolve? is localName := by
  have hmap : ∀ js : List Import, resolve? js localName =
      (js.map names).findSome? fun p => (p.2.find? (·.localName == localName)).map (p.1, ·) := by
    intro js
    rw [List.findSome?_map]
    rfl
  rw [hmap, hmap, h]

namespace Cursor

variable {c c' d e : Cursor} {new : List Char} {i : Import} {is : List Import}

theorem importStatement_grafted (hc : c.importStatement = .ok (i, d)) (hde : d.Leads e)
    (hsemicolon : (ofText new).skipTrivia.rest.head? ≠ some ';') (h : Grafted e new c c') :
    ∃ i' d', c'.importStatement = .ok (i', d') ∧ i'.names = i.names ∧ Grafted e new d d' := by
  obtain ⟨d₁, h₁, hc⟩ := bind_eq_ok.1 hc
  obtain ⟨⟨bs, d₂⟩, h₂, hc⟩ := bind_eq_ok.1 hc
  obtain ⟨d₃, h₃, hc⟩ := bind_eq_ok.1 hc
  obtain ⟨l, hl, hc⟩ := bind_eq_ok.1 hc
  split at hc
  · rename_i quote package ht
    cases hc
    have hle := (leads_skip l.next .semicolon).trans hde
    have h₃e := (leads_of_next hl).trans hle
    have hlt₃ := Nat.lt_of_le_of_lt hle.length_le (next_length_lt hl)
    obtain ⟨k, hk, rfl⟩ := keyword_eq_ok.1 h₃
    obtain ⟨hk, hkt⟩ := expect_eq_ok.1 hk
    have h₁e := (leads_of_importClause h₂).trans ((leads_of_keyword h₃).trans h₃e)
    have hlt₁ : e.rest.length < d₁.rest.length := by
      have hclause := importClause_length_lt h₂
      have hfrom := next_length_lt hk
      simp only at hclause
      omega
    obtain ⟨d₁', h₁', hgraft⟩ := h.keyword h₁ h₁e hlt₁
    obtain ⟨d₂', h₂', hgraft⟩ :=
      importClause_grafted h₂ (peek?_of_next hk) (legible_of_ident hkt h₃e hlt₃) hgraft
    obtain ⟨d₃', h₃', hgraft⟩ := hgraft.keyword h₃ h₃e hlt₃
    obtain ⟨l', hl', ht', hgraft⟩ := hgraft.next hl (by rw [ht]; rintro _ ⟨⟩) hle
      (fun _ => by rw [ht]; trivial)
    refine ⟨⟨package, bs, c'.span (l'.next.skip .semicolon)⟩, _, ?_, rfl,
      hgraft.skip_semicolon hsemicolon hde⟩
    refine bind_eq_ok.2 ⟨d₁', h₁', bind_eq_ok.2 ⟨_, h₂', bind_eq_ok.2 ⟨d₃', h₃', ?_⟩⟩⟩
    refine bind_eq_ok.2 ⟨l', hl', ?_⟩
    rw [ht', ht]
    rfl
  · cases hc

theorem peek?_of_importStatement (hi : c.importStatement = .ok (i, d)) :
    ∃ l, c.peek? = some l ∧ l.token = .ident "import" := by
  obtain ⟨d', hd', _⟩ := bind_eq_ok.1 hi
  obtain ⟨l, hl, _⟩ := keyword_eq_ok.1 hd'
  obtain ⟨hl, ht⟩ := expect_eq_ok.1 hl
  exact ⟨l, peek?_of_next hl, ht⟩

theorem prelude_cons {more : List Import} (hi : c.skipTrivia.importStatement = .ok (i, d))
    (hmore : d.prelude = .ok (more, e)) : c.prelude = .ok (i :: more, e) := by
  have hany : c.skipTrivia.peek?.any (·.token == .ident "import") = true := by
    obtain ⟨l, hl, ht⟩ := peek?_of_importStatement hi
    rw [hl, Option.any_some, ht]
    exact beq_self_eq_true _
  rw [prelude_eq, if_pos hany]
  exact bind_eq_ok.2 ⟨_, hi, bind_eq_ok.2 ⟨_, hmore, rfl⟩⟩

theorem head_of_import {l : Lexeme} (hl : c.skipTrivia.peek? = some l)
    (ht : l.token = .ident "import") : ∃ r, c.skipTrivia.rest = 'i' :: r := by
  have hlex := peek?_eq_some.1 hl
  rw [ht] at hlex
  have hrest : c.skipTrivia.skipSpace.rest = 'i' :: ("mport".toList ++ l.next.rest) :=
    skipSpace_of_lex hlex (by rintro _ ⟨⟩)
  have hskip := skipTrivia_of_skipSpace hrest (by decide) (by decide)
  rw [skipTrivia_skipTrivia] at hskip
  exact ⟨_, by rw [hskip, hrest]⟩

theorem ReadsImports.head (h : ReadsImports c is e) (hne : is ≠ []) :
    ∃ r, c.skipTrivia.rest = 'i' :: r := by
  cases h with
  | nil => exact absurd rfl hne
  | cons hi =>
    obtain ⟨l, hl, ht⟩ := peek?_of_importStatement hi
    exact head_of_import hl ht

theorem peek?_of_rest {l : Lexeme} {name : String} (h : c.rest = d.rest) (hl : c.peek? = some l)
    (ht : l.token = .ident name) : ∃ l', d.peek? = some l' ∧ l'.token = .ident name := by
  have hnext := leads_advance l.next l.next.rest.length
  have hc := (leads_of_peek? hl).trans hnext
  have hnil : (l.next.advance l.next.rest.length).rest = [] := by rw [advance_rest, List.drop_length]
  have hrest := hc.rest
  rw [hnil, h, ← List.append_nil d.rest] at hrest
  have hgraft : Grafted (l.next.advance l.next.rest.length) [] c d :=
    ⟨hc, by simpa using hrest.symm⟩
  obtain ⟨l', hl', ht', _⟩ := hgraft.peek? hl (by rw [ht]; rintro _ ⟨⟩) hnext
    (fun _ => by rw [ht]; rintro _ ⟨⟩)
  exact ⟨l', hl', ht'.trans ht⟩

theorem no_import_of_rest (h : c.rest = d.rest)
    (hd : d.peek?.any (·.token == .ident "import") = false) :
    c.peek?.any (·.token == .ident "import") = false := by
  refine Bool.eq_false_iff.2 fun hany => ?_
  obtain ⟨l, hl, ht⟩ := (Option.any_eq_true _ _).1 hany
  obtain ⟨l', hl', ht'⟩ := peek?_of_rest h hl (by simpa using ht)
  rw [hl', Option.any_some, ht'] at hd
  exact absurd hd (by decide)

theorem EndsImports.no_import (h : EndsImports new) (hc : c.rest = new) :
    c.skipTrivia.peek?.any (·.token == .ident "import") = false :=
  no_import_of_rest (skipTrivia_rest hc) h.statement

theorem prelude_eq_nil_of_rest (hd : d.prelude = .ok ([], e))
    (hc : c.skipTrivia.rest = d.skipTrivia.rest) : c.prelude = .ok ([], c.skipTrivia) :=
  prelude_nil (no_import_of_rest hc (of_prelude_nil hd).2)

theorem ReadsImports.prelude {more : List Import} (h : ReadsImports c is e)
    (he : e.prelude = .ok (more, d)) : c.prelude = .ok (is ++ more, d) := by
  induction h with
  | nil c => exact he
  | cons hi _ ih => exact prelude_cons hi (ih he)

/-- The import statements are read again when something else stands behind them, as long as no
semicolon comes first there. At the same offset they are the same imports. -/
theorem ReadsImports.grafted (h : ReadsImports c is e)
    (hsemicolon : (ofText new).skipTrivia.rest.head? ≠ some ';') :
    ∀ {c' : Cursor}, c'.rest = c.upTo e ++ new →
      ∃ is' e', ReadsImports c' is' e' ∧ is'.map Import.names = is.map Import.names ∧
        e'.rest = new ∧ (c'.offset = c.offset → is' = is) := by
  induction h with
  | nil c =>
    intro c' hc'
    rw [upTo_self, List.nil_append] at hc'
    exact ⟨[], c', .nil c', rfl, hc', fun _ => rfl⟩
  | @cons c d e i is hi h ih =>
    intro c' hc'
    have hd := h.leads
    obtain ⟨hcd, hspan⟩ := leads_of_importStatement hi
    have hc₁ := hcd.trans hd
    have hshort := importStatement_length_lt hi
    have htrivia := isTrivia_upTo_skipTrivia
      (List.ne_nil_of_length_pos (Nat.lt_of_le_of_lt (Nat.zero_le _) hshort))
    have hgraft₀ : Grafted e new c c' := ⟨(leads_skipTrivia c).trans hc₁, hc'⟩
    rw [← (leads_skipTrivia c).upTo_append hc₁, List.append_assoc] at hc'
    have hrest := advance_rest_append hc'
    have hgraft₁ : Grafted e new c.skipTrivia (c'.advance (c.upTo c.skipTrivia).length) := ⟨hc₁, hrest⟩
    obtain ⟨i', d', hi', hnames, hgraft⟩ := importStatement_grafted hi hd hsemicolon hgraft₁
    obtain ⟨is', e', he', hnames', hnew, hsame⟩ := ih hgraft.rest
    have hskip : c'.skipTrivia = c'.advance (c.upTo c.skipTrivia).length := by
      obtain ⟨l, hl, ht⟩ := peek?_of_importStatement hi
      obtain ⟨r, hr⟩ := head_of_import hl ht
      obtain ⟨r', hr'⟩ := exists_cons_upTo hr hc₁ (Nat.lt_of_le_of_lt hd.length_le hshort)
      rw [htrivia c' _ hc']
      rw [hr', List.cons_append] at hrest
      exact skipTrivia_of_head hrest (by decide) (by decide)
    refine ⟨i' :: is', e', .cons (hskip ▸ hi') he', ?_, hnew, fun ho => ?_⟩
    · rw [List.map_cons, List.map_cons, hnames, hnames']
    · obtain ⟨hcd', hspan'⟩ := leads_of_importStatement hi'
      have hstart := hgraft₀.offset_eq hgraft₁ (leads_skipTrivia c) (leads_advance c' _) ho
      have hstop := hgraft₁.offset_eq hgraft hcd hcd' hstart
      rw [hsame hstop, Import.eq_of_names hnames]
      rw [hspan', hspan, span, span, hstart, hstop]

theorem prelude_grafted (hc : c.prelude = .ok (is, d)) (hne : d.rest ≠ [])
    (hends : EndsImports new) {c' : Cursor} (hc' : c'.rest = c.upTo d ++ new) :
    ∃ (is' : List Import) (e : Cursor), c'.prelude = .ok (is', e.skipTrivia) ∧
      is'.map Import.names = is.map Import.names ∧ e.rest = new := by
  obtain ⟨e, he, hend⟩ := readsImports_of_prelude hc
  obtain rfl := prelude_eq_nil hend
  have htrivia := isTrivia_upTo_skipTrivia hne
  have hskip := skipTrivia_append htrivia new
  rw [← he.leads.upTo_append (leads_skipTrivia e), List.append_assoc] at hc'
  obtain ⟨is', e', he', hnames, hrest, -⟩ := he.grafted (hskip ▸ hends.semicolon) hc'
  have hback := htrivia e' new hrest
  have hnew := advance_rest_append hrest
  refine ⟨is', _, ?_, hnames, hnew⟩
  have hnone := hends.no_import hnew
  rw [← hback] at hnone ⊢
  have hprelude := he'.prelude (prelude_nil hnone)
  rwa [List.append_nil] at hprelude

theorem skipTrivia_of_prelude (hc : c.prelude = .ok (is, d)) : d.skipTrivia = d := by
  obtain ⟨e, _, hend⟩ := readsImports_of_prelude hc
  rw [← prelude_eq_nil hend, skipTrivia_skipTrivia]

end Cursor

end PageEditor
