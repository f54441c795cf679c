import PageEditor.Proofs.Markup.Lexing

/-!
# Tags in other texts

How a tag is read depends on its own characters only: what a reader of tags has read in one text it
reads again wherever the same characters stand. A cursor is grafted when it stands in another text
that goes on alike up to the end of the tag and then with something new.
-/
set_option autoImplicit false

namespace PageEditor

/-! ## Groups in braces -/

/-- A piece of text that starts with a brace and ends with the one that closes it. -/
def IsGroup (cs : List Char) : Prop :=
  cs.head? = some '\x7b' ∧ bracedSize 0 .outside cs = some cs.length

instance (cs : List Char) : Decidable (IsGroup cs) :=
  inferInstanceAs (Decidable (_ ∧ _))

/-- The reader of braces does not look behind the brace that it stops at. -/
theorem bracedSize_take {depth : Nat} {state : BraceState} {cs : List Char} {n : Nat}
    (h : bracedSize depth state cs = some n) (rest : List Char) :
    n ≤ cs.length ∧ bracedSize depth state (cs.take n ++ rest) = some n := by
  fun_induction bracedSize depth state cs generalizing n with
  | case1 => cases h
  | case2 depth q c r ih =>
    obtain ⟨m, hm, rfl⟩ := Option.map_eq_some_iff.1 h
    obtain ⟨hle, hmore⟩ := ih hm
    refine ⟨Nat.succ_le_succ hle, ?_⟩
    simp [bracedSize, hmore]
  | case3 depth q r ih =>
    obtain ⟨m, hm, rfl⟩ := Option.map_eq_some_iff.1 h
    obtain ⟨hle, hmore⟩ := ih hm
    refine ⟨Nat.succ_le_succ hle, ?_⟩
    simp [bracedSize, hmore]
  | case4 depth c r hc ih =>
    obtain ⟨m, hm, rfl⟩ := Option.map_eq_some_iff.1 h
    obtain ⟨hle, hmore⟩ := ih hm
    refine ⟨Nat.succ_le_succ hle, ?_⟩
    simp [bracedSize, hmore, hc]
  | case5 depth q c r hslash hq ih =>
    obtain ⟨m, hm, rfl⟩ := Option.map_eq_some_iff.1 h
    obtain ⟨hle, hmore⟩ := ih hm
    refine ⟨Nat.succ_le_succ hle, ?_⟩
    simp [bracedSize, hmore, hslash, hq]
  | case6 depth c r hq ih =>
    obtain ⟨m, hm, rfl⟩ := Option.map_eq_some_iff.1 h
    obtain ⟨hle, hmore⟩ := ih hm
    refine ⟨Nat.succ_le_succ hle, ?_⟩
    simp [bracedSize, hmore, hq]
  | case7 depth r hq ih =>
    obtain ⟨m, hm, rfl⟩ := Option.map_eq_some_iff.1 h
    obtain ⟨hle, hmore⟩ := ih hm
    refine ⟨Nat.succ_le_succ hle, ?_⟩
    simp [bracedSize, hmore, hq]
  | case8 depth r hdepth hq hopen =>
    cases h
    refine ⟨Nat.succ_le_succ (Nat.zero_le _), ?_⟩
    simp [bracedSize, hq, hdepth]
  | case9 depth r hdepth hq hopen ih =>
    obtain ⟨m, hm, rfl⟩ := Option.map_eq_some_iff.1 h
    obtain ⟨hle, hmore⟩ := ih hm
    refine ⟨Nat.succ_le_succ hle, ?_⟩
    simp [bracedSize, hmore, hq, hdepth]
  | case10 depth c r hq hopen hclose ih =>
    obtain ⟨m, hm, rfl⟩ := Option.map_eq_some_iff.1 h
    obtain ⟨hle, hmore⟩ := ih hm
    refine ⟨Nat.succ_le_succ hle, ?_⟩
    simp [bracedSize, hmore, hq, hopen, hclose]

theorem IsGroup.bracedSize_append {cs : List Char} (h : IsGroup cs) (rest : List Char) :
    bracedSize 0 .outside (cs ++ rest) = some cs.length := by
  have htake := (bracedSize_take h.2 rest).2
  rwa [List.take_length] at htake

namespace Cursor

theorem isGroup_of_braced {c d : Cursor} {r : List Char} (hr : c.rest = '\x7b' :: r)
    (h : c.braced = .ok d) : IsGroup (c.upTo d) := by
  rw [braced] at h
  split at h
  · rename_i n hn
    cases h
    obtain ⟨hle, htake⟩ := bracedSize_take hn []
    have hpos := bracedSize_pos hn
    rw [upTo_advance c n hle]
    refine ⟨?_, ?_⟩
    · rw [hr, List.head?_take, if_neg (by omega)]
      rfl
    · rw [List.length_take_of_le hle, ← htake, List.append_nil]
  · cases h

theorem braced_of_isGroup {c : Cursor} {cs rest : List Char} (h : IsGroup cs)
    (hc : c.rest = cs ++ rest) : c.braced = .ok (c.advance cs.length) := by
  rw [braced, hc, h.bracedSize_append]

/-! ## Single steps -/

variable {c d e : Cursor} {l : Lexeme}

theorem lex_leftBrace {r : List Char} (h : c.skipSpace.rest = '\x7b' :: r) :
    c.lex = .token .leftBrace (c.skipSpace.span (c.skipSpace.advance 1)) (c.skipSpace.advance 1) := by
  simp only [lex, h, List.isEmpty_cons, Token.scan]
  rfl

theorem skipSpace_of_lex {t : Token} {s : Span} (h : c.lex = .token t s d)
    (hn : ∀ ds, t ≠ .number ds) : c.skipSpace.rest = t.chars ++ d.rest := by
  obtain ⟨ht, _, blanks, hblanks, hup⟩ := isProper_of_lex h hn
  have hrest := (leads_of_lex h).rest
  rw [hup] at hrest
  have hskip : c.skipSpace.rest = c.rest.dropWhile Token.isSpace := advance_takeWhile_rest c _
  rw [hskip, ← hrest, List.append_assoc, List.dropWhile_append_of_pos (List.all_eq_true.1 hblanks)]
  obtain ⟨x, r, hx⟩ := List.exists_cons_of_ne_nil (chars_ne_nil ht)
  have hsolid := head_chars_not_space ht x (by rw [hx]; rfl)
  rw [hx, List.cons_append, List.dropWhile_cons_of_neg (by simp [hsolid])]

theorem attributeValue_string {quote : Quote} {body : String} (hl : c.peek? = some l)
    (ht : l.token = .string quote body) : c.attributeValue = .ok (.literal body, l.next) := by
  rw [attributeValue, hl]
  simp only [ht]

theorem attributeValue_group {cs rest : List Char} (h : IsGroup cs)
    (hc : c.skipSpace.rest = cs ++ rest) :
    c.attributeValue =
      .ok (.expression (String.ofList cs), c.skipSpace.advance cs.length) := by
  obtain ⟨x, r, rfl⟩ : ∃ x r, cs = x :: r := by
    cases cs with
    | nil => cases h.1
    | cons x r => exact ⟨x, r, rfl⟩
  have hx : x = '\x7b' := Option.some.inj h.1
  subst hx
  have hup : c.skipSpace.upTo (c.skipSpace.advance ('\x7b' :: r).length) = '\x7b' :: r := by
    refine upTo_of_append ?_
    rw [advance_rest, hc, List.drop_left]
  rw [attributeValue, peek?, lex_leftBrace hc]
  simp only
  rw [braced_of_isGroup h hc]
  simp only [bind, Except.bind, hup]
  rfl

theorem valueAfterName_equals (hl : c.peek? = some l) (ht : l.token = .equals) :
    c.valueAfterName = l.next.attributeValue := by
  rw [valueAfterName, hl]
  simp only [ht, if_true]

theorem valueAfterName_flag (hl : c.peek? = some l) (ht : l.token ≠ .equals) :
    c.valueAfterName = .ok (.flag, c) := by
  rw [valueAfterName, hl]
  simp only [ht, if_false]

theorem attributes_greater (hl : c.next .attributeOrEnd = .ok l) (ht : l.token = .greater) :
    c.attributes = .ok ([], false, l.next) := by
  rw [attributes_eq, hl, ok_bind, ht]
  rfl

theorem attributes_selfClose (hl : c.next .attributeOrEnd = .ok l) (ht : l.token = .selfClose) :
    c.attributes = .ok ([], true, l.next) := by
  rw [attributes_eq, hl, ok_bind, ht]
  rfl

theorem attributes_ident {name : String} {v : AttributeValue} {more : List Attribute}
    {closed : Bool} (hl : c.next .attributeOrEnd = .ok l) (ht : l.token = .ident name)
    (hv : l.next.valueAfterName = .ok (v, d)) (hd : d.attributes = .ok (more, closed, e)) :
    c.attributes = .ok (⟨name, v⟩ :: more, closed, e) := by
  rw [attributes_eq, hl, ok_bind, ht]
  exact bind_eq_ok.2 ⟨_, hv, bind_eq_ok.2 ⟨_, hd, rfl⟩⟩

/-! ## Cursors in other texts -/

/-- `c'` stands in another text where `c` stands in its own: up to `e` both texts go on alike, and
there the other one goes on with `new`. -/
structure Grafted (e : Cursor) (new : List Char) (c c' : Cursor) : Prop where
  leads : c.Leads e
  rest : c'.rest = c.upTo e ++ new

variable {c' : Cursor} {new : List Char}

theorem Grafted.rest_eq (h : Grafted e new e c') : c'.rest = new := by
  rw [h.rest, upTo_self, List.nil_append]

/-- Between two places both texts go on alike, and so the offsets in them agree. -/
theorem Grafted.offset_eq {d' : Cursor} (h : Grafted e new c c') (h' : Grafted e new d d')
    (hcd : c.Leads d) (hcd' : c'.Leads d') (ho : c'.offset = c.offset) : d'.offset = d.offset := by
  have hup : c'.upTo d' = c.upTo d := by
    refine upTo_of_append ?_
    rw [h.rest, h'.rest, ← hcd.upTo_append h'.leads, List.append_assoc]
  rw [← hcd'.offset, ← hcd.offset, hup, ho]

theorem upTo_ne_nil (h : c.Leads e) (hlt : e.rest.length < c.rest.length) : c.upTo e ≠ [] := by
  intro hnil
  have hrest := h.rest
  rw [hnil, List.nil_append] at hrest
  rw [hrest] at hlt
  exact Nat.lt_irrefl _ hlt

theorem ends_append {t : Token} {front back : List Char} (h : t.Ends (front ++ back))
    (hne : front ≠ []) : t.Ends (front ++ new) := by
  cases front with
  | nil => exact absurd rfl hne
  | cons x r => cases t <;> exact h

theorem Grafted.lex {t : Token} {s : Span} (h : Grafted e new c c') (hlex : c.lex = .token t s d)
    (hn : ∀ ds, t ≠ .number ds) (hd : d.Leads e) (hends : d.upTo e = [] → t.Ends new) :
    ∃ s' d', c'.lex = .token t s' d' ∧ Grafted e new d d' := by
  obtain ⟨ht, he, blanks, hblanks, hcd⟩ := isProper_of_lex hlex hn
  have hrest : c'.rest = blanks ++ (t.chars ++ (d.upTo e ++ new)) := by
    rw [h.rest, ← (leads_of_lex hlex).upTo_append hd, hcd]
    simp only [List.append_assoc]
  have he' : t.Ends (d.upTo e ++ new) := by
    by_cases hnil : d.upTo e = []
    · rw [hnil]
      exact hends hnil
    · rw [← hd.rest] at he
      exact ends_append he hnil
  obtain ⟨s', hs'⟩ := lex_append c'.offset _ hblanks ht he'
  rw [← hrest] at hs'
  exact ⟨s', _, hs', hd, rfl⟩

theorem Grafted.peek? (h : Grafted e new c c') (hl : c.peek? = some l)
    (hn : ∀ ds, l.token ≠ .number ds) (hd : l.next.Leads e)
    (hends : l.next.upTo e = [] → l.token.Ends new) :
    ∃ l', c'.peek? = some l' ∧ l'.token = l.token ∧ Grafted e new l.next l'.next := by
  obtain ⟨s', d', hlex, hd'⟩ := h.lex (peek?_eq_some.1 hl) hn hd hends
  exact ⟨⟨l.token, s', d'⟩, peek?_eq_some.2 hlex, rfl, hd'⟩

theorem Grafted.next {x : Expectation} (h : Grafted e new c c') (hl : c.next x = .ok l)
    (hn : ∀ ds, l.token ≠ .number ds) (hd : l.next.Leads e)
    (hends : l.next.upTo e = [] → l.token.Ends new) :
    ∃ l', c'.next x = .ok l' ∧ l'.token = l.token ∧ Grafted e new l.next l'.next := by
  obtain ⟨s', d', hlex, hd'⟩ := h.lex (next_eq_ok.1 hl) hn hd hends
  exact ⟨⟨l.token, s', d'⟩, next_eq_ok.2 hlex, rfl, hd'⟩

theorem Grafted.skipSpace (h : Grafted e new c c') (hs : c.skipSpace.Leads e)
    (hne : c.skipSpace.upTo e ≠ []) : Grafted e new c.skipSpace c'.skipSpace := by
  refine ⟨hs, ?_⟩
  have hup : c.upTo e = c.rest.takeWhile Token.isSpace ++ c.skipSpace.upTo e := by
    rw [← (leads_skipSpace c).upTo_append hs]
    exact congrArg (· ++ _) (upTo_advance_takeWhile c _)
  have hskip : c.skipSpace.rest = c.rest.dropWhile Token.isSpace := advance_takeWhile_rest c _
  have hskip' : c'.skipSpace.rest = c'.rest.dropWhile Token.isSpace := advance_takeWhile_rest c' _
  rw [hskip', h.rest, hup, List.append_assoc,
    List.dropWhile_append_of_pos (List.all_eq_true.1 List.all_takeWhile)]
  have hhead := List.head?_dropWhile_not Token.isSpace c.rest
  rw [← hskip, ← hs.rest] at hhead
  cases hx : c.skipSpace.upTo e with
  | nil => exact absurd hx hne
  | cons x r =>
    rw [hx] at hhead
    rw [List.cons_append, List.dropWhile_cons_of_neg (by simpa using hhead)]

/-! ## Tags in other texts -/

theorem attributeValue_grafted {v : AttributeValue} (h : Grafted e new c c')
    (hv : c.attributeValue = .ok (v, d)) (hd : d.Leads e) :
    ∃ d', c'.attributeValue = .ok (v, d') ∧ Grafted e new d d' := by
  simp only [attributeValue] at hv
  split at hv
  · cases hv
  rename_i l hl
  split at hv
  · rename_i quote body ht
    cases hv
    obtain ⟨l', hl', ht', hd'⟩ := h.peek? hl (by rw [ht]; rintro _ ⟨⟩) hd
      (fun _ => by rw [ht]; trivial)
    exact ⟨l'.next, attributeValue_string hl' (ht'.trans ht), hd'⟩
  · rename_i ht
    obtain ⟨d', hbraced, hv⟩ := bind_eq_ok.1 hv
    cases hv
    have hlex := peek?_eq_some.1 hl
    rw [ht] at hlex
    have hbrace : c.skipSpace.rest = '\x7b' :: l.next.rest := skipSpace_of_lex hlex (by rintro _ ⟨⟩)
    have hgroup := isGroup_of_braced hbrace hbraced
    have hskip := leads_of_braced hbraced
    have hne : c.skipSpace.upTo e ≠ [] := by
      refine upTo_ne_nil (hskip.trans hd) (Nat.lt_of_le_of_lt ?_ (braced_length_lt hbraced))
      rw [← hd.rest, List.length_append]
      exact Nat.le_add_left _ _
    have hc' := (h.skipSpace (hskip.trans hd) hne).rest
    rw [← hskip.upTo_append hd, List.append_assoc] at hc'
    refine ⟨_, attributeValue_group hgroup hc', hd, ?_⟩
    rw [advance_rest, hc', List.drop_left]
  · cases hv

/-- The token that follows is one that attributes can start with. -/
theorem next_of_attributes {as : List Attribute} {closed : Bool}
    (h : c.attributes = .ok (as, closed, e)) :
    ∃ l, c.next .attributeOrEnd = .ok l ∧ l.token ≠ .equals ∧ (∀ ds, l.token ≠ .number ds) ∧
      l.next.Leads e ∧ (l.next.upTo e = [] → ∀ new, l.token.Ends new) := by
  rw [attributes_eq] at h
  obtain ⟨l, hl, h⟩ := bind_eq_ok.1 h
  refine ⟨l, hl, ?_⟩
  split at h
  · rename_i ht
    cases h
    rw [ht]
    exact ⟨(by rintro ⟨⟩), (by rintro _ ⟨⟩), Leads.refl _, fun _ _ => trivial⟩
  · rename_i ht
    cases h
    rw [ht]
    exact ⟨(by rintro ⟨⟩), (by rintro _ ⟨⟩), Leads.refl _, fun _ _ => trivial⟩
  · rename_i name ht
    obtain ⟨⟨v, d⟩, hv, h⟩ := bind_eq_ok.1 h
    obtain ⟨⟨more, closed', d'⟩, hd, h⟩ := bind_eq_ok.1 h
    cases h
    have hle := (leads_of_valueAfterName hv).trans (leads_of_attributes hd)
    rw [ht]
    refine ⟨(by rintro ⟨⟩), (by rintro _ ⟨⟩), hle, fun hnil => absurd hnil (upTo_ne_nil hle ?_)⟩
    exact Nat.lt_of_lt_of_le (attributes_length_lt hd) (valueAfterName_length_le hv)
  · cases h
  · cases h

theorem valueAfterName_grafted {v : AttributeValue} {as : List Attribute} {closed : Bool}
    (h : Grafted e new c c') (hv : c.valueAfterName = .ok (v, d))
    (hd : d.attributes = .ok (as, closed, e)) :
    ∃ d', c'.valueAfterName = .ok (v, d') ∧ Grafted e new d d' := by
  have hle := leads_of_attributes hd
  -- Without an equals sign nothing is taken, and what follows shows that there is none.
  have hflag : d = c → v = .flag → ∃ d', c'.valueAfterName = .ok (v, d') ∧ Grafted e new d d' := by
    rintro rfl rfl
    obtain ⟨l, hl, hne, hn, hnext, hends⟩ := next_of_attributes hd
    obtain ⟨l', hl', ht', _⟩ := h.peek? (peek?_eq_some.2 (next_eq_ok.1 hl)) hn hnext
      (fun hnil => hends hnil new)
    exact ⟨c', valueAfterName_flag hl' (ht' ▸ hne), h⟩
  simp only [valueAfterName] at hv
  split at hv
  · rename_i l hl
    split at hv
    · rename_i ht
      have hnext := (leads_of_attributeValue hv).trans hle
      obtain ⟨l', hl', ht', hd'⟩ := h.peek? hl (by rw [ht]; rintro _ ⟨⟩) hnext
        (fun _ => by rw [ht]; trivial)
      obtain ⟨d', hv', hgraft⟩ := attributeValue_grafted hd' hv hle
      refine ⟨d', ?_, hgraft⟩
      rw [valueAfterName_equals hl' (ht'.trans ht), hv']
    · cases hv
      exact hflag rfl rfl
  · cases hv
    exact hflag rfl rfl

theorem attributes_grafted {as : List Attribute} {closed : Bool}
    (hc : c.attributes = .ok (as, closed, e)) :
    ∀ {c' : Cursor}, Grafted e new c c' →
      ∃ e', c'.attributes = .ok (as, closed, e') ∧ e'.rest = new := by
  fun_induction attributes c generalizing as closed e with
  | case1 => cases hc
  | case2 c l hl ht =>
    cases hc
    intro c' h
    obtain ⟨l', hl', ht', hd'⟩ := h.next hl (by rw [ht]; rintro _ ⟨⟩) (Leads.refl _)
      (fun _ => by rw [ht]; trivial)
    exact ⟨_, attributes_greater hl' (ht'.trans ht), hd'.rest_eq⟩
  | case3 c l hl ht =>
    cases hc
    intro c' h
    obtain ⟨l', hl', ht', hd'⟩ := h.next hl (by rw [ht]; rintro _ ⟨⟩) (Leads.refl _)
      (fun _ => by rw [ht]; trivial)
    exact ⟨_, attributes_selfClose hl' (ht'.trans ht), hd'.rest_eq⟩
  | case4 => cases hc
  | case5 => cases hc
  | case6 c l hl name ht v d hv more closed' f hd ih =>
    cases hc
    intro c' h
    have hle := (leads_of_valueAfterName hv).trans (leads_of_attributes hd)
    have hne : l.next.upTo f ≠ [] := by
      refine upTo_ne_nil hle ?_
      exact Nat.lt_of_lt_of_le (attributes_length_lt hd) (valueAfterName_length_le hv)
    obtain ⟨l', hl', ht', hl''⟩ := h.next hl (by rw [ht]; rintro _ ⟨⟩) hle (absurd · hne)
    obtain ⟨d', hv', hd'⟩ := valueAfterName_grafted hl'' hv hd
    obtain ⟨e', he', hnew⟩ := ih hd hd'
    exact ⟨e', attributes_ident hl' (ht'.trans ht) hv' he', hnew⟩
  | case7 => cases hc
  | case8 => cases hc

/-- An open tag is read wherever it stands. -/
theorem openTag_grafted {tag : OpenTag} (hc : c.openTag = .ok (tag, e)) (h : Grafted e new c c') :
    ∃ e', c'.openTag = .ok (tag, e') ∧ e'.rest = new := by
  obtain ⟨l, d, hl, hname, has⟩ := openTag_eq_ok.1 hc
  obtain ⟨hl, ht⟩ := expect_eq_ok.1 hl
  obtain ⟨n, hn, hnt, rfl⟩ := ident_eq_ok.1 hname
  have hd := leads_of_attributes has
  have hle := (leads_of_next hn).trans hd
  have hlt := attributes_length_lt has
  obtain ⟨l', hl', ht', hl''⟩ := h.next hl (by rw [ht]; rintro _ ⟨⟩) hle
    (absurd · (upTo_ne_nil hle (Nat.lt_trans hlt (next_length_lt hn))))
  obtain ⟨n', hn', hnt', hn''⟩ := hl''.next hn (by rw [hnt]; rintro _ ⟨⟩) hd
    (absurd · (upTo_ne_nil hd hlt))
  obtain ⟨e', he', hnew⟩ := attributes_grafted has hn''
  refine ⟨e', openTag_eq_ok.2 ⟨l', n'.next, ?_, ?_, he'⟩, hnew⟩
  · exact expect_eq_ok.2 ⟨hl', ht'.trans ht⟩
  · exact ident_eq_ok.2 ⟨n', hn', hnt'.trans hnt, rfl⟩

theorem closeTag_grafted {name : String} (hc : c.closeTag name = .ok e) (h : Grafted e new c c') :
    ∃ e', c'.closeTag name = .ok e' ∧ e'.rest = new := by
  obtain ⟨l, n, g, hl, hn, hnt, hg, rfl⟩ := closeTag_eq_ok.1 hc
  obtain ⟨hl, ht⟩ := expect_eq_ok.1 hl
  obtain ⟨hg, hgt⟩ := expect_eq_ok.1 hg
  have hd := leads_of_next hg
  have hle := (leads_of_next hn).trans hd
  have hlt := next_length_lt hg
  obtain ⟨l', hl', ht', hl''⟩ := h.next hl (by rw [ht]; rintro _ ⟨⟩) hle
    (absurd · (upTo_ne_nil hle (Nat.lt_trans hlt (next_length_lt hn))))
  obtain ⟨n', hn', hnt', hn''⟩ := hl''.next hn (by rw [hnt]; rintro _ ⟨⟩) hd
    (absurd · (upTo_ne_nil hd hlt))
  obtain ⟨g', hg', hgt', hg''⟩ := hn''.next hg (by rw [hgt]; rintro _ ⟨⟩) (Leads.refl _)
    (fun _ => by rw [hgt]; trivial)
  refine ⟨g'.next, closeTag_eq_ok.2 ⟨l', n', g', ?_, hn', hnt'.trans hnt, ?_, rfl⟩, hg''.rest_eq⟩
  · exact expect_eq_ok.2 ⟨hl', ht'.trans ht⟩
  · exact expect_eq_ok.2 ⟨hg', hgt'.trans hgt⟩

end Cursor

end PageEditor
