import PageEditor.Proofs.Markup.Progress

/-!
# What a token looks like

The characters that make up each token, and what may not stand behind it. A token that is written
so, behind blanks, is read back wherever it stands. Of what was read the same is shown of all tokens
but numbers, since no tag holds one.
-/
set_option autoImplicit false

namespace PageEditor

namespace Token

/-! ## Strings -/

/-- What stands between two quotes: no such quote alone, and behind a backslash any character but a
line feed. -/
inductive Escaped (quote : Char) : List Char → Prop
  | nil : Escaped quote []
  | plain {c : Char} {cs : List Char} (hquote : c ≠ quote) (hslash : c ≠ '\\')
      (hmore : Escaped quote cs) : Escaped quote (c :: cs)
  | pair {c : Char} {cs : List Char} (hfeed : c ≠ '\n') (hmore : Escaped quote cs) :
      Escaped quote ('\\' :: c :: cs)

instance decidableEscaped (quote : Char) : (cs : List Char) → Decidable (Escaped quote cs)
  | [] => .isTrue .nil
  | [c] =>
    decidable_of_iff (c ≠ quote ∧ c ≠ '\\')
      ⟨fun h => .plain h.1 h.2 .nil, fun h => by cases h with | plain h1 h2 => exact ⟨h1, h2⟩⟩
  | c :: d :: cs =>
    have := decidableEscaped quote (d :: cs)
    have := decidableEscaped quote cs
    decidable_of_iff ((c ≠ quote ∧ c ≠ '\\' ∧ Escaped quote (d :: cs)) ∨
        (c = '\\' ∧ d ≠ '\n' ∧ Escaped quote cs))
      ⟨fun h => h.elim (fun h => .plain h.1 h.2.1 h.2.2) (fun ⟨hc, hd, h⟩ => hc ▸ .pair hd h),
        fun h => by
          cases h with
          | plain h1 h2 h => exact .inl ⟨h1, h2, h⟩
          | pair h1 h => exact .inr ⟨rfl, h1, h⟩⟩

theorem stringBody_append {quote : Char} {body : List Char} (h : Escaped quote body)
    (hq : quote ≠ '\\') (rest : List Char) :
    stringBody quote (body ++ quote :: rest) = (some body, body.length + 1) := by
  induction h with
  | nil =>
    rw [List.nil_append]
    unfold stringBody
    split <;> simp_all
  | @plain c cs hquote hslash _ ih =>
    rw [List.cons_append, stringBody, if_neg hquote, ih]
    · rfl
    · intro h _
      exact hslash h
    · intro d r h _
      exact hslash h
  | @pair c cs hfeed _ ih =>
    rw [List.cons_append, List.cons_append, stringBody, if_neg hfeed, ih]
    rfl

theorem escaped_of_stringBody {quote : Char} {cs body : List Char} {n : Nat}
    (h : stringBody quote cs = (some body, n)) :
    Escaped quote body ∧ n = body.length + 1 ∧ ∃ rest, cs = body ++ quote :: rest := by
  fun_induction stringBody quote cs generalizing body n with
  | case1 => cases h
  | case2 => cases h
  | case3 => cases h
  | case4 c r hc inner m hr ih =>
    obtain ⟨hbody, hn⟩ := Prod.mk.inj h
    obtain ⟨b, rfl, rfl⟩ := Option.map_eq_some_iff.1 hbody
    obtain ⟨he, hm, rest, rfl⟩ := ih hr
    refine ⟨.pair hc he, ?_, rest, rfl⟩
    rw [← hn, hm]
    rfl
  | case5 r hslash _ =>
    cases h
    exact ⟨.nil, rfl, r, rfl⟩
  | case6 c r _ hpair hc inner m hr ih =>
    obtain ⟨hbody, hn⟩ := Prod.mk.inj h
    obtain ⟨b, rfl, rfl⟩ := Option.map_eq_some_iff.1 hbody
    obtain ⟨he, hm, rest, rfl⟩ := ih hr
    have hc' : c ≠ '\\' := by
      intro hc'
      cases b with
      | nil => exact hpair quote rest hc' rfl
      | cons d b => exact hpair d _ hc' rfl
    refine ⟨.plain hc hc' he, ?_, rest, rfl⟩
    rw [← hn, hm]
    rfl

/-! ## Names -/

/-- A name starts like one and goes on like one. -/
def IsName (cs : List Char) : Prop :=
  ∃ c r, cs = c :: r ∧ isIdentStart c = true ∧ r.all isIdentRest = true

instance (cs : List Char) : Decidable (IsName cs) :=
  match cs with
  | [] => .isFalse (by rintro ⟨_, _, ⟨⟩, _⟩)
  | c :: r =>
    decidable_of_iff (isIdentStart c = true ∧ r.all isIdentRest = true)
      ⟨fun h => ⟨c, r, rfl, h⟩, by rintro ⟨_, _, ⟨⟩, h⟩; exact h⟩

theorem isIdentStart_ne {c d : Char} (h : isIdentStart c = true) (hd : isIdentStart d = false) :
    c ≠ d := by
  rintro rfl
  rw [h] at hd
  cases hd

theorem takeWhile_append_of_head {p : Char → Bool} {front rest : List Char}
    (hfront : front.all p = true) (hrest : ∀ c, rest.head? = some c → p c = false) :
    (front ++ rest).takeWhile p = front := by
  rw [List.takeWhile_append_of_pos (fun c hc => List.all_eq_true.1 hfront c hc)]
  cases rest with
  | nil => simp
  | cons c r => rw [List.takeWhile_cons_of_neg (by simp [hrest c rfl]), List.append_nil]

/-! ## Numbers -/

/-- Digits, perhaps with a point between them and a sign in front. -/
def IsNumber (cs : List Char) : Prop :=
  ∃ ds, numberChars ds = ds ∧ ds ≠ [] ∧ (cs = ds ∨ cs = '-' :: ds)

theorem numberChars_cases {cs : List Char} (h : numberChars cs = cs) :
    cs.all Char.isDigit = true ∨ ∃ whole fraction, cs = whole ++ '.' :: fraction ∧
      whole ≠ [] ∧ whole.all Char.isDigit = true ∧ fraction ≠ [] ∧
      fraction.all Char.isDigit = true := by
  have hwhole : (cs.takeWhile Char.isDigit).all Char.isDigit = true := List.all_takeWhile
  simp only [numberChars] at h
  generalize cs.takeWhile Char.isDigit = whole at h hwhole
  split at h
  · rename_i d ds r _
    split at h
    · rw [← h]
      exact .inl hwhole
    · rename_i hfraction
      refine .inr ⟨d :: ds, _, h.symm, List.cons_ne_nil d ds, hwhole, ?_, List.all_takeWhile⟩
      simpa using hfraction
  · rw [← h]
    exact .inl hwhole

theorem numberChars_digits {cs rest : List Char} (h : cs.all Char.isDigit = true)
    (hrest : ∀ c, rest.head? = some c → c.isDigit = false ∧ c ≠ '.') :
    numberChars (cs ++ rest) = cs := by
  have htake : (cs ++ rest).takeWhile Char.isDigit = cs :=
    takeWhile_append_of_head h fun c hc => (hrest c hc).1
  rw [numberChars, htake]
  simp only [List.drop_left]
  split
  · rename_i r _
    exact ((hrest '.' rfl).2 rfl).elim
  · rfl

theorem numberChars_fraction {whole fraction rest : List Char} (hne : whole ≠ [])
    (hwhole : whole.all Char.isDigit = true) (hne' : fraction ≠ [])
    (hfraction : fraction.all Char.isDigit = true)
    (hrest : ∀ c, rest.head? = some c → c.isDigit = false) :
    numberChars (whole ++ '.' :: (fraction ++ rest)) = whole ++ '.' :: fraction := by
  have hpoint : ∀ c, ('.' :: (fraction ++ rest)).head? = some c → Char.isDigit c = false := by
    rintro _ ⟨⟩
    rfl
  have htake := takeWhile_append_of_head hwhole hpoint
  have htake' : (fraction ++ rest).takeWhile Char.isDigit = fraction :=
    takeWhile_append_of_head hfraction hrest
  have hempty : fraction.isEmpty = false := by simpa using hne'
  obtain ⟨d, ds, rfl⟩ := List.exists_cons_of_ne_nil hne
  rw [numberChars, htake]
  simp only [List.drop_left, htake', hempty]
  rfl

/-- What stands behind digits, with or without a point among them, is not read as more of them
when it begins with neither a digit nor a point. -/
theorem numberChars_append {cs rest : List Char} (h : numberChars cs = cs)
    (hrest : ∀ c, rest.head? = some c → c.isDigit = false ∧ c ≠ '.') :
    numberChars (cs ++ rest) = cs := by
  rcases numberChars_cases h with hcs | ⟨whole, fraction, rfl, hne, hwhole, hne', hfraction⟩
  · exact numberChars_digits hcs hrest
  · rw [List.append_assoc]
    exact numberChars_fraction hne hwhole hne' hfraction fun c hc => (hrest c hc).1

theorem isDigit_of_numberChars {c : Char} {r : List Char} (h : numberChars (c :: r) = c :: r) :
    c.isDigit = true := by
  cases hc : c.isDigit with
  | true => rfl
  | false =>
    rw [numberChars, List.takeWhile_cons_of_neg (by simp [hc])] at h
    cases h

theorem mem_digits {c : Char} (h : c.isDigit = true) : c ∈ "0123456789".toList := by
  simp only [Char.isDigit, Bool.and_eq_true, decide_eq_true_eq, UInt32.le_iff_toNat_le] at h
  have hlow : 48 ≤ c.toNat := h.1
  have hhigh : c.toNat ≤ 57 := h.2
  have hnat : ∀ n < 10, Char.ofNat (48 + n) ∈ "0123456789".toList := by decide
  have hmem := hnat (c.toNat - 48) (by omega)
  rwa [Nat.add_sub_cancel' hlow, Char.ofNat_toNat] at hmem

theorem isDigit_plain {c : Char} (h : c.isDigit = true) :
    isIdentStart c = false ∧ isSpace c = false := by
  have hall : "0123456789".toList.all (fun d => !isIdentStart d && !isSpace d) = true := by decide
  simpa using List.all_eq_true.1 hall c (mem_digits h)

theorem scan_digit {c : Char} {r : List Char} (hc : c.isDigit = true) :
    scan (c :: r) = (some (number (String.ofList (numberChars (c :: r)))),
      (numberChars (c :: r)).length) := by
  have hname := (isDigit_plain hc).1
  unfold scan
  split
  case h_16 =>
    rename_i h
    cases h
    rw [if_neg (by simp [hname]), if_pos hc]
  all_goals
    rename_i h
    cases h
    try exact absurd hc (by decide)

theorem scan_number {cs rest : List Char} (h : IsNumber cs)
    (hrest : ∀ c, rest.head? = some c → c.isDigit = false ∧ c ≠ '.') :
    scan (cs ++ rest) = (some (number (String.ofList cs)), cs.length) := by
  obtain ⟨ds, hds, hne, rfl | rfl⟩ := h
  · obtain ⟨c, r, rfl⟩ := List.exists_cons_of_ne_nil hne
    have happend := numberChars_append hds hrest
    rw [List.cons_append] at happend ⊢
    rw [scan_digit (isDigit_of_numberChars hds), happend]
  · have hempty : ds.isEmpty = false := by simpa using hne
    rw [List.cons_append, scan]
    simp only [numberChars_append hds hrest, hempty]
    rfl

/-! ## Proper tokens -/

/-- Whether the characters of a token are as they should be. -/
def IsProper : Token → Prop
  | ident name => IsName name.toList
  | string quote body => Escaped quote.char body.toList
  | number digits => IsNumber digits.toList
  | _ => True

/-- Whether a token ends where the text `rest` goes on. -/
def Ends : Token → List Char → Prop
  | less, rest => rest.head? ≠ some '/'
  | ident _, rest => ∀ c, rest.head? = some c → isIdentRest c = false
  | number _, rest => ∀ c, rest.head? = some c → c.isDigit = false ∧ c ≠ '.'
  | _, _ => True

theorem scan_ident {c : Char} {r : List Char} (hc : isIdentStart c = true) :
    scan (c :: r) = (some (ident (String.ofList (c :: r.takeWhile isIdentRest))),
      (c :: r.takeWhile isIdentRest).length) := by
  unfold scan
  split
  case h_16 =>
    rename_i h
    cases h
    rw [if_pos hc]
  all_goals
    rename_i h
    cases h
    try exact absurd hc (by decide)

theorem scan_quote (quote : Quote) (cs : List Char) :
    scan (quote.char :: cs) =
      ((stringBody quote.char cs).1.map fun b => string quote (String.ofList b),
        (stringBody quote.char cs).2 + 1) := by
  cases quote <;> rfl

theorem quote_ne_slash (quote : Quote) : quote.char ≠ '\\' := by
  cases quote <;> decide

/-- A token is read back where it is written. -/
theorem scan_append {t : Token} {rest : List Char} (ht : t.IsProper) (he : t.Ends rest) :
    scan (t.chars ++ rest) = (some t, t.chars.length) := by
  cases t with
  | less =>
    rw [chars, List.singleton_append, scan]
    · rfl
    · intro r hr
      rw [hr] at he
      exact he rfl
  | ident name =>
    obtain ⟨c, r, hname, hc, hr⟩ := ht
    rw [chars, hname, List.cons_append, scan_ident hc]
    have htake : (r ++ rest).takeWhile isIdentRest = r := takeWhile_append_of_head hr he
    rw [htake, ← hname, String.ofList_toList]
  | string quote body =>
    have hbody := stringBody_append ht (quote_ne_slash quote) rest
    rw [chars, List.append_assoc, List.cons_append, List.singleton_append, scan_quote, hbody,
      Option.map_some, String.ofList_toList]
    simp
  | number digits => rw [chars, scan_number ht he, String.ofList_toList]
  | _ => rfl

theorem isProper_of_quote (quote : Quote) {cs : List Char} {t : Token} {n : Nat}
    (h : ((stringBody quote.char cs).1.map fun b => string quote (String.ofList b),
      (stringBody quote.char cs).2 + 1) = (some t, n)) :
    t.IsProper ∧ n = t.chars.length ∧ ∃ rest, quote.char :: cs = t.chars ++ rest ∧ t.Ends rest := by
  obtain ⟨ht, hlen⟩ := Prod.mk.inj h
  obtain ⟨b, hb, rfl⟩ := Option.map_eq_some_iff.1 ht
  have hpair : stringBody quote.char cs = (some b, (stringBody quote.char cs).2) := Prod.ext hb rfl
  obtain ⟨hbody, hm, rest, hrest⟩ := escaped_of_stringBody hpair
  refine ⟨?_, ?_, rest, ?_, trivial⟩
  · rw [IsProper, String.toList_ofList]
    exact hbody
  · rw [← hlen, hm]
    simp [chars]
  · simp [chars, hrest]

theorem isProper_of_scan_ident {c : Char} {r : List Char} {t : Token} {n : Nat}
    (hc : isIdentStart c = true) (h : scan (c :: r) = (some t, n)) :
    t.IsProper ∧ n = t.chars.length ∧ ∃ rest, c :: r = t.chars ++ rest ∧ t.Ends rest := by
  rw [scan_ident hc] at h
  cases h
  refine ⟨⟨c, r.takeWhile isIdentRest, ?_, hc, List.all_takeWhile⟩, ?_,
    r.dropWhile isIdentRest, ?_, ?_⟩
  · rw [String.toList_ofList]
  · rw [chars, String.toList_ofList]
  · rw [chars, String.toList_ofList, List.cons_append, List.takeWhile_append_dropWhile]
  · intro d hd
    have hnot := List.head?_dropWhile_not isIdentRest r
    rw [hd] at hnot
    simpa using hnot

theorem isProper_of_scan {cs : List Char} {t : Token} {n : Nat} (h : scan cs = (some t, n))
    (hn : ∀ ds, t ≠ number ds) :
    t.IsProper ∧ n = t.chars.length ∧ ∃ rest, cs = t.chars ++ rest ∧ t.Ends rest := by
  by_cases hname : ∃ c r, cs = c :: r ∧ isIdentStart c = true
  · obtain ⟨c, r, rfl, hc⟩ := hname
    exact isProper_of_scan_ident hc h
  have hstart : ∀ c r, cs = c :: r → ¬isIdentStart c = true := fun c r hcs hc =>
    hname ⟨c, r, hcs, hc⟩
  unfold scan at h
  split at h
  case h_1 => cases h
  case h_3 r hr =>
    cases h
    refine ⟨trivial, rfl, r, rfl, ?_⟩
    intro hslash
    cases r with
    | nil => cases hslash
    | cons c r =>
      cases hslash
      exact hr r rfl
  case h_13 r => exact isProper_of_quote .double h
  case h_14 r => exact isProper_of_quote .single h
  case h_15 r =>
    simp only at h
    split at h
    · cases h
    · obtain ⟨ht, _⟩ := Prod.mk.inj h
      exact absurd (Option.some.inj ht).symm (hn _)
  case h_16 =>
    rw [if_neg (hstart _ _ rfl)] at h
    split at h
    · obtain ⟨ht, _⟩ := Prod.mk.inj h
      exact absurd (Option.some.inj ht).symm (hn _)
    · cases h
  all_goals
    cases h
    exact ⟨trivial, rfl, _, rfl, trivial⟩

end Token

namespace Cursor

open Token (isSpace)

/-! ## Tokens behind blanks -/

theorem head_chars_not_space {t : Token} (ht : t.IsProper) (c : Char)
    (h : t.chars.head? = some c) : isSpace c = false := by
  cases t with
  | ident name =>
    obtain ⟨d, r, hname, hd, _⟩ := ht
    rw [Token.chars, hname] at h
    cases h
    have hne : ∀ x, Token.isIdentStart x = false → c ≠ x := fun x => Token.isIdentStart_ne hd
    have h1 := hne ' ' (by decide)
    have h2 := hne '\t' (by decide)
    have h3 := hne '\r' (by decide)
    have h4 := hne '\n' (by decide)
    simp [isSpace, h1, h2, h3, h4]
  | string quote body =>
    cases h
    cases quote <;> decide
  | number digits =>
    obtain ⟨ds, hds, hne, hdigits | hdigits⟩ := ht
    · obtain ⟨d, r, rfl⟩ := List.exists_cons_of_ne_nil hne
      rw [Token.chars, hdigits] at h
      cases h
      exact (Token.isDigit_plain (Token.isDigit_of_numberChars hds)).2
    · rw [Token.chars, hdigits] at h
      cases h
      decide
  | _ =>
    cases h
    decide

theorem chars_ne_nil {t : Token} (ht : t.IsProper) : t.chars ≠ [] := by
  cases t with
  | ident name =>
    obtain ⟨d, r, hname, _⟩ := ht
    rw [Token.chars, hname]
    rintro ⟨⟩
  | number digits =>
    obtain ⟨ds, _, hne, hdigits | hdigits⟩ := ht
    · rwa [Token.chars, hdigits]
    · rw [Token.chars, hdigits]
      rintro ⟨⟩
  | _ => rintro ⟨⟩

theorem lex_append {t : Token} {rest : List Char} (o : Nat) (blanks : List Char)
    (hblanks : blanks.all isSpace = true) (ht : t.IsProper) (he : t.Ends rest) :
    ∃ s, lex ⟨o, blanks ++ (t.chars ++ rest)⟩ =
      .token t s ⟨o + Text.byteLength (blanks ++ t.chars), rest⟩ := by
  have hskip : skipSpace ⟨o, blanks ++ (t.chars ++ rest)⟩
      = ⟨o + Text.byteLength blanks, t.chars ++ rest⟩ := by
    have htake : (blanks ++ (t.chars ++ rest)).takeWhile isSpace = blanks := by
      refine Token.takeWhile_append_of_head hblanks fun c hc => head_chars_not_space ht c ?_
      cases hchars : t.chars with
      | nil => exact absurd hchars (chars_ne_nil ht)
      | cons d ds =>
        rw [hchars] at hc
        exact hc
    rw [skipSpace]
    simp only [htake]
    exact advance_append o blanks _
  have hempty : (t.chars ++ rest).isEmpty = false := by
    simp [chars_ne_nil ht]
  simp only [lex, hskip, hempty, Token.scan_append ht he]
  rw [advance_append, Text.byteLength_append, ← Nat.add_assoc]
  exact ⟨_, rfl⟩

theorem isProper_of_lex {c d : Cursor} {t : Token} {s : Span} (h : c.lex = .token t s d)
    (hn : ∀ ds, t ≠ .number ds) :
    t.IsProper ∧ t.Ends d.rest ∧ ∃ blanks, blanks.all isSpace = true ∧
      c.upTo d = blanks ++ t.chars := by
  simp only [lex] at h
  split at h
  · cases h
  · split at h
    · rename_i u hu
      cases h
      have hpair : Token.scan c.skipSpace.rest = (some t, (Token.scan c.skipSpace.rest).2) :=
        Prod.ext hu rfl
      obtain ⟨ht, hlen, rest, hrest, he⟩ := Token.isProper_of_scan hpair hn
      have hd : (c.skipSpace.advance (Token.scan c.skipSpace.rest).2).rest = rest := by
        rw [advance_rest, hlen, hrest, List.drop_left]
      refine ⟨ht, ?_, c.rest.takeWhile isSpace, List.all_takeWhile, ?_⟩
      · rw [hd]
        exact he
      · refine upTo_of_append ?_
        have hskip : c.skipSpace.rest = c.rest.dropWhile isSpace := advance_takeWhile_rest c _
        rw [hd, List.append_assoc, ← hrest, hskip, List.takeWhile_append_dropWhile]
    · cases h

theorem isName_of_ident {c d : Cursor} {e : Expectation} {name : String}
    (h : c.ident e = .ok (name, d)) : Token.IsName name.toList := by
  obtain ⟨l, hl, ht, _⟩ := ident_eq_ok.1 h
  have hlex := next_eq_ok.1 hl
  rw [ht] at hlex
  exact (isProper_of_lex hlex (by rintro _ ⟨⟩)).1

theorem isName_of_openTag {c d : Cursor} {tag : OpenTag} (h : c.openTag = .ok (tag, d)) :
    Token.IsName tag.name.toList := by
  obtain ⟨_, _, _, hname, _⟩ := openTag_eq_ok.1 h
  exact isName_of_ident hname

end Cursor

end PageEditor
