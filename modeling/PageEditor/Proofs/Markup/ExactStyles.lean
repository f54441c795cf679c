import PageEditor.Proofs.Markup.Styles
import PageEditor.Proofs.Markup.Tags

/-!
# Styles that are printed without loss

A printed style object is read as the same style only if every key and every value of it is one token.
A text has to hold the colons of all entries that are read from it, and the text of a style holds no
more colons than its own entries have. So nothing but these entries is read from it, in their order,
and each key and each value is read where it was printed.
-/
set_option autoImplicit false

namespace PageEditor

open Cursor

/-! ## Tokens that were read -/

namespace Token

theorem numberChars_front (cs : List Char) :
    numberChars (numberChars cs) = numberChars cs ∧ ∃ rest, cs = numberChars cs ++ rest := by
  have hwhole : (cs.takeWhile Char.isDigit).all Char.isDigit = true := List.all_takeWhile
  have hsplit := List.prefix_iff_eq_append.1 (List.takeWhile_prefix (l := cs) Char.isDigit)
  have hdigits : numberChars (cs.takeWhile Char.isDigit ++ []) = cs.takeWhile Char.isDigit :=
    numberChars_digits hwhole (by rintro _ ⟨⟩)
  rw [List.append_nil] at hdigits
  generalize hcs : numberChars cs = ds
  simp only [numberChars] at hcs
  generalize cs.takeWhile Char.isDigit = whole at hwhole hsplit hdigits hcs
  split at hcs
  · rename_i d digits r hdrop
    rw [hdrop] at hsplit
    split at hcs
    · subst hcs
      exact ⟨hdigits, _, hsplit.symm⟩
    · rename_i hfraction
      have hne : r.takeWhile Char.isDigit ≠ [] := by simpa using hfraction
      have hall : numberChars (d :: digits ++ '.' :: (r.takeWhile Char.isDigit ++ [])) =
          d :: digits ++ '.' :: r.takeWhile Char.isDigit :=
        numberChars_fraction (List.cons_ne_nil d digits) hwhole hne List.all_takeWhile
          (by rintro _ ⟨⟩)
      rw [List.append_nil] at hall
      subst hcs
      refine ⟨hall, r.dropWhile Char.isDigit, ?_⟩
      have hr : '.' :: r = '.' :: r.takeWhile Char.isDigit ++ r.dropWhile Char.isDigit :=
        congrArg ('.' :: ·) List.takeWhile_append_dropWhile.symm
      rw [List.append_assoc, ← hr, hsplit]
  · subst hcs
    exact ⟨hdigits, _, hsplit.symm⟩

theorem isNumber_of_scan {cs : List Char} {digits : String} {n : Nat}
    (h : scan cs = (some (number digits), n)) :
    IsNumber digits.toList ∧ n = digits.toList.length ∧ ∃ rest, cs = digits.toList ++ rest := by
  unfold scan at h
  split at h
  case h_13 | h_14 =>
    obtain ⟨hstring, _⟩ := Prod.mk.inj h
    obtain ⟨_, _, hno⟩ := Option.map_eq_some_iff.1 hstring
    cases hno
  case h_15 r =>
    obtain ⟨hself, rest, hr⟩ := numberChars_front r
    simp only at h
    split at h
    · cases h
    · rename_i hne
      cases h
      rw [String.toList_ofList]
      exact ⟨⟨_, hself, by simpa using hne, .inr rfl⟩, rfl, rest, congrArg ('-' :: ·) hr⟩
  case h_16 c r _ _ _ _ _ _ _ _ _ _ _ _ _ _ =>
    split at h
    · cases h
    · split at h
      · rename_i hdigit
        obtain ⟨hself, rest, hr⟩ := numberChars_front (c :: r)
        cases h
        rw [String.toList_ofList]
        exact ⟨⟨_, hself, numberChars_ne_nil r hdigit, .inl rfl⟩, rfl, rest, hr⟩
      · cases h
  all_goals cases h

/-- A text between quotes ends at the first quote that no backslash stands in front of. -/
theorem Escaped.eq_of_append {q : Char} {a b r s : List Char} (ha : Escaped q a) (hb : Escaped q b)
    (hq : q ≠ '\\') (h : a ++ q :: r = b ++ q :: s) : a = b := by
  have hread := stringBody_append ha hq r
  rw [h, stringBody_append hb hq s] at hread
  exact (Option.some.inj (Prod.mk.inj hread).1).symm

/-- Behind a text without backslashes the quote would be alone. -/
theorem Escaped.false_of_quote {q : Char} {a r : List Char} (hslash : '\\' ∉ a) (hq : q ≠ '\\')
    (h : Escaped q (a ++ q :: r)) : False := by
  induction a with
  | nil =>
    rw [List.nil_append] at h
    cases h with
    | plain hquote => exact hquote rfl
    | pair => exact hq rfl
  | cons c a ih =>
    rw [List.mem_cons, not_or] at hslash
    rw [List.cons_append] at h
    generalize hback : a ++ q :: r = back at h
    cases h with
    | plain _ _ hmore => exact ih hslash.2 (hback ▸ hmore)
    | pair => exact hslash.1 rfl

end Token

namespace Cursor

theorem dropWhile_space (cs : List Char) :
    (' ' :: cs).dropWhile Token.isSpace = cs.dropWhile Token.isSpace :=
  rfl

theorem rest_of_lex {c d : Cursor} {t : Token} {s : Span} (h : c.lex = .token t s d) :
    t.IsProper ∧ c.rest.dropWhile Token.isSpace = t.chars ++ d.rest := by
  have hskip : c.skipSpace.rest = c.rest.dropWhile Token.isSpace := advance_takeWhile_rest c _
  rw [← hskip]
  by_cases hnumber : ∃ digits, t = .number digits
  · obtain ⟨digits, rfl⟩ := hnumber
    simp only [lex] at h
    split at h
    · cases h
    · split at h
      · rename_i u hu
        cases h
        have hpair : Token.scan c.skipSpace.rest =
            (some (.number digits), (Token.scan c.skipSpace.rest).2) := Prod.ext hu rfl
        obtain ⟨hproper, hlength, rest, hrest⟩ := Token.isNumber_of_scan hpair
        refine ⟨hproper, ?_⟩
        rw [advance_rest, hlength, Token.chars, hrest, List.drop_left]
      · cases h
  · have hn : ∀ digits, t ≠ .number digits := fun digits ht => hnumber ⟨digits, ht⟩
    exact ⟨(isProper_of_lex h hn).1, skipSpace_of_lex h hn⟩

theorem rest_of_peek? {c : Cursor} {l : Lexeme} (h : c.peek? = some l) :
    l.token.IsProper ∧ c.rest.dropWhile Token.isSpace = l.token.chars ++ l.next.rest :=
  rest_of_lex (peek?_eq_some.1 h)

end Cursor

namespace Value

/-! ## Strings that are clean -/

theorem clean_of_escape {c : Char} (h : Json.escape c = [c]) :
    c ≠ '"' ∧ c ≠ '\\' ∧ 32 ≤ c.toNat := by
  have hcontrol : ∀ n < 32, Json.escape (Char.ofNat n) ≠ [Char.ofNat n] := by decide
  refine ⟨?_, ?_, Nat.le_of_not_lt fun hlow => hcontrol c.toNat hlow (by rwa [Char.ofNat_toNat])⟩
  · rintro rfl
    exact absurd h (by decide)
  · rintro rfl
    exact absurd h (by decide)

theorem isClean_of_escape {s : String} (h : s.toList.flatMap Json.escape = s.toList) : IsClean s := by
  unfold IsClean
  generalize s.toList = cs at h
  induction cs with
  | nil => rintro _ ⟨⟩
  | cons c cs ih =>
    rw [List.flatMap_cons] at h
    have hlength := congrArg List.length h
    have hmore := length_le_flatMap_escape cs
    rw [List.length_append, List.length_cons] at hlength
    rcases escape_cases c with ⟨d, _, he⟩ | ⟨a, _, b, _, he⟩ | ⟨_, _, he⟩
    · rw [he, List.length_cons, List.length_singleton] at hlength
      omega
    · simp only [he, List.length_cons] at hlength
      omega
    · rw [he] at h
      exact List.forall_mem_cons.2 ⟨clean_of_escape he, ih (List.cons.inj h).2⟩

/-! ## Keys and values that were read -/

variable {t : Token} {key value : String} {back rest : List Char}

theorem isStyleKey_of_token (ht : t.IsProper) (hkey : t.styleKey? = some key)
    (h : styleKeyText key ++ back = t.chars ++ rest) :
    IsStyleKey key ∧ t.chars = styleKeyText key := by
  by_cases hplain : key ≠ "" ∧ key.toList.all isStyleNameChar = true
  · rw [styleKeyText, if_pos hplain] at h ⊢
    cases t with
    | ident name =>
      cases hkey
      exact ⟨.name ht hplain.2, rfl⟩
    | string quote body =>
      -- no plain name begins with a quote
      obtain ⟨c, r, hcs⟩ := List.exists_cons_of_ne_nil (show key.toList ≠ [] by simpa using hplain.1)
      rw [hcs] at h
      have hfirst := List.all_eq_true.1 hplain.2 c (hcs ▸ List.mem_cons_self)
      obtain rfl : c = quote.char := (List.cons.inj h).1
      cases quote <;> exact absurd hfirst (by decide)
    | _ => cases hkey
  · rw [styleKeyText, if_neg hplain] at h ⊢
    cases t with
    | ident name =>
      obtain ⟨c, r, hname, hc, _⟩ := ht
      rw [Token.chars, hname] at h
      obtain rfl : '"' = c := (List.cons.inj h).1
      exact absurd hc (by decide)
    | string quote body =>
      cases hkey
      obtain rfl : quote = .double := by
        have hquote : '"' = quote.char := (List.cons.inj h).1
        cases quote
        · exact absurd hquote (by decide)
        · rfl
      exact ⟨.string hplain ht, rfl⟩
    | _ => cases hkey

theorem isClean_of_string {quote : Quote} (ht : Token.Escaped quote.char value.toList)
    (h : (Json.quote value.toList ++ back).dropWhile Token.isSpace =
      (Token.string quote value).chars ++ rest) : IsClean value := by
  have hopen : (Json.quote value.toList ++ back).dropWhile Token.isSpace =
      '"' :: (value.toList.flatMap Json.escape ++ '"' :: back) := by
    simp [Json.quote, Token.isSpace]
  have hchars : (Token.string quote value).chars ++ rest =
      quote.char :: (value.toList ++ quote.char :: rest) := by simp [Token.chars]
  rw [hopen, hchars] at h
  obtain ⟨hquote, hbody⟩ := List.cons.inj h
  rw [← hquote] at ht hbody
  have hescaped : Token.Escaped '"' (value.toList.flatMap Json.escape) :=
    .flatMap fun c _ => escaped_escape c
  exact isClean_of_escape (hescaped.eq_of_append ht (by decide) hbody)

theorem exists_inside {value : String} (h : isExpression value = true) :
    value.toList = '\x7b' :: inside value ++ ['\x7d'] := by
  unfold isExpression at h
  split at h
  · rename_i c r hcs
    rw [inside, hcs, List.tail_cons, List.cons_append]
    have hlast := beq_iff_eq.1 h
    obtain ⟨front, hfront⟩ := List.getLast?_eq_some_iff.1 hlast
    rw [hfront, List.dropLast_concat]
  · cases h

/-- A string in braces, printed without them, is not read as that string: it would have to hold the
quote that it stands in. -/
theorem false_of_inside {quote : Quote} (ht : Token.Escaped quote.char value.toList)
    (hbraced : isExpression value = true)
    (hback : ∀ quote : Quote, (back.dropWhile Token.isSpace).head? ≠ some quote.char)
    (h : (inside value ++ back).dropWhile Token.isSpace = (Token.string quote value).chars ++ rest) :
    False := by
  have hvalue := exists_inside hbraced
  generalize inside value = inner at h hvalue
  have hinner : inner.takeWhile Token.isSpace ++ inner.dropWhile Token.isSpace = inner :=
    List.takeWhile_append_dropWhile
  have hspace : (inner.takeWhile Token.isSpace).all Token.isSpace = true := List.all_takeWhile
  rw [List.dropWhile_append] at h
  generalize inner.takeWhile Token.isSpace = front at hinner hspace
  cases hdrop : inner.dropWhile Token.isSpace with
  | nil =>
    rw [hdrop] at h
    exact hback quote (by simpa [Token.chars] using congrArg List.head? h)
  | cons c r =>
    rw [hdrop] at h hinner
    obtain rfl : c = quote.char := by
      simpa [Token.chars] using congrArg List.head? h
    have hfront : '\\' ∉ '\x7b' :: front := by
      rw [List.mem_cons, not_or]
      exact ⟨by decide, fun hmem => absurd (List.all_eq_true.1 hspace _ hmem) (by decide)⟩
    have hsplit : value.toList = ('\x7b' :: front) ++ quote.char :: (r ++ ['\x7d']) := by
      rw [hvalue, ← hinner]
      simp
    rw [hsplit] at ht
    exact ht.false_of_quote hfront (Token.quote_ne_slash quote)

theorem isStyleValue_of_token (ht : t.IsProper) (hvalue : t.styleValue? = some value)
    (hback : ∀ quote : Quote, (back.dropWhile Token.isSpace).head? ≠ some quote.char)
    (h : (styleValueText value ++ back).dropWhile Token.isSpace = t.chars ++ rest) :
    IsStyleValue value := by
  cases t with
  | number digits =>
    cases hvalue
    exact .number ht
  | ident name =>
    cases hvalue
    exact .name name ht rfl
  | string quote body =>
    have hkept : ofStyleString body = value := Option.some.inj hvalue
    unfold ofStyleString at hkept
    by_cases hnumeral : Decimal.isNumeral (Text.trim body.toList) = true
    · rw [if_pos hnumeral] at hkept
      subst hkept
      rw [styleValueText, quoted, if_pos (by exact isExpression_braced), inside_braced] at h
      exact .numeral body (isClean_of_string ht h) hnumeral rfl
    · rw [if_neg hnumeral] at hkept
      subst hkept
      have hraw : ¬ Decimal.isNumeral body.toList = true := by
        intro hraw
        rw [(Decimal.isSolid_of_isNumeral hraw).trim] at hnumeral
        exact hnumeral hraw
      cases hbraced : isExpression body with
      | false =>
        rw [styleValueText, if_neg (by simp [hbraced]), if_neg hraw] at h
        exact .string (isClean_of_string ht h) (by simpa using hnumeral) hbraced
      | true =>
        rw [styleValueText, if_pos hbraced] at h
        exact (false_of_inside ht hbraced hback h).elim
  | _ => cases hvalue

/-! ## Entries that were read -/

/-- The tokens of an entry that was read, up to the one behind it. -/
structure IsEntry (c : Cursor) (key value : String) (l m v last : Lexeme) : Prop where
  key : c.peek? = some l ∧ l.token.styleKey? = some key
  colon : l.next.peek? = some m ∧ m.token = .colon
  value : m.next.peek? = some v ∧ v.token.styleValue? = some value
  last : v.next.peek? = some last

theorem styleEntries_eq_some {c d : Cursor} {es : List (String × String)}
    (h : styleEntries c = some (es, d)) :
    es = [] ∨ ∃ key value more l m v last, es = (key, value) :: more ∧
      IsEntry c key value l m v last ∧ (more = [] ∨ styleEntries last.next = some (more, d)) := by
  rw [styleEntries_eq] at h
  obtain ⟨l, hl, h⟩ := Option.bind_eq_some_iff.1 h
  split at h
  · cases h
    exact .inl rfl
  obtain ⟨key, hkey, h⟩ := Option.bind_eq_some_iff.1 h
  obtain ⟨m, hm, h⟩ := Option.bind_eq_some_iff.1 h
  obtain ⟨v, hv, h⟩ := Option.bind_eq_some_iff.1 h
  obtain ⟨last, hlast, h⟩ := Option.bind_eq_some_iff.1 h
  obtain ⟨value, hvalue, h⟩ := Option.bind_eq_some_iff.1 h
  split at h
  · cases h
  rename_i ht
  have hentry : IsEntry c key value l m v last :=
    ⟨⟨hl, hkey⟩, ⟨hm, Decidable.not_not.1 ht⟩, ⟨hv, hvalue⟩, hlast⟩
  split at h
  · cases h
    exact .inr ⟨key, value, [], l, m, v, last, rfl, hentry, .inl rfl⟩
  split at h
  · obtain ⟨⟨more, e⟩, hmore, hes⟩ := Option.map_eq_some_iff.1 h
    cases hes
    exact .inr ⟨key, value, more, l, m, v, last, rfl, hentry, .inr hmore⟩
  · cases h

/-- What stands behind a value in front of these entries. -/
def behindValue : List (String × String) → List Char
  | [] => " \x7d".toList
  | e :: es => ", ".toList ++ styleText (e :: es) ++ " \x7d".toList

theorem styleText_cons (key value : String) (es : List (String × String)) :
    styleText ((key, value) :: es) ++ " \x7d".toList =
      styleKeyText key ++ (": ".toList ++ (styleValueText value ++ behindValue es)) := by
  cases es <;> simp [styleText, behindValue]

theorem behindValue_ne_quote (es : List (String × String)) (quote : Quote) :
    ((behindValue es).dropWhile Token.isSpace).head? ≠ some quote.char := by
  cases es <;> cases quote <;> simp [behindValue, Token.isSpace, Quote.char]

theorem dropWhile_styleKeyText (key : String) (back : List Char) :
    (styleKeyText key ++ back).dropWhile Token.isSpace = styleKeyText key ++ back := by
  by_cases hplain : key ≠ "" ∧ key.toList.all isStyleNameChar = true
  · obtain ⟨c, r, hcs⟩ := List.exists_cons_of_ne_nil (show key.toList ≠ [] by simpa using hplain.1)
    have hfirst := List.all_eq_true.1 hplain.2 c (hcs ▸ List.mem_cons_self)
    have hsolid : ¬ Token.isSpace c = true := by
      intro hspace
      simp only [Token.isSpace, Bool.or_eq_true, beq_iff_eq] at hspace
      rcases hspace with ((rfl | rfl) | rfl) | rfl <;> exact absurd hfirst (by decide)
    rw [styleKeyText, if_pos hplain, hcs, List.cons_append, List.dropWhile_cons_of_neg hsolid]
  · rw [styleKeyText, if_neg hplain]
    rfl

/-- Entries that are read from their own text have keys and values of one token each. -/
theorem areStyle_of_styleEntries (es : List (String × String)) :
    ∀ c d : Cursor, c.rest = ' ' :: (styleText es ++ " \x7d".toList) →
      styleEntries c = some (es, d) → AreStyle es := by
  induction es with
  | nil => exact fun _ _ _ _ => by rintro _ ⟨⟩
  | cons e es ih =>
    intro c d hc hread
    rcases styleEntries_eq_some hread with hnil | ⟨key, value, _, l, m, v, _, hcons, hentry, _⟩
    · cases hnil
    cases hcons
    rw [styleText_cons] at hc
    obtain ⟨hl, hlrest⟩ := rest_of_peek? hentry.key.1
    rw [hc, dropWhile_space, dropWhile_styleKeyText] at hlrest
    obtain ⟨hkey, hchars⟩ := isStyleKey_of_token hl hentry.key.2 hlrest
    rw [hchars, List.append_cancel_left_eq] at hlrest
    obtain ⟨_, hmrest⟩ := rest_of_peek? hentry.colon.1
    rw [← hlrest, hentry.colon.2] at hmrest
    have hcolon : ' ' :: (styleValueText value ++ behindValue es) = m.next.rest :=
      (List.cons.inj hmrest).2
    obtain ⟨hv, hvrest⟩ := rest_of_peek? hentry.value.1
    rw [← hcolon, dropWhile_space] at hvrest
    have hvalue := isStyleValue_of_token hv hentry.value.2 (behindValue_ne_quote es) hvrest
    refine List.forall_mem_cons.2 ⟨⟨hkey, hvalue⟩, ?_⟩
    cases es with
    | nil => rintro _ ⟨⟩
    | cons e' es =>
      obtain ⟨last, _, hback, hstep⟩ := styleEntries_entry hkey hvalue .comma trivial []
        (' ' :: (styleText (e' :: es) ++ " \x7d".toList)) trivial rfl (by rintro _ ⟨⟩; decide)
        (by rw [hc]; simp [behindValue, Token.chars])
      rw [hread, if_neg (by rintro ⟨⟩), if_pos rfl] at hstep
      obtain ⟨⟨more, d'⟩, hmore, hes⟩ := Option.map_eq_some_iff.1 hstep.symm
      cases hes
      exact ih last.next d' hback hmore

/-! ## Marks -/

/-- The characters that are counted. Both are written for themselves only in strings, and no brace, quote,
comma or blank is one of them. -/
def IsMark (x : Char) : Prop := x = ':' ∨ x = '>'

/-- How often a text needs to hold `x` from which these entries are read. A colon stands behind each
key. -/
def marksOf (x : Char) : List (String × String) → Nat
  | [] => 0
  | e :: es => e.1.toList.count x + e.2.toList.count x + [':'].count x + marksOf x es

section Marks

variable {x : Char}

theorem marksOf_append (es es' : List (String × String)) :
    marksOf x (es ++ es') = marksOf x es + marksOf x es' := by
  induction es with
  | nil => exact (Nat.zero_add _).symm
  | cons e es ih =>
    rw [List.cons_append, marksOf, marksOf, ih]
    omega

theorem count_escape (hx : IsMark x) (c : Char) : (Json.escape c).count x = [c].count x := by
  have hhex : ∀ n < 16, Text.hexDigit n ≠ x := by rcases hx with rfl | rfl <;> decide
  have hletters : x ∉ ['"', '\\', 'n', 'r', 't', 'b', 'f', 'u', '0'] := by
    rcases hx with rfl | rfl <;> decide
  simp only [List.mem_cons, List.not_mem_nil, or_false, not_or] at hletters
  by_cases hc : c = x
  · subst hc
    rcases hx with rfl | rfl <;> rfl
  have hself : [c].count x = 0 := List.count_eq_zero_of_not_mem (by simpa using Ne.symm hc)
  rw [hself]
  refine List.count_eq_zero_of_not_mem fun hmem => ?_
  rcases escape_cases c with ⟨d, hd, h⟩ | ⟨a, ha, b, hb, h⟩ | ⟨_, _, h⟩
  · simp only [h, List.mem_cons, List.not_mem_nil, or_false] at hmem
    rcases hmem with hmem | rfl
    · exact hletters.2.1 hmem
    · simp only [List.mem_cons, List.not_mem_nil, or_false] at hd
      simp only [hletters, or_self] at hd
  · simp [h, hletters, (hhex a ha).symm, (hhex b hb).symm] at hmem
  · rw [h, List.mem_singleton] at hmem
    exact hc hmem.symm

theorem count_quote (hx : IsMark x) (cs : List Char) : (Json.quote cs).count x = cs.count x := by
  have hescape : (cs.flatMap Json.escape).count x = cs.count x := by
    induction cs with
    | nil => rfl
    | cons c cs ih =>
      rw [List.flatMap_cons, List.count_append, count_escape hx, ih, ← List.count_append]
      rfl
  rcases hx with rfl | rfl <;> simp [Json.quote, hescape]

theorem count_styleKeyText (hx : IsMark x) (key : String) :
    (styleKeyText key).count x = key.toList.count x := by
  unfold styleKeyText
  rcases hx with rfl | rfl <;> split <;> simp

theorem count_styleValueText (hx : IsMark x) (value : String) :
    (styleValueText value).count x ≤ value.toList.count x := by
  unfold styleValueText
  split
  · exact ((List.dropLast_sublist _).trans (List.tail_sublist _)).count_le x
  split
  · exact Nat.le_refl _
  · exact Nat.le_of_eq (count_quote hx _)

/-- The text of a style has no marks but those of its entries. -/
theorem count_styleText (hx : IsMark x) (es : List (String × String)) :
    (styleText es ++ " \x7d".toList).count x ≤ marksOf x es := by
  have hends : (" \x7d".toList).count x = 0 := by rcases hx with rfl | rfl <;> decide
  have hcomma : (", ".toList).count x = 0 := by rcases hx with rfl | rfl <;> decide
  have hcolon : (": ".toList).count x = [':'].count x := by rcases hx with rfl | rfl <;> rfl
  induction es with
  | nil => exact Nat.le_of_eq hends
  | cons e es ih =>
    obtain ⟨key, value⟩ := e
    have hvalue := count_styleValueText hx value
    have hbehind : (behindValue es).count x ≤ marksOf x es := by
      cases es with
      | nil => exact Nat.le_of_eq hends
      | cons e' es =>
        rw [behindValue, List.append_assoc, List.count_append, hcomma, Nat.zero_add]
        exact ih
    rw [styleText_cons, marksOf]
    simp only [List.count_append, count_styleKeyText hx, hcolon]
    omega

theorem count_styleKey? {t : Token} {key : String} (h : t.styleKey? = some key) :
    key.toList.count x ≤ t.chars.count x := by
  cases t with
  | ident name =>
    cases h
    exact Nat.le_refl _
  | string quote body =>
    cases h
    simp only [Token.chars, List.count_append, List.count_cons]
    omega
  | _ => cases h

theorem count_quoted (hx : IsMark x) (s : String) :
    (quoted s).toList.count x = s.toList.count x := by
  have hquote := count_quote hx s.toList
  rcases hx with rfl | rfl <;> simp [quoted, braced, hquote]

theorem count_styleValue? (hx : IsMark x) {t : Token} {value : String}
    (h : t.styleValue? = some value) : value.toList.count x ≤ t.chars.count x := by
  cases t with
  | number digits =>
    cases h
    exact Nat.le_refl _
  | ident name =>
    cases h
    rcases hx with rfl | rfl <;> simp [braced, Token.chars]
  | string quote body =>
    have hkept : value.toList.count x = body.toList.count x := by
      cases h
      unfold ofStyleString
      split
      · exact count_quoted hx body
      · rfl
    simp only [Token.chars, List.count_append, List.count_cons]
    omega
  | _ => cases h

theorem count_of_peek? {c : Cursor} {l : Lexeme} (h : c.peek? = some l) :
    l.token.chars.count x + l.next.rest.count x ≤ c.rest.count x := by
  rw [← List.count_append, ← (rest_of_peek? h).2]
  exact (List.dropWhile_sublist _).count_le x

/-- A text has the marks of all entries that are read from it. -/
theorem marksOf_le_of_styleEntries (hx : IsMark x) (es : List (String × String)) :
    ∀ c d : Cursor, styleEntries c = some (es, d) → marksOf x es ≤ c.rest.count x := by
  induction es with
  | nil => exact fun _ _ _ => Nat.zero_le _
  | cons e es ih =>
    intro c d h
    rcases styleEntries_eq_some h with hnil | ⟨key, value, _, l, m, v, last, hcons, hentry, hmore⟩
    · cases hnil
    cases hcons
    have hkey := count_styleKey? (x := x) hentry.key.2
    have hvalue := count_styleValue? hx hentry.value.2
    have hl := count_of_peek? (x := x) hentry.key.1
    have hm := count_of_peek? (x := x) hentry.colon.1
    have hv := count_of_peek? (x := x) hentry.value.1
    have hlast := count_of_peek? (x := x) hentry.last
    have hcolon : m.token.chars.count x = [':'].count x := by
      rw [hentry.colon.2]
      rfl
    have hbehind : marksOf x es ≤ last.next.rest.count x := by
      rcases hmore with rfl | hmore
      · exact Nat.zero_le _
      · exact ih last.next d hmore
    rw [marksOf]
    simp only
    omega

end Marks

/-! ## Maps -/

theorem marksOf_put_le {x : Char} (k v : String) (es : List (String × String)) :
    marksOf x (Entries.put k v es) ≤ marksOf x es + marksOf x [(k, v)] := by
  induction es with
  | nil => exact Nat.le_add_left _ _
  | cons e es ih =>
    rw [Entries.put]
    split
    · simp only [marksOf]
      omega
    · simp only [marksOf] at ih ⊢
      omega

theorem insertAll_cons (k v : String) (es : List (String × String)) (m : OrderedMap String) :
    m.insertAll ((k, v) :: es) = (m.insert k v).insertAll es :=
  rfl

theorem marksOf_insertAll_le {x : Char} (es : List (String × String)) : ∀ m : OrderedMap String,
    marksOf x (m.insertAll es).entries ≤ marksOf x m.entries + marksOf x es := by
  induction es with
  | nil => exact fun m => Nat.le_add_right _ _
  | cons e es ih =>
    intro m
    obtain ⟨k, v⟩ := e
    have hmore := ih (m.insert k v)
    have hput : marksOf x (m.insert k v).entries ≤ _ := marksOf_put_le k v m.entries
    have hsplit := marksOf_append (x := x) [(k, v)] es
    rw [List.singleton_append] at hsplit
    rw [insertAll_cons]
    omega

theorem marksOf_put_lt {k v : String} {es : List (String × String)} (h : k ∈ es.map Prod.fst) :
    marksOf ':' (Entries.put k v es) < marksOf ':' es + marksOf ':' [(k, v)] := by
  have hcolon : [':'].count ':' = 1 := rfl
  induction es with
  | nil => cases h
  | cons e es ih =>
    rw [Entries.put]
    split
    · simp only [marksOf]
      omega
    · rename_i hne
      have hmore := ih ((List.mem_cons.1 h).resolve_left (Ne.symm hne))
      simp only [marksOf] at hmore ⊢
      omega

theorem entries_insertAll_of_marks (es : List (String × String)) : ∀ m : OrderedMap String,
    marksOf ':' m.entries + marksOf ':' es ≤ marksOf ':' (m.insertAll es).entries →
      (m.insertAll es).entries = m.entries ++ es := by
  induction es with
  | nil => exact fun m _ => (List.append_nil _).symm
  | cons e es ih =>
    intro m h
    obtain ⟨k, v⟩ := e
    have hmore := marksOf_insertAll_le (x := ':') es (m.insert k v)
    have hsplit := marksOf_append (x := ':') [(k, v)] es
    rw [List.singleton_append] at hsplit
    rw [insertAll_cons] at h ⊢
    have hnew : k ∉ m.entries.map Prod.fst := by
      intro hmem
      have hput : marksOf ':' (m.insert k v).entries < _ := marksOf_put_lt (v := v) hmem
      omega
    have hinsert : (m.insert k v).entries = m.entries ++ [(k, v)] := Entries.put_of_notMem hnew
    have hcolons := marksOf_append (x := ':') m.entries [(k, v)]
    rw [ih _ (by rw [hinsert]; omega), hinsert, List.append_assoc, List.singleton_append]

/-- Entries that are read from the text of a map, and are that map again, are its own entries. -/
theorem eq_of_styleEntries {m : OrderedMap String} {c d : Cursor} {es : List (String × String)}
    (hc : c.rest = ' ' :: (styleText m.entries ++ " \x7d".toList))
    (hread : styleEntries c = some (es, d)) (hm : .ofList es = m) : m.entries = es := by
  have hneeded := marksOf_le_of_styleEntries (.inl rfl) es c d hread
  have hprinted := count_styleText (.inl rfl) m.entries
  have hsame := entries_insertAll_of_marks es .empty
  have hnone : marksOf ':' (OrderedMap.empty : OrderedMap String).entries = 0 := rfl
  have hlist : (OrderedMap.empty : OrderedMap String).insertAll es = m := hm
  rw [hc, List.count_cons_of_ne (by decide)] at hneeded
  rw [hlist, hnone] at hsame
  exact hsame (by omega)

end Value

/-! ## Style objects -/

/-- A printed style object is read as the style just if its keys and values are one token each. -/
theorem Fields.styleObject?_styleGroup_iff {f : Fields} (hne : f.style.isEmpty = false) :
    Value.styleObject? (String.ofList f.styleGroup) = some f.style ↔
      Value.AreStyle f.style.entries := by
  constructor
  · intro h
    rw [styleObject?_eq] at h
    obtain ⟨⟨es, d⟩, hread, h⟩ := Option.bind_eq_some_iff.1 h
    split at h
    · have hsame := Value.eq_of_styleEntries rfl hread (Option.some.inj h)
      subst hsame
      exact Value.areStyle_of_styleEntries _ _ d rfl hread
    · cases h
  · intro h
    have hread := styleObject?_styleGroup hne h
    rwa [OrderedMap.ofList_entries] at hread

end PageEditor
