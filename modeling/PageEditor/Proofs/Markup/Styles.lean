import PageEditor.Proofs.Decimal.Numerals
import PageEditor.Proofs.Markup.Printed

/-!
# Style objects

A style object is printed as a row of tokens: a key, a colon and a value for each entry, with commas
between them. When every key and every value is one token, what is printed is a group in braces, and
it is read as the same entries in the same order.
-/
set_option autoImplicit false

namespace PageEditor

open Cursor

/-! ## Texts that braces do not count in -/

/-- A text that the reader of braces passes with as many braces open as before. -/
def IsPassed (cs : List Char) : Prop :=
  ∀ depth rest, bracedSize depth .outside (cs ++ rest) =
    (bracedSize depth .outside rest).map (· + cs.length)

theorem isPassed_nil : IsPassed [] := by
  intro depth rest
  simp

theorem IsPassed.append {a b : List Char} (ha : IsPassed a) (hb : IsPassed b) :
    IsPassed (a ++ b) := by
  intro depth rest
  rw [List.append_assoc, ha, hb, Option.map_map, List.length_append]
  congr 1
  funext n
  simp only [Function.comp]
  omega

/-- A character that neither quotes nor counts. -/
def isBraceFree (c : Char) : Bool := !isQuote c && c != '\x7b' && c != '\x7d'

theorem bracedSize_outside {c : Char} (hfree : isBraceFree c = true) (depth : Nat)
    (cs : List Char) :
    bracedSize depth .outside (c :: cs) = (bracedSize depth .outside cs).map (· + 1) := by
  simp only [isBraceFree, Bool.and_eq_true, Bool.not_eq_true', bne_iff_ne] at hfree
  obtain ⟨⟨hquote, hopen⟩, hclose⟩ := hfree
  rw [bracedSize, if_neg (by simp [hquote]), if_neg hopen, if_neg hclose]

theorem isPassed_of_all {cs : List Char} (h : cs.all isBraceFree = true) : IsPassed cs := by
  induction cs with
  | nil => exact isPassed_nil
  | cons c cs ih =>
    rw [List.all_cons, Bool.and_eq_true] at h
    intro depth rest
    rw [List.cons_append, bracedSize_outside h.1, ih h.2, Option.map_map]
    rfl

theorem isPassed_string (quote : Quote) {body : List Char} (h : Token.Escaped quote.char body) :
    IsPassed (quote.char :: body ++ [quote.char]) := by
  intro depth rest
  have hquote : isQuote quote.char = true := by cases quote <;> rfl
  have hsize := bracedSize_quoted h.isQuoted (Token.quote_ne_slash quote) depth rest
  have hopen : quote.char :: body ++ [quote.char] ++ rest =
      quote.char :: (body ++ quote.char :: rest) := by simp
  rw [hopen, bracedSize, if_pos hquote, hsize, Option.map_map]
  congr 1
  funext n
  simp only [Function.comp, List.length_append, List.length_cons, List.length_nil]
  omega

theorem isBraceFree_of_isIdentRest {c : Char} (h : Token.isIdentRest c = true) :
    isBraceFree c = true := by
  have hne : ∀ d, Token.isIdentRest d = false → c ≠ d := by
    rintro d hd rfl
    rw [h] at hd
    cases hd
  have h1 := hne '"' (by decide)
  have h2 := hne '\'' (by decide)
  have h3 := hne '\x60' (by decide)
  have h4 := hne '\x7b' (by decide)
  have h5 := hne '\x7d' (by decide)
  simp [isBraceFree, isQuote, h1, h2, h3, h4, h5]

theorem isIdentRest_of_isNumber {cs : List Char} (h : Token.IsNumber cs) :
    cs.all Token.isIdentRest = true := by
  have hdigit : ∀ {ds : List Char}, ds.all Char.isDigit = true →
      ds.all Token.isIdentRest = true := by
    intro ds hds
    refine List.all_eq_true.2 fun c hc => ?_
    simp [Token.isIdentRest, List.all_eq_true.1 hds c hc]
  obtain ⟨ds, hds, -, hcs⟩ := h
  have hall : ds.all Token.isIdentRest = true := by
    rcases Token.numberChars_cases hds with hds | ⟨whole, fraction, rfl, -, hwhole, -, hfraction⟩
    · exact hdigit hds
    · rw [List.all_append, List.all_cons, hdigit hwhole, hdigit hfraction]
      rfl
  rcases hcs with rfl | rfl
  · exact hall
  · rw [List.all_cons, hall]
    rfl

/-- A name, a number or a string. -/
def Token.IsWord : Token → Prop
  | ident _ => True
  | number _ => True
  | string _ _ => True
  | _ => False

theorem isPassed_word {t : Token} (hword : t.IsWord) (ht : t.IsProper) : IsPassed t.chars := by
  have hfree : ∀ {cs : List Char}, cs.all Token.isIdentRest = true → IsPassed cs := fun hcs =>
    isPassed_of_all (List.all_eq_true.2 fun c hc =>
      isBraceFree_of_isIdentRest (List.all_eq_true.1 hcs c hc))
  cases t with
  | ident name =>
    obtain ⟨c, r, hname, hc, hr⟩ := ht
    refine hfree ?_
    rw [Token.chars, hname, List.all_cons, hr, Token.isIdentRest, hc]
    rfl
  | number digits => exact hfree (isIdentRest_of_isNumber ht)
  | string quote body => exact isPassed_string quote ht
  | _ => exact hword.elim

/-! ## Keys and values -/

namespace Token

/-- The key that a token is read as. -/
def styleKey? : Token → Option String
  | ident name => some name
  | string _ body => some body
  | _ => none

/-- The value that a token is read as. -/
def styleValue? : Token → Option String
  | string _ body => some (Value.ofStyleString body)
  | number digits => some digits
  | ident name => some (Value.braced name.toList)
  | _ => none

end Token

namespace Value

/-- A string that is written between quotes as it is. -/
def IsClean (s : String) : Prop := ∀ c ∈ s.toList, c ≠ '"' ∧ c ≠ '\\' ∧ 32 ≤ c.toNat

theorem isClean_of_all {s : String}
    (h : s.toList.all (fun c => c != '"' && c != '\\' && decide (32 ≤ c.toNat)) = true) :
    IsClean s := by
  intro c hc
  have hchar := List.all_eq_true.1 h c hc
  simp only [Bool.and_eq_true, bne_iff_ne, decide_eq_true_eq] at hchar
  exact ⟨hchar.1.1, hchar.1.2, hchar.2⟩

theorem escape_of_clean {c : Char} (hquote : c ≠ '"') (hslash : c ≠ '\\') (hcontrol : 32 ≤ c.toNat) :
    Json.escape c = [c] := by
  have hne : ∀ d : Char, d.toNat < 32 → c ≠ d := by
    rintro d hd rfl
    omega
  rw [Json.escape, if_neg hquote, if_neg hslash, if_neg (hne '\n' (by decide)),
    if_neg (hne '\r' (by decide)), if_neg (hne '\t' (by decide)), if_neg (by omega),
    if_neg (by omega), if_neg (by omega)]

theorem IsClean.quote {s : String} (h : IsClean s) :
    Json.quote s.toList = (Token.string .double s).chars := by
  have hescape : s.toList.flatMap Json.escape = s.toList := by
    unfold IsClean at h
    generalize s.toList = cs at h
    induction cs with
    | nil => rfl
    | cons c cs ih =>
      obtain ⟨hquote, hslash, hcontrol⟩ := h c List.mem_cons_self
      rw [List.flatMap_cons, escape_of_clean hquote hslash hcontrol,
        ih fun x hx => h x (List.mem_cons_of_mem c hx)]
      rfl
  rw [Json.quote, hescape]
  rfl

theorem IsClean.escaped {s : String} (h : IsClean s) : Token.Escaped '"' s.toList :=
  .of_plain (fun hmem => (h _ hmem).1 rfl) fun hmem => (h _ hmem).2.1 rfl

/-- A key that is a name, or that is none and can stand between quotes. -/
inductive IsStyleKey (key : String) : Prop
  | name (hname : Token.IsName key.toList) (hplain : key.toList.all isStyleNameChar = true)
  | string (hplain : ¬ (key ≠ "" ∧ key.toList.all isStyleNameChar = true))
      (hescaped : Token.Escaped '"' key.toList)

/-- A value that is one token when it is printed and that is kept for this token: a number, a name
in braces, a number that keeps its quotes, or a string that is neither a number nor in braces. -/
inductive IsStyleValue (value : String) : Prop
  | number (hnumber : Token.IsNumber value.toList)
  | name (name : String) (hname : Token.IsName name.toList) (hvalue : value = braced name.toList)
  | numeral (s : String) (hclean : IsClean s)
      (hnumeral : Decimal.isNumeral (Text.trim s.toList) = true) (hvalue : value = quoted s)
  | string (hclean : IsClean value) (hnumeral : Decimal.isNumeral (Text.trim value.toList) = false)
      (hbraced : isExpression value = false)

theorem token_of_styleKey {key : String} (h : IsStyleKey key) :
    ∃ t : Token, t.chars = styleKeyText key ∧ t.IsProper ∧ t.IsWord ∧ t.styleKey? = some key := by
  cases h with
  | name hname hplain =>
    have hne : key ≠ "" := by
      rintro rfl
      obtain ⟨_, _, hnil, _⟩ := hname
      cases hnil
    refine ⟨.ident key, ?_, hname, trivial, rfl⟩
    rw [styleKeyText, if_pos ⟨hne, hplain⟩]
    rfl
  | string hplain hescaped =>
    refine ⟨.string .double key, ?_, hescaped, trivial, rfl⟩
    rw [styleKeyText, if_neg hplain]
    rfl

theorem isExpression_braced {c : Char} {r : List Char} : isExpression (braced (c :: r)) = true := by
  have hlast : (c :: r ++ ['\x7d']).getLast? = some '\x7d' := List.getLast?_concat
  rw [isExpression, braced, String.toList_ofList]
  simp only [List.cons_append] at hlast ⊢
  rw [hlast]
  rfl

theorem inside_braced (cs : List Char) : inside (braced cs) = cs := by
  rw [inside, braced, String.toList_ofList]
  simp

theorem isExpression_of_isNumber {value : String} (h : Token.IsNumber value.toList) :
    isExpression value = false := by
  unfold isExpression
  split
  · rename_i hbrace
    have hfirst := List.all_eq_true.1 (isIdentRest_of_isNumber h) '\x7b'
      (by rw [hbrace]; exact List.mem_cons_self)
    exact absurd hfirst (by decide)
  · rfl

theorem token_of_styleValue {value : String} (h : IsStyleValue value) :
    ∃ t : Token, t.chars = styleValueText value ∧ t.IsProper ∧ t.IsWord ∧
      t.styleValue? = some value := by
  cases h with
  | number hnumber =>
    refine ⟨.number value, ?_, hnumber, trivial, rfl⟩
    rw [styleValueText, if_neg (by simp [isExpression_of_isNumber hnumber]),
      if_pos (Decimal.isNumeral_of_isNumber hnumber)]
    rfl
  | name name hname hvalue =>
    subst hvalue
    obtain ⟨c, r, hcs, _⟩ := id hname
    refine ⟨.ident name, ?_, hname, trivial, rfl⟩
    rw [styleValueText, if_pos (by rw [hcs]; exact isExpression_braced), inside_braced]
    rfl
  | numeral s hclean hnumeral hvalue =>
    subst hvalue
    refine ⟨.string .double s, ?_, hclean.escaped, trivial, ?_⟩
    · rw [styleValueText, quoted, if_pos (by exact isExpression_braced), inside_braced, hclean.quote]
    · rw [Token.styleValue?, ofStyleString, if_pos hnumeral]
  | string hclean hnumeral hbraced =>
    have hraw : Decimal.isNumeral value.toList = false := by
      cases hraw : Decimal.isNumeral value.toList with
      | false => rfl
      | true => rw [(Decimal.isSolid_of_isNumeral hraw).trim, hraw] at hnumeral; exact hnumeral
    refine ⟨.string .double value, ?_, hclean.escaped, trivial, ?_⟩
    · rw [styleValueText, if_neg (by simp [hbraced]), if_neg (by simp [hraw]), hclean.quote]
    · rw [Token.styleValue?, ofStyleString, if_neg (by simp [hnumeral])]

/-! ## Entries -/

/-- One entry is read and then the others, each step only behind the ones before it. -/
theorem styleEntries_eq (c : Cursor) :
    styleEntries c = c.peek?.bind fun l =>
      if l.token = .rightBrace then some ([], l.next)
      else l.token.styleKey?.bind fun key =>
        l.next.peek?.bind fun m => m.next.peek?.bind fun v => v.next.peek?.bind fun last =>
          v.token.styleValue?.bind fun value =>
            if m.token ≠ .colon then none
            else if last.token = .rightBrace then some ([(key, value)], last.next)
            else if last.token = .comma then
              (styleEntries last.next).map fun p => ((key, value) :: p.1, p.2)
            else none := by
  rw [styleEntries]
  split
  · rename_i hl
    rw [hl, Option.bind_none]
  rename_i l hl
  rw [hl, Option.bind_some]
  simp only
  split
  · rename_i ht
    rw [if_pos ht]
  · rename_i hkey ht
    rw [if_neg ht, show l.token.styleKey? = none from hkey, Option.bind_none]
  rename_i key hkey ht
  rw [if_neg ht, show l.token.styleKey? = some key from hkey, Option.bind_some]
  split
  · rename_i hm
    rw [hm, Option.bind_none]
  rename_i m hm
  rw [hm, Option.bind_some]
  split
  · rename_i hv
    rw [hv, Option.bind_none]
  rename_i v hv
  rw [hv, Option.bind_some]
  split
  · rename_i hlast
    rw [hlast, Option.bind_none]
  rename_i last hlast
  rw [hlast, Option.bind_some]
  split
  · rename_i hvalue
    rw [show v.token.styleValue? = none from hvalue, Option.bind_none]
  · rename_i value hvalue
    rw [show v.token.styleValue? = some value from hvalue, Option.bind_some]

theorem styleEntries_cons {c : Cursor} {l colon v last : Lexeme} {key value : String}
    (hl : c.peek? = some l) (hkey : l.token.styleKey? = some key)
    (hcolon : l.next.peek? = some colon) (ht : colon.token = .colon)
    (hv : colon.next.peek? = some v) (hvalue : v.token.styleValue? = some value)
    (hlast : v.next.peek? = some last) :
    styleEntries c =
      if last.token = .rightBrace then some ([(key, value)], last.next)
      else if last.token = .comma then
        (styleEntries last.next).map fun p => ((key, value) :: p.1, p.2)
      else none := by
  have hopen : l.token ≠ .rightBrace := by
    intro hbrace
    rw [hbrace] at hkey
    cases hkey
  rw [styleEntries_eq]
  simp only [hl, hkey, hcolon, hv, hlast, hvalue, Option.bind_some, if_neg hopen]
  rw [if_neg (not_not_intro ht)]

variable {key value : String}

theorem ends_word {t : Token} (hword : t.IsWord) {rest : List Char}
    (hrest : ∀ x, rest.head? = some x → Token.isIdentRest x = false) : t.Ends rest := by
  cases t with
  | number digits =>
    intro x hx
    have hx := hrest x hx
    simp only [Token.isIdentRest, Bool.or_eq_false_iff, beq_eq_false_iff_ne] at hx
    exact ⟨hx.1.1.2, hx.1.2⟩
  | ident => exact hrest
  | string => trivial
  | _ => exact hword.elim

theorem styleEntries_entry (hkey : IsStyleKey key) (hvalue : IsStyleValue value) (u : Token)
    (hu : u.IsProper) (blanks back : List Char) (hends : u.Ends back)
    (hblanks : blanks.all Token.isSpace = true)
    (hrest : ∀ x, (blanks ++ (u.chars ++ back)).head? = some x → Token.isIdentRest x = false)
    {c : Cursor} (hc : c.rest = ' ' :: (styleKeyText key ++ (": ".toList ++ (styleValueText value ++
      (blanks ++ (u.chars ++ back)))))) :
    ∃ last : Lexeme, last.token = u ∧ last.next.rest = back ∧
      styleEntries c =
        if u = .rightBrace then some ([(key, value)], last.next)
        else if u = .comma then (styleEntries last.next).map fun p => ((key, value) :: p.1, p.2)
        else none := by
  obtain ⟨k, hkchars, hkproper, hkword, hkey⟩ := token_of_styleKey hkey
  obtain ⟨v, hvchars, hvproper, hvword, hvalue⟩ := token_of_styleValue hvalue
  rw [← hkchars, ← hvchars] at hc
  have hcolonEnds :
      k.Ends (Token.colon.chars ++ (' ' :: (v.chars ++ (blanks ++ (u.chars ++ back))))) :=
    ends_word hkword (by rintro _ ⟨⟩; decide)
  obtain ⟨l, hl, rfl, hlrest⟩ := peek?_of_token [' '] hkproper hcolonEnds rfl hc
  obtain ⟨colon, hcolon, ht, hcrest⟩ := peek?_of_token (t := .colon) [] trivial trivial rfl hlrest
  obtain ⟨w, hw, rfl, hwrest⟩ := peek?_of_token [' '] hvproper (ends_word hvword hrest) rfl hcrest
  obtain ⟨last, hlast, rfl, hback⟩ := peek?_of_token blanks hu hends hblanks hwrest
  exact ⟨last, rfl, hback, styleEntries_cons hl hkey hcolon ht hw hvalue hlast⟩

/-- Entries whose keys and values are tokens. -/
def AreStyle (es : List (String × String)) : Prop := ∀ e ∈ es, IsStyleKey e.1 ∧ IsStyleValue e.2

theorem styleEntries_styleText (es : List (String × String)) (hne : es ≠ []) (hes : AreStyle es) :
    ∀ c : Cursor, c.rest = ' ' :: (styleText es ++ " \x7d".toList) →
      ∃ d, styleEntries c = some (es, d) ∧ d.rest = [] := by
  induction es with
  | nil => exact absurd rfl hne
  | cons e es ih =>
    intro c hc
    obtain ⟨hkey, hvalue⟩ := hes e List.mem_cons_self
    cases es with
    | nil =>
      obtain ⟨last, _, hback, hread⟩ := styleEntries_entry hkey hvalue .rightBrace trivial
        [' '] [] trivial rfl (by rintro _ ⟨⟩; decide)
        (by rw [hc]; simp [styleText, Token.chars])
      rw [if_pos rfl] at hread
      exact ⟨last.next, hread, hback⟩
    | cons e' es =>
      obtain ⟨last, _, hback, hread⟩ := styleEntries_entry hkey hvalue .comma trivial
        [] (' ' :: (styleText (e' :: es) ++ " \x7d".toList)) trivial rfl
        (by rintro _ ⟨⟩; decide) (by rw [hc]; simp [styleText, Token.chars])
      obtain ⟨d, hd, hrest⟩ := ih (List.cons_ne_nil _ _)
        (fun x hx => hes x (List.mem_cons_of_mem e hx)) last.next hback
      rw [if_neg (by rintro ⟨⟩), if_pos rfl, hd] at hread
      exact ⟨d, hread, hrest⟩

/-! ## Groups -/

theorem isPassed_styleText (es : List (String × String)) (hes : AreStyle es) :
    IsPassed (styleText es) := by
  induction es with
  | nil => exact isPassed_nil
  | cons e es ih =>
    obtain ⟨hkey, hvalue⟩ := hes e List.mem_cons_self
    obtain ⟨k, hkchars, hkproper, hkword, -⟩ := token_of_styleKey hkey
    obtain ⟨v, hvchars, hvproper, hvword, -⟩ := token_of_styleValue hvalue
    have hentry : IsPassed (styleKeyText e.1 ++ ": ".toList ++ styleValueText e.2) := by
      rw [← hkchars, ← hvchars]
      exact ((isPassed_word hkword hkproper).append (isPassed_of_all (by decide))).append
        (isPassed_word hvword hvproper)
    cases es with
    | nil => exact hentry
    | cons e' es =>
      have hmore := ih fun x hx => hes x (List.mem_cons_of_mem e hx)
      exact (hentry.append (isPassed_of_all (by decide))).append hmore

theorem styleObject?_of_inside {raw : String} {body : List Char}
    (hopen : raw.toList = '\x7b' :: ('\x7b' :: body) ++ ['\x7d'])
    (hlast : raw.toList.reverse.take 2 = ['\x7d', '\x7d']) :
    styleObject? raw = (styleEntries (ofText body)).bind fun p =>
      if (Text.trim p.2.rest).isEmpty then some (.ofList p.1) else none := by
  have hinside : (inside raw).tail = body := by
    rw [inside, hopen, List.cons_append, List.tail_cons, List.dropLast_concat, List.tail_cons]
  rw [styleObject?, hlast, hinside, hopen]
  simp only [List.cons_append, if_true]
  cases styleEntries (ofText body) <;> rfl

end Value

namespace Fields

variable {f : Fields}

theorem isGroup_styleGroup (hes : Value.AreStyle f.style.entries) : IsGroup f.styleGroup := by
  have hpassed := Value.isPassed_styleText _ hes 2 " \x7d\x7d".toList
  have hopen : f.styleGroup =
      '\x7b' :: '\x7b' :: ' ' :: (Value.styleText f.style.entries ++ " \x7d\x7d".toList) := rfl
  refine ⟨rfl, ?_⟩
  rw [hopen]
  simp only [bracedSize, hpassed]
  simp [isQuote, bracedSize]
  omega

theorem styleObject?_eq (f : Fields) :
    Value.styleObject? (String.ofList f.styleGroup) =
      (Value.styleEntries (ofText (' ' :: (Value.styleText f.style.entries ++ " \x7d".toList)))).bind
        fun p => if (Text.trim p.2.rest).isEmpty then some (.ofList p.1) else none := by
  have hopen : f.styleGroup =
      '\x7b' :: ('\x7b' :: ' ' :: (Value.styleText f.style.entries ++ " \x7d".toList)) ++ ['\x7d'] := by
    simp only [List.cons_append, List.append_assoc]
    rfl
  refine Value.styleObject?_of_inside ?_ ?_
  · rw [String.toList_ofList, hopen]
  · rw [String.toList_ofList, hopen]
    simp

/-- A printed style object is read as the style. -/
theorem styleObject?_styleGroup (hne : f.style.isEmpty = false)
    (hes : Value.AreStyle f.style.entries) :
    Value.styleObject? (String.ofList f.styleGroup) = some (.ofList f.style.entries) := by
  have hnonempty : f.style.entries ≠ [] := by
    intro hnil
    rw [OrderedMap.isEmpty, hnil] at hne
    cases hne
  obtain ⟨d, hd, hrest⟩ := Value.styleEntries_styleText _ hnonempty hes
    (ofText (' ' :: (Value.styleText f.style.entries ++ " \x7d".toList))) rfl
  rw [styleObject?_eq, hd, Option.bind_some, hrest]
  rfl

end Fields

end PageEditor
