import PageEditor.Markup.Printer
import PageEditor.Proofs.Markup.Pieces

/-!
# Quoted texts in markup

A JSON string is passed by the reader of braces as by the reader of strings, so in braces it is a
group. The settings of an animation are JSON whose apostrophes are written by their number, which
is why they can stand between apostrophes.
-/
set_option autoImplicit false

namespace PageEditor

open Token (Escaped)

/-! ## Escaped texts -/

namespace Token.Escaped

variable {q : Char} {a b : List Char}

theorem append (ha : Escaped q a) (hb : Escaped q b) : Escaped q (a ++ b) := by
  induction ha with
  | nil => exact hb
  | plain hquote hslash _ ih => exact .plain hquote hslash ih
  | pair hfeed _ ih => exact .pair hfeed ih

theorem of_plain (hquote : q ∉ a) (hslash : '\\' ∉ a) : Escaped q a := by
  induction a with
  | nil => exact .nil
  | cons c a ih =>
    rw [List.mem_cons, not_or] at hquote hslash
    exact .plain (Ne.symm hquote.1) (Ne.symm hslash.1) (ih hquote.2 hslash.2)

theorem flatMap {α : Type} {f : α → List Char} {xs : List α} (h : ∀ x ∈ xs, Escaped q (f x)) :
    Escaped q (xs.flatMap f) := by
  induction xs with
  | nil => exact .nil
  | cons x xs ih =>
    rw [List.flatMap_cons]
    exact (h x List.mem_cons_self).append (ih fun y hy => h y (List.mem_cons_of_mem x hy))

/-- A text without a quote of the other kind can stand between two of them. -/
theorem of_notMem {q' : Char} (h : Escaped q a) (hq : q' ∉ a) : Escaped q' a := by
  induction h with
  | nil => exact .nil
  | plain _ hslash _ ih =>
    rw [List.mem_cons, not_or] at hq
    exact .plain (Ne.symm hq.1) hslash (ih hq.2)
  | pair hfeed _ ih =>
    simp only [List.mem_cons, not_or] at hq
    exact .pair hfeed (ih hq.2.2)

end Token.Escaped

theorem hexDigit_ne : ∀ n < 16, Text.hexDigit n ≠ '"' ∧ Text.hexDigit n ≠ '\'' ∧
    Text.hexDigit n ≠ '\\' ∧ Text.hexDigit n ≠ '<' := by
  decide

theorem escape_cases (c : Char) :
    (∃ d ∈ ['"', '\\', 'n', 'r', 't', 'b', 'f'], Json.escape c = ['\\', d]) ∨
      (∃ a < 16, ∃ b < 16,
        Json.escape c = ['\\', 'u', '0', '0', Text.hexDigit a, Text.hexDigit b]) ∨
      c ≠ '"' ∧ c ≠ '\\' ∧ Json.escape c = [c] := by
  unfold Json.escape
  by_cases hquote : c = '"'
  · exact .inl ⟨'"', by decide, if_pos hquote⟩
  by_cases hslash : c = '\\'
  · exact .inl ⟨'\\', by decide, (if_neg hquote).trans (if_pos hslash)⟩
  rw [if_neg hquote, if_neg hslash]
  by_cases hfeed : c = '\n'
  · exact .inl ⟨'n', by decide, if_pos hfeed⟩
  by_cases hreturn : c = '\r'
  · exact .inl ⟨'r', by decide, (if_neg hfeed).trans (if_pos hreturn)⟩
  rw [if_neg hfeed, if_neg hreturn]
  by_cases htab : c = '\t'
  · exact .inl ⟨'t', by decide, if_pos htab⟩
  by_cases hback : c.toNat = 8
  · exact .inl ⟨'b', by decide, (if_neg htab).trans (if_pos hback)⟩
  rw [if_neg htab, if_neg hback]
  by_cases hform : c.toNat = 12
  · exact .inl ⟨'f', by decide, if_pos hform⟩
  by_cases hcontrol : c.toNat < 32
  · exact .inr (.inl ⟨c.toNat / 16, by omega, c.toNat % 16, by omega,
      (if_neg hform).trans (if_pos hcontrol)⟩)
  · exact .inr (.inr ⟨hquote, hslash, (if_neg hform).trans (if_neg hcontrol)⟩)

theorem escaped_escape (c : Char) : Escaped '"' (Json.escape c) := by
  rcases escape_cases c with ⟨d, hd, h⟩ | ⟨a, ha, b, hb, h⟩ | ⟨hquote, hslash, h⟩
  · rw [h]
    refine .pair ?_ .nil
    rintro rfl
    exact absurd hd (by decide)
  · rw [h]
    have ha' := hexDigit_ne a ha
    have hb' := hexDigit_ne b hb
    refine .pair (by decide) (.plain (by decide) (by decide) (.plain (by decide) (by decide) ?_))
    exact .plain ha'.1 ha'.2.2.1 (.plain hb'.1 hb'.2.2.1 .nil)
  · rw [h]
    exact .plain hquote hslash .nil

theorem length_le_flatMap_escape (cs : List Char) : cs.length ≤ (cs.flatMap Json.escape).length := by
  induction cs with
  | nil => exact Nat.le_refl 0
  | cons c cs ih =>
    have hone : 1 ≤ (Json.escape c).length := by
      rcases escape_cases c with ⟨d, _, h⟩ | ⟨a, _, b, _, h⟩ | ⟨_, _, h⟩ <;> simp [h]
    rw [List.flatMap_cons, List.length_append, List.length_cons]
    omega

/-! ## Groups -/

/-- What the reader of braces takes for a text between two quotes: a backslash takes the character
behind it with it, whichever it is. -/
inductive IsQuoted (quote : Char) : List Char → Prop
  | nil : IsQuoted quote []
  | plain {c : Char} {cs : List Char} (hquote : c ≠ quote) (hslash : c ≠ '\\')
      (hmore : IsQuoted quote cs) : IsQuoted quote (c :: cs)
  | pair {c : Char} {cs : List Char} (hmore : IsQuoted quote cs) : IsQuoted quote ('\\' :: c :: cs)

theorem Token.Escaped.isQuoted {q : Char} {body : List Char} (h : Escaped q body) :
    IsQuoted q body := by
  induction h with
  | nil => exact .nil
  | plain hquote hslash _ ih => exact .plain hquote hslash ih
  | pair _ _ ih => exact .pair ih

/-- The reader of braces passes what stands between quotes. -/
theorem bracedSize_quoted {q : Char} {body : List Char} (h : IsQuoted q body) (hq : q ≠ '\\')
    (depth : Nat) (rest : List Char) :
    bracedSize depth (.quoted q) (body ++ q :: rest) =
      (bracedSize depth .outside rest).map (· + (body.length + 1)) := by
  induction h with
  | nil => simp [bracedSize, hq]
  | plain hquote hslash _ ih =>
    rw [List.cons_append, bracedSize, if_neg hslash, if_neg hquote, ih, Option.map_map]
    rfl
  | pair _ ih =>
    rw [List.cons_append, List.cons_append, bracedSize, if_pos rfl, bracedSize, ih, Option.map_map,
      Option.map_map]
    rfl

theorem isGroup_quote (cs : List Char) : IsGroup ('\x7b' :: Json.quote cs ++ ['\x7d']) := by
  have hbody : Escaped '"' (cs.flatMap Json.escape) := .flatMap fun c _ => escaped_escape c
  refine ⟨rfl, ?_⟩
  have hsize := bracedSize_quoted hbody.isQuoted (by decide) 1 ['\x7d']
  have hopen : '\x7b' :: Json.quote cs ++ ['\x7d'] =
      '\x7b' :: '"' :: (cs.flatMap Json.escape ++ '"' :: ['\x7d']) := by
    simp [Json.quote]
  rw [hopen]
  simp only [bracedSize, isQuote, hsize]
  simp
  omega

theorem trim_quote (cs : List Char) : Text.trim (Json.quote cs) = Json.quote cs := by
  have hquote : Json.quote cs = '"' :: (cs.flatMap Json.escape ++ ['"']) := rfl
  rw [Text.trim, Text.trimStart, hquote, List.dropWhile_cons_of_neg (by decide), Text.trimEnd,
    List.reverse_cons, List.reverse_append, List.reverse_singleton, List.singleton_append,
    List.cons_append, List.dropWhile_cons_of_neg (by decide)]
  simp

namespace Value

theorem isGroup_quoted (s : String) : IsGroup (quoted s).toList := by
  rw [quoted, braced, String.toList_ofList]
  exact isGroup_quote _

theorem quoted_ne (s : String) : quoted s ≠ s := by
  intro h
  have hlong := length_le_flatMap_escape s.toList
  have hlength := congrArg (fun s => s.toList.length) h
  simp only [quoted, braced, String.toList_ofList, Json.quote, List.length_cons, List.length_append,
    List.length_nil] at hlength
  omega

/-- A string that an attribute can be printed with. -/
def IsQuotable (s : String) : Prop := '"' ∈ s.toList ∨ Escaped '"' s.toList

instance (s : String) : Decidable (IsQuotable s) := inferInstanceAs (Decidable (_ ∨ _))

theorem isQuotable_of_escaped {q : Char} {s : String} (h : Escaped q s.toList) : IsQuotable s := by
  by_cases hmem : '"' ∈ s.toList
  · exact .inl hmem
  · exact .inr (h.of_notMem hmem)

end Value

/-! ## Texts without tags -/

theorem less_notMem_escape {c : Char} (h : c ≠ '<') : '<' ∉ Json.escape c := by
  rcases escape_cases c with ⟨d, hd, he⟩ | ⟨a, ha, b, hb, he⟩ | ⟨_, _, he⟩
  · have hless : '<' ≠ d := by
      rintro rfl
      exact absurd hd (by decide)
    rw [he]
    simp [hless]
  · rw [he]
    simp [(hexDigit_ne a ha).2.2.2.symm, (hexDigit_ne b hb).2.2.2.symm]
  · rw [he]
    simp [h.symm]

theorem Value.less_notMem_escapeText {s : String} (h : '<' ∉ s.toList) : '<' ∉ escapeText s := by
  unfold escapeText
  split
  · have hescaped : '<' ∉ s.toList.flatMap Json.escape := by
      intro hmem
      obtain ⟨c, hc, hless⟩ := List.mem_flatMap.1 hmem
      refine less_notMem_escape ?_ hless
      rintro rfl
      exact h hc
    rw [quoted, braced, String.toList_ofList, Json.quote]
    simp [hescaped]
  · exact h

/-! ## JSON between apostrophes -/

/-- A text with its apostrophes written by their number. -/
def numberApostrophes (cs : List Char) : List Char :=
  cs.flatMap fun c => if c = '\'' then "\\u0027".toList else [c]

theorem numberApostrophes_append (a b : List Char) :
    numberApostrophes (a ++ b) = numberApostrophes a ++ numberApostrophes b :=
  List.flatMap_append

theorem numberApostrophes_of_notMem {cs : List Char} (h : '\'' ∉ cs) : numberApostrophes cs = cs := by
  induction cs with
  | nil => rfl
  | cons c cs ih =>
    rw [List.mem_cons, not_or] at h
    rw [numberApostrophes, List.flatMap_cons, if_neg (Ne.symm h.1)]
    exact congrArg (c :: ·) (ih h.2)

theorem escaped_apostrophe : Escaped '\'' "\\u0027".toList :=
  .pair (by decide) (.of_plain (by decide) (by decide))

theorem escaped_numberApostrophes {cs : List Char} (h : '\\' ∉ cs) :
    Escaped '\'' (numberApostrophes cs) := by
  refine .flatMap fun c hc => ?_
  split
  · exact escaped_apostrophe
  · rename_i hquote
    exact .plain hquote (fun hslash => h (hslash ▸ hc)) .nil

theorem escaped_apostrophes_escape (c : Char) :
    Escaped '\'' (numberApostrophes (Json.escape c)) := by
  rcases escape_cases c with ⟨d, hd, h⟩ | ⟨a, ha, b, hb, h⟩ | ⟨_, hslash, h⟩
  · have hquote : d ≠ '\'' ∧ d ≠ '\n' := by
      constructor <;> rintro rfl <;> exact absurd hd (by decide)
    have hfree : '\'' ∉ ['\\', d] := by
      simp only [List.mem_cons, List.not_mem_nil, or_false, not_or]
      exact ⟨by decide, hquote.1.symm⟩
    rw [h, numberApostrophes_of_notMem hfree]
    exact .pair hquote.2 .nil
  · have ha' := hexDigit_ne a ha
    have hb' := hexDigit_ne b hb
    have hfree : '\'' ∉ ['\\', 'u', '0', '0', Text.hexDigit a, Text.hexDigit b] := by
      simp only [List.mem_cons, List.not_mem_nil, or_false, not_or]
      exact ⟨by decide, by decide, by decide, by decide, ha'.2.1.symm, hb'.2.1.symm⟩
    rw [h, numberApostrophes_of_notMem hfree]
    refine .pair (by decide) (.plain (by decide) (by decide) (.plain (by decide) (by decide) ?_))
    exact .plain ha'.2.1 ha'.2.2.1 (.plain hb'.2.1 hb'.2.2.1 .nil)
  · rw [h]
    exact escaped_numberApostrophes fun hmem => hslash (List.mem_singleton.1 hmem).symm

theorem escaped_apostrophes_quote (cs : List Char) :
    Escaped '\'' (numberApostrophes (Json.quote cs)) := by
  rw [Json.quote, numberApostrophes_append, ← List.singleton_append, numberApostrophes_append]
  refine ((escaped_numberApostrophes (by decide)).append ?_).append (escaped_numberApostrophes (by decide))
  rw [numberApostrophes, List.flatMap_assoc]
  exact .flatMap fun c _ => escaped_apostrophes_escape c

/-! ## Numbers -/

/-- The characters that numbers are written with. -/
def isNumberChar (c : Char) : Bool := c.isDigit || ['-', '+', '.', 'e'].contains c

theorem isNumberChar_natText (n : Nat) : ∀ c ∈ (toString n).toList, isNumberChar c := by
  intro c hc
  rw [Nat.toString_eq_repr, Nat.toList_repr] at hc
  rw [isNumberChar, Nat.isDigit_of_mem_toDigits (by decide) (by decide) hc, Bool.true_or]

theorem isNumberChar_intText (n : Int) : ∀ c ∈ (toString n).toList, isNumberChar c := by
  cases n with
  | ofNat n => exact isNumberChar_natText n
  | negSucc n =>
    have htext : (toString (Int.negSucc n)).toList = '-' :: (toString (n + 1)).toList := by
      simp [toString, Int.repr]
    rw [htext]
    exact List.forall_mem_cons.2 ⟨rfl, isNumberChar_natText (n + 1)⟩

theorem isNumberChar_decimalText (d : Decimal.Digits) :
    ∀ c ∈ Json.decimalText d, isNumberChar c := by
  have hds := isNumberChar_natText d.digits
  have hzeros : ∀ k, ∀ c ∈ List.replicate k '0', isNumberChar c := fun k c hc =>
    List.eq_of_mem_replicate hc ▸ rfl
  simp only [Json.decimalText]
  generalize (toString d.digits).toList = ds at hds
  split
  · split
    · exact List.forall_mem_append.2
        ⟨List.forall_mem_append.2 ⟨List.all_eq_true.1 rfl, hzeros _⟩, hds⟩
    · split
      · refine List.forall_mem_append.2 ⟨fun c hc => hds c (List.mem_of_mem_take hc), ?_⟩
        exact List.forall_mem_cons.2 ⟨rfl, fun c hc => hds c (List.mem_of_mem_drop hc)⟩
      · exact List.forall_mem_append.2
          ⟨List.forall_mem_append.2 ⟨hds, hzeros _⟩, List.all_eq_true.1 rfl⟩
  · refine List.forall_mem_append.2 ⟨?_, List.forall_mem_cons.2 ⟨rfl, List.forall_mem_cons.2 ⟨?_, ?_⟩⟩⟩
    · split
      · rintro _ ⟨⟩
      · exact hds
      · obtain ⟨hfirst, hmore⟩ := List.forall_mem_cons.1 hds
        exact List.forall_mem_cons.2 ⟨hfirst, List.forall_mem_cons.2 ⟨rfl, hmore⟩⟩
    · split <;> rfl
    · exact isNumberChar_natText _

theorem isNumberChar_numberText (n : Number) : ∀ c ∈ Json.numberText n, isNumberChar c := by
  cases n with
  | integer n => exact isNumberChar_intText n
  | double x =>
    simp only [Json.numberText, Json.doubleText]
    refine List.forall_mem_append.2 ⟨?_, ?_⟩
    · split <;> exact List.all_eq_true.1 rfl
    · split
      · exact List.all_eq_true.1 rfl
      · exact isNumberChar_decimalText _

theorem slash_notMem_numberText (n : Number) : '\\' ∉ Json.numberText n := fun h =>
  absurd (isNumberChar_numberText n _ h) (by decide)

/-! ## Compact texts -/

theorem escaped_apostrophes_cons {c : Char} {cs : List Char} (hc : c ≠ '\\')
    (h : Escaped '\'' (numberApostrophes cs)) : Escaped '\'' (numberApostrophes (c :: cs)) := by
  rw [← List.singleton_append, numberApostrophes_append]
  exact (escaped_numberApostrophes (by simpa using hc.symm)).append h

mutual

theorem escaped_compact : (v : Json) → Escaped '\'' (numberApostrophes v.compact)
  | .null => escaped_numberApostrophes (by decide)
  | .bool true => escaped_numberApostrophes (by decide)
  | .bool false => escaped_numberApostrophes (by decide)
  | .number n => escaped_numberApostrophes (slash_notMem_numberText n)
  | .string s => escaped_apostrophes_quote s.toList
  | .array items =>
    escaped_apostrophes_cons (by decide) (escaped_compactItems items)
  | .object members =>
    escaped_apostrophes_cons (by decide) (escaped_compactMembers members)
  | .unreadable => escaped_numberApostrophes (by decide)

theorem escaped_compactItems :
    (vs : List Json) → Escaped '\'' (numberApostrophes (Json.compactItems vs))
  | [] => escaped_numberApostrophes (by decide)
  | v :: vs => by
    rw [Json.compactItems, numberApostrophes_append]
    exact (escaped_compact v).append (escaped_compactMoreItems vs)

theorem escaped_compactMoreItems :
    (vs : List Json) → Escaped '\'' (numberApostrophes (Json.compactMoreItems vs))
  | [] => escaped_numberApostrophes (by decide)
  | v :: vs => by
    rw [Json.compactMoreItems, List.cons_append]
    refine escaped_apostrophes_cons (by decide) ?_
    rw [numberApostrophes_append]
    exact (escaped_compact v).append (escaped_compactMoreItems vs)

theorem escaped_compactMembers :
    (ms : List (String × Json)) → Escaped '\'' (numberApostrophes (Json.compactMembers ms))
  | [] => escaped_numberApostrophes (by decide)
  | (k, v) :: ms => by
    rw [Json.compactMembers, List.append_assoc, List.cons_append, numberApostrophes_append]
    refine (escaped_apostrophes_quote k.toList).append ?_
    refine escaped_apostrophes_cons (by decide) ?_
    rw [numberApostrophes_append]
    exact (escaped_compact v).append (escaped_compactMoreMembers ms)

theorem escaped_compactMoreMembers :
    (ms : List (String × Json)) → Escaped '\'' (numberApostrophes (Json.compactMoreMembers ms))
  | [] => escaped_numberApostrophes (by decide)
  | (k, v) :: ms => by
    simp only [Json.compactMoreMembers, List.append_assoc, List.cons_append]
    refine escaped_apostrophes_cons (by decide) ?_
    rw [numberApostrophes_append]
    refine (escaped_apostrophes_quote k.toList).append ?_
    refine escaped_apostrophes_cons (by decide) ?_
    rw [numberApostrophes_append]
    exact (escaped_compact v).append (escaped_compactMoreMembers ms)

end

end PageEditor
