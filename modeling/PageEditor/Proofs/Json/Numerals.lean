import PageEditor.Proofs.Decimal.Numerals
import PageEditor.Proofs.Json.Compact
import PageEditor.Proofs.Markup.Quoting

/-!
# Numbers read again

A number is read the same in front of every text that does not go on with it. A natural number of 64
bits is read back from its digits. A double need not be read back from its text, since its digits are
scaled with rounding.
-/
set_option autoImplicit false

namespace PageEditor

/-- The number is read back from its text. -/
def Number.ReadsBack (n : Number) : Prop := Json.read? (Json.numberText n) = some (.number n)

instance : DecidableEq Number
  | .integer m, .integer n => decidable_of_iff (m = n) (by rw [Number.integer.injEq])
  | .double x, .double y => decidable_of_iff (x = y) (by rw [Number.double.injEq])
  | .integer _, .double _ => .isFalse (by rintro ⟨⟩)
  | .double _, .integer _ => .isFalse (by rintro ⟨⟩)

/-- Whether a value is this number. -/
def Json.isNumber (n : Number) : Json → Bool
  | number m => m = n
  | _ => false

theorem Json.isNumber_iff {n : Number} {v : Json} : v.isNumber n = true ↔ v = number n := by
  cases v <;> simp [isNumber]

instance (n : Number) : Decidable n.ReadsBack :=
  decidable_of_iff ((Json.read? (Json.numberText n)).any (Json.isNumber n) = true) (by
    simp only [Option.any_eq_true, Json.isNumber_iff, exists_eq_right, Number.ReadsBack])

namespace Json

open Decimal (spanDigits dropSign)

/-! ## Numbers in front of other texts -/

/-- No number goes on with this text. -/
def EndsNumber (rest : List Char) : Prop :=
  ∀ c, rest.head? = some c → c.isDigit = false ∧ c ≠ '.' ∧ c ≠ 'e' ∧ c ≠ 'E'

theorem endsNumber_nil : EndsNumber [] := by
  rintro _ ⟨⟩

theorem endsNumber_cons {c : Char} {r : List Char} (h : c = ',' ∨ c = ']' ∨ c = '\x7d') :
    EndsNumber (c :: r) := by
  rintro _ ⟨⟩
  rcases h with rfl | rfl | rfl <;> decide

variable {cs r rest : List Char}

theorem spanDigits_behind (h : EndsNumber rest) (cs : List Char) :
    spanDigits (cs ++ rest) = ((spanDigits cs).1, (spanDigits cs).2 ++ rest) := by
  have hall : cs ++ rest = (spanDigits cs).1 ++ ((spanDigits cs).2 ++ rest) := by
    rw [← List.append_assoc, spanDigits, List.takeWhile_append_dropWhile]
  refine hall ▸ Decimal.spanDigits_append List.all_takeWhile fun c hc => ?_
  cases hdrop : (spanDigits cs).2 with
  | nil =>
    rw [hdrop] at hc
    exact (h c hc).1
  | cons d ds =>
    rw [hdrop] at hc
    obtain rfl : d = c := Option.some.inj hc
    have hdrop' : cs.dropWhile Char.isDigit = d :: ds := hdrop
    have hhead := List.head?_dropWhile_not Char.isDigit cs
    rw [hdrop'] at hhead
    simpa using hhead

theorem fraction?_append {f : Option (List Char)} (hrest : EndsNumber rest)
    (h : fraction? cs = some (f, r)) : fraction? (cs ++ rest) = some (f, r ++ rest) := by
  unfold fraction? at h
  split at h
  · rename_i ds
    rw [List.cons_append, fraction?, spanDigits_behind hrest]
    split at h
    · cases h
    · rename_i hdigits
      cases h
      exact if_neg hdigits
  · rename_i hpoint
    cases h
    unfold fraction?
    split
    · rename_i ds hds
      cases cs with
      | nil =>
        rw [List.nil_append] at hds
        exact absurd rfl (hrest '.' (by rw [hds]; rfl)).2.1
      | cons c cs =>
        obtain ⟨rfl, -⟩ := List.cons.inj hds
        exact absurd rfl (hpoint cs)
    · rfl

theorem power?_append {p : Option (Bool × List Char)} (hrest : EndsNumber rest)
    (h : power? cs = some (p, r)) : power? (cs ++ rest) = some (p, r ++ rest) := by
  cases cs with
  | nil =>
    cases h
    cases rest with
    | nil => rfl
    | cons c rest =>
      obtain ⟨-, -, hsmall, hlarge⟩ := hrest c rfl
      rw [List.nil_append, power?, if_neg (not_or.2 ⟨hsmall, hlarge⟩)]
  | cons c ds =>
    rw [power?] at h
    rw [List.cons_append, power?]
    split at h
    · rename_i hletter
      split at h
      · cases h
      · rename_i hdigits
        cases h
        obtain ⟨d, ds, rfl⟩ : ∃ d ds', ds = d :: ds' := List.exists_cons_of_ne_nil (by
          rintro rfl
          exact hdigits rfl)
        have hsign : dropSign (d :: ds ++ rest) = dropSign (d :: ds) ++ rest := by
          unfold dropSign
          split <;> simp_all
        rw [if_pos hletter, hsign, spanDigits_behind hrest, if_neg hdigits]
        rfl
    · rename_i hletter
      cases h
      rw [if_neg hletter, List.cons_append]

/-- A number is read the same in front of a text that it does not go on with. -/
theorem numeral?_append {negative : Bool} {n : Decimal.Numeral} (hrest : EndsNumber rest)
    (h : numeral? negative cs = some (n, r)) : numeral? negative (cs ++ rest) = some (n, r ++ rest) := by
  simp only [numeral?, spanDigits_behind hrest] at h ⊢
  split at h
  · cases h
  · rename_i hwhole
    obtain ⟨⟨f, r₁⟩, hf, h⟩ := Option.bind_eq_some_iff.1 h
    obtain ⟨⟨p, r₂⟩, hp, h⟩ := Option.bind_eq_some_iff.1 h
    cases h
    rw [if_neg hwhole, fraction?_append hrest hf]
    simp only [Option.bind_eq_bind, Option.bind_some]
    rw [power?_append hrest hp]
    rfl

/-! ## What is left to read -/

theorem spanDigits_suffix (cs : List Char) : (spanDigits cs).2 <:+ cs :=
  List.dropWhile_suffix _

theorem dropSign_suffix (cs : List Char) : dropSign cs <:+ cs := by
  unfold dropSign
  split
  · exact List.suffix_cons _ _
  · exact List.suffix_cons _ _
  · exact List.suffix_rfl

theorem fraction?_suffix {f : Option (List Char)} (h : fraction? cs = some (f, r)) : r <:+ cs := by
  unfold fraction? at h
  split at h
  · split at h
    · cases h
    · cases h
      exact (spanDigits_suffix _).trans (List.suffix_cons _ _)
  · cases h
    exact List.suffix_rfl

theorem power?_suffix {p : Option (Bool × List Char)} (h : power? cs = some (p, r)) : r <:+ cs := by
  unfold power? at h
  split at h
  · split at h
    · split at h
      · cases h
      · cases h
        exact ((spanDigits_suffix _).trans (dropSign_suffix _)).trans (List.suffix_cons _ _)
    · cases h
      exact List.suffix_rfl
  · cases h
    exact List.suffix_rfl

theorem numeral?_suffix {negative : Bool} {n : Decimal.Numeral}
    (h : numeral? negative cs = some (n, r)) : r <:+ cs := by
  simp only [numeral?] at h
  split at h
  · cases h
  · obtain ⟨⟨f, r₁⟩, hf, h⟩ := Option.bind_eq_some_iff.1 h
    obtain ⟨⟨p, r₂⟩, hp, h⟩ := Option.bind_eq_some_iff.1 h
    cases h
    exact ((power?_suffix hp).trans (fraction?_suffix hf)).trans (spanDigits_suffix cs)

/-! ## Texts of numbers -/

theorem isSpace_of_isNumberChar {c : Char} (h : isNumberChar c) : isSpace c = false := by
  cases hspace : isSpace c with
  | false => rfl
  | true =>
    simp only [isSpace, Bool.or_eq_true, beq_iff_eq] at hspace
    rcases hspace with ((rfl | rfl) | rfl) | rfl <;> exact absurd h (by decide)

theorem scalar?_of_isNumberChar {c : Char} (h : isNumberChar c) (cs : List Char) :
    scalar? (c :: cs) =
      if c = '-' then (numeral? true cs).map fun p => (ofNumeral p.1, p.2)
      else if c.isDigit then (numeral? false (c :: cs)).map fun p => (ofNumeral p.1, p.2)
      else none := by
  have hne : ∀ d, isNumberChar d = false → c ≠ d := by
    rintro d hd rfl
    rw [hd] at h
    cases h
  unfold scalar?
  split
  · rename_i hcs
    exact absurd (List.cons.inj hcs).1 (hne 'n' (by decide))
  · rename_i hcs
    exact absurd (List.cons.inj hcs).1 (hne 't' (by decide))
  · rename_i hcs
    exact absurd (List.cons.inj hcs).1 (hne 'f' (by decide))
  · rename_i hcs
    exact absurd (List.cons.inj hcs).1 (hne '"' (by decide))
  · rename_i hcs
    cases hcs
    rw [if_pos rfl]
  · rename_i hminus hcs
    cases hcs
    rw [if_neg hminus]
  · rename_i hcs
    cases hcs

theorem scalar?_suffix {c : Char} {v : Json} (hc : isNumberChar c)
    (h : scalar? (c :: cs) = some (v, r)) : r <:+ c :: cs := by
  rw [scalar?_of_isNumberChar hc] at h
  split at h
  · obtain ⟨⟨m, r'⟩, hm, hv⟩ := Option.map_eq_some_iff.1 h
    obtain ⟨-, rfl⟩ := Prod.mk.inj hv
    exact (numeral?_suffix hm).trans (List.suffix_cons _ _)
  · split at h
    · obtain ⟨⟨m, r'⟩, hm, hv⟩ := Option.map_eq_some_iff.1 h
      obtain ⟨-, rfl⟩ := Prod.mk.inj hv
      exact numeral?_suffix hm
    · cases h

theorem skipSpace_of_isNumberChar {cs : List Char} (h : ∀ c ∈ cs, isNumberChar c) :
    skipSpace cs = cs := by
  cases cs with
  | nil => rfl
  | cons c cs =>
    have hspace := isSpace_of_isNumberChar (h c List.mem_cons_self)
    rw [skipSpace, List.dropWhile_cons_of_neg (by simp [hspace])]

theorem read?_of_isNumberChar {cs : List Char} (h : ∀ c ∈ cs, isNumberChar c) :
    read? cs = (scalar? cs).bind fun p => if p.2.isEmpty then some p.1 else none := by
  have hskip := skipSpace_of_isNumberChar h
  have hhead : ∀ d, isNumberChar d = false → (skipSpace cs).head? ≠ some d := by
    intro d hd hcs
    rw [hskip] at hcs
    have hnumber := h d (List.mem_of_head? hcs)
    rw [hd] at hnumber
    cases hnumber
  rw [read?, valueWithin_scalar (hhead '[' (by decide)) (hhead '\x7b' (by decide)), hskip]
  cases cs with
  | nil => rfl
  | cons c cs =>
    cases hscalar : scalar? (c :: cs) with
    | none => rfl
    | some p =>
      have hsuffix := scalar?_suffix (h c List.mem_cons_self) (v := p.1) (r := p.2) hscalar
      have hr := skipSpace_of_isNumberChar fun d hd => h d (hsuffix.subset hd)
      simp only [Option.bind_some, afterValue.eq_def, hr]

theorem scalar?_numberText {n : Number} (h : n.ReadsBack) :
    scalar? (numberText n) = some (number n, []) := by
  rw [Number.ReadsBack, read?_of_isNumberChar (isNumberChar_numberText n)] at h
  obtain ⟨⟨v, r⟩, hscalar, hv⟩ := Option.bind_eq_some_iff.1 h
  simp only at hv
  split at hv
  · rename_i hempty
    cases hv
    rw [hscalar, List.isEmpty_iff.1 hempty]
  · cases hv

theorem scalar?_numberText_append {n : Number} {rest : List Char} (h : n.ReadsBack) (hrest : EndsNumber rest) :
    scalar? (numberText n ++ rest) = some (number n, rest) := by
  have hscalar := scalar?_numberText h
  have hchars := isNumberChar_numberText n
  generalize numberText n = cs at hscalar hchars
  cases cs with
  | nil => cases hscalar
  | cons c cs =>
    have hc := hchars c List.mem_cons_self
    rw [scalar?_of_isNumberChar hc] at hscalar
    rw [List.cons_append, scalar?_of_isNumberChar hc]
    split at hscalar
    · rename_i hminus
      rw [if_pos hminus]
      obtain ⟨⟨m, r⟩, hm, hv⟩ := Option.map_eq_some_iff.1 hscalar
      obtain ⟨hv, rfl⟩ := Prod.mk.inj hv
      rw [numeral?_append hrest hm, Option.map_some, hv, List.nil_append]
    · rename_i hminus
      rw [if_neg hminus]
      split at hscalar
      · rename_i hdigit
        obtain ⟨⟨m, r⟩, hm, hv⟩ := Option.map_eq_some_iff.1 hscalar
        obtain ⟨hv, rfl⟩ := Prod.mk.inj hv
        rw [if_pos hdigit, ← List.cons_append, numeral?_append hrest hm, Option.map_some, hv,
          List.nil_append]
      · cases hscalar

/-! ## Natural numbers -/

theorem eq_zero_of_head?_toDigits (n : Nat) : (Nat.toDigits 10 n).head? = some '0' → n = 0 := by
  induction n using Nat.strongRecOn with
  | ind n ih =>
    intro h
    by_cases hn : n < 10
    · have hdigit : ∀ m < 10, m.digitChar = '0' → m = 0 := by decide
      rw [Nat.toDigits_of_lt_base hn] at h
      exact hdigit n hn (Option.some.inj h)
    · rw [Nat.toDigits_of_base_le (by decide) (Nat.le_of_not_lt hn)] at h
      obtain ⟨c, cs, hcs⟩ := List.exists_cons_of_ne_nil (Nat.toDigits_ne_nil (n := n / 10) (b := 10))
      have hfront : (Nat.toDigits 10 (n / 10)).head? = some '0' := by
        rw [hcs] at h ⊢
        exact h
      have := ih (n / 10) (by omega) hfront
      omega

/-- All digits are gathered when the number that they denote fits. -/
theorem gather_eq (cs : List Char) : ∀ s, Nat.ofDigitChars 10 cs s ≤ Decimal.significandLimit →
    Decimal.gather s cs = (Nat.ofDigitChars 10 cs s, cs.length) := by
  induction cs with
  | nil => exact fun _ _ => rfl
  | cons c cs ih =>
    intro s h
    have hnext : s * 10 + Decimal.digitValue c = 10 * s + (c.toNat - '0'.toNat) := by
      rw [Decimal.digitValue, Nat.mul_comm]
    have hstep : Nat.ofDigitChars 10 (c :: cs) s =
        Nat.ofDigitChars 10 cs (s * 10 + Decimal.digitValue c) := by
      rw [hnext]
      rfl
    rw [hstep] at h ⊢
    have hle : s * 10 + Decimal.digitValue c ≤ Decimal.significandLimit := by
      refine Nat.le_trans ?_ h
      rw [Nat.ofDigitChars_eq_ofDigitChars_zero]
      exact Nat.le_trans (Nat.le_mul_of_pos_left _ (Nat.pow_pos (by decide))) (Nat.le_add_right _ _)
    rw [Decimal.gather, if_pos hle, ih _ h]
    rfl

theorem numeral?_toDigits (n : Nat) :
    numeral? false (Nat.toDigits 10 n) = some (⟨false, Nat.toDigits 10 n, none, none⟩, []) := by
  have hdigits : (Nat.toDigits 10 n).all Char.isDigit = true :=
    List.all_eq_true.2 fun c hc => Nat.isDigit_of_mem_toDigits (by decide) (by decide) hc
  have hspan : spanDigits (Nat.toDigits 10 n ++ []) = (Nat.toDigits 10 n, []) :=
    Decimal.spanDigits_append hdigits (by rintro _ ⟨⟩)
  rw [List.append_nil] at hspan
  have hwhole : ((Nat.toDigits 10 n).isEmpty ||
      ((Nat.toDigits 10 n).head? == some '0' && decide (1 < (Nat.toDigits 10 n).length))) = false := by
    rw [List.isEmpty_eq_false_iff.2 Nat.toDigits_ne_nil, Bool.false_or]
    cases hzero : ((Nat.toDigits 10 n).head? == some '0') with
    | false => rfl
    | true =>
      rw [eq_zero_of_head?_toDigits n (beq_iff_eq.1 hzero)]
      rfl
  simp only [numeral?, hspan, hwhole]
  rfl

theorem readsBack_ofNat {n : Nat} (h : n < 1 <<< 64) : (Number.integer n).ReadsBack := by
  have htext : numberText (.integer n) = Nat.toDigits 10 n := by
    rw [numberText, ← Nat.toList_repr]
    rfl
  have hchars := isNumberChar_numberText (.integer n)
  rw [htext] at hchars
  obtain ⟨c, cs, hcs⟩ := List.exists_cons_of_ne_nil (Nat.toDigits_ne_nil (n := n) (b := 10))
  have hdigit : c.isDigit = true :=
    Nat.isDigit_of_mem_toDigits (by decide) (by decide) (hcs ▸ List.mem_cons_self)
  have hminus : c ≠ '-' := by
    rintro rfl
    cases hdigit
  have hlimit : Nat.ofDigitChars 10 (Nat.toDigits 10 n) 0 ≤ Decimal.significandLimit := by
    rw [Nat.ofDigitChars_ten_toDigits]
    exact Nat.le_sub_one_of_lt h
  have hvalue : ofNumeral ⟨false, Nat.toDigits 10 n, none, none⟩ = number (.integer n) := by
    simp [ofNumeral, gather_eq _ _ hlimit, Nat.ofDigitChars_ten_toDigits, Decimal.Numeral.isWhole]
  have hscalar : scalar? (Nat.toDigits 10 n) = some (number (.integer n), []) := by
    rw [hcs, scalar?_of_isNumberChar (hchars c (hcs ▸ List.mem_cons_self)), if_neg hminus,
      if_pos hdigit, ← hcs, numeral?_toDigits, Option.map_some, hvalue]
  rw [Number.ReadsBack, htext, read?_of_isNumberChar hchars, hscalar]
  rfl

end Json

end PageEditor
