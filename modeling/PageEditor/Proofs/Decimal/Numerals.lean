import PageEditor.Decimal.Scaled
import PageEditor.Proofs.Markup.Lexing

/-!
# Texts of numbers

The numbers that are tokens of a style object are numbers for the printer as well, and in no text of a
number there is white space, so a text that is a number is one whether it is trimmed or not.
-/
set_option autoImplicit false

namespace PageEditor

/-! ## Texts without white space -/

theorem Text.isBlank_of_isDigit {c : Char} (h : c.isDigit = true) : isBlank c = false := by
  have hall : "0123456789".toList.all (fun d => !isBlank d) = true := by decide
  simpa using List.all_eq_true.1 hall c (Token.mem_digits h)

theorem Text.toLower_of_isBlank {c : Char} (h : isBlank c = true) : c.toLower = c := by
  have hlow : ¬ (65 ≤ c.toNat ∧ c.toNat ≤ 90) := by
    rintro ⟨hlow, hhigh⟩
    simp only [isBlank, Bool.or_eq_true, Bool.and_eq_true, decide_eq_true_eq, beq_iff_eq] at h
    omega
  unfold Char.toLower
  rw [dif_neg]
  intro hupper
  exact hlow ⟨UInt32.le_iff_toNat_le.1 hupper.1, UInt32.le_iff_toNat_le.1 hupper.2⟩

/-- A text without white space. -/
def IsSolid (cs : List Char) : Prop := ∀ c ∈ cs, Text.isBlank c = false

theorem isSolid_of_all {cs : List Char} (h : cs.all (fun c => !Text.isBlank c) = true) :
    IsSolid cs := by
  intro c hc
  simpa using List.all_eq_true.1 h c hc

theorem IsSolid.append {a b : List Char} (ha : IsSolid a) (hb : IsSolid b) : IsSolid (a ++ b) :=
  List.forall_mem_append.2 ⟨ha, hb⟩

theorem IsSolid.cons {c : Char} {cs : List Char} (hc : Text.isBlank c = false) (h : IsSolid cs) :
    IsSolid (c :: cs) :=
  List.forall_mem_cons.2 ⟨hc, h⟩

theorem IsSolid.trim {cs : List Char} (h : IsSolid cs) : Text.trim cs = cs := by
  have hdrop : ∀ {cs : List Char}, IsSolid cs → cs.dropWhile Text.isBlank = cs := by
    intro cs hcs
    cases cs with
    | nil => rfl
    | cons c cs => rw [List.dropWhile_cons_of_neg (by simp [hcs c List.mem_cons_self])]
  have hback : IsSolid cs.reverse := fun c hc => h c (List.mem_reverse.1 hc)
  rw [Text.trim, Text.trimEnd, Text.trimStart, hdrop h, hdrop hback, List.reverse_reverse]

theorem isSolid_digits {cs : List Char} (h : cs.all Char.isDigit = true) : IsSolid cs := fun c hc =>
  Text.isBlank_of_isDigit (List.all_eq_true.1 h c hc)

namespace Decimal

/-! ## Numerals are solid -/

theorem isSolid_of_dropSign {cs : List Char} (h : IsSolid (dropSign cs)) : IsSolid cs := by
  unfold dropSign at h
  split at h
  · exact .cons (by decide) h
  · exact .cons (by decide) h
  · exact h

theorem isSolid_of_isPower {cs : List Char} (h : isPower cs = true) : IsSolid cs := by
  cases cs with
  | nil => rintro _ ⟨⟩
  | cons c cs =>
    simp only [isPower, Bool.and_eq_true, Bool.or_eq_true, beq_iff_eq] at h
    refine .cons ?_ (isSolid_of_dropSign (isSolid_digits h.2))
    rcases h.1.1 with rfl | rfl <;> decide

theorem isSolid_spanDigits {cs : List Char} (h : IsSolid (spanDigits cs).2) : IsSolid cs := by
  have hdigits : IsSolid (cs.takeWhile Char.isDigit) := isSolid_digits List.all_takeWhile
  have hall := hdigits.append h
  rwa [spanDigits, List.takeWhile_append_dropWhile] at hall

theorem isSolid_of_isDecimal {cs : List Char} (h : isDecimal cs = true) : IsSolid cs := by
  refine isSolid_spanDigits ?_
  unfold isDecimal at h
  split at h
  · rename_i whole r hr
    rw [hr]
    simp only [Bool.and_eq_true] at h
    exact .cons (by decide) (isSolid_spanDigits (isSolid_of_isPower h.2))
  · rename_i whole r _ hr
    rw [hr]
    simp only [Bool.and_eq_true] at h
    exact isSolid_of_isPower h.2

theorem isSolid_of_toLower {cs : List Char} {name : String} (hname : IsSolid name.toList)
    (h : String.ofList (cs.map Char.toLower) = name) : IsSolid cs := by
  subst h
  intro c hc
  cases hblank : Text.isBlank c with
  | false => rfl
  | true =>
    have hlower := hname c.toLower (by
      rw [String.toList_ofList]
      exact List.mem_map_of_mem hc)
    rw [Text.toLower_of_isBlank hblank, hblank] at hlower
    exact hlower

theorem isSolid_of_isNumeral {cs : List Char} (h : isNumeral cs = true) : IsSolid cs := by
  refine isSolid_of_dropSign ?_
  simp only [isNumeral, Bool.or_eq_true, beq_iff_eq] at h
  rcases h with ((h | h) | h) | h
  · exact isSolid_of_toLower (isSolid_of_all (by decide)) h
  · exact isSolid_of_toLower (isSolid_of_all (by decide)) h
  · exact isSolid_of_toLower (isSolid_of_all (by decide)) h
  · exact isSolid_of_isDecimal h

/-! ## Numbers that are tokens -/

theorem spanDigits_append {front rest : List Char} (hfront : front.all Char.isDigit = true)
    (hrest : ∀ c, rest.head? = some c → c.isDigit = false) :
    spanDigits (front ++ rest) = (front, rest) := by
  have htake := Token.takeWhile_append_of_head hfront hrest
  have hall := List.takeWhile_append_dropWhile (p := Char.isDigit) (l := front ++ rest)
  rw [htake] at hall
  rw [spanDigits, htake, List.append_cancel_left hall]

theorem isDecimal_of_numberChars {cs : List Char} (h : Token.numberChars cs = cs) (hne : cs ≠ []) :
    isDecimal cs = true := by
  have hend : ∀ c, ([] : List Char).head? = some c → c.isDigit = false := by rintro _ ⟨⟩
  rcases Token.numberChars_cases h with hcs | ⟨whole, fraction, rfl, hwhole, hdigits, hne', hfraction⟩
  · have hspan := spanDigits_append hcs hend
    rw [List.append_nil] at hspan
    rw [isDecimal, hspan]
    simp [hne, isPower]
  · have hspan : spanDigits (whole ++ '.' :: fraction) = (whole, '.' :: fraction) :=
      spanDigits_append hdigits (by rintro _ ⟨⟩; rfl)
    have hspan' := spanDigits_append hfraction hend
    rw [List.append_nil] at hspan'
    rw [isDecimal, hspan]
    simp [hspan', hne', isPower]

theorem dropSign_of_isDigit {c : Char} {r : List Char} (h : c.isDigit = true) :
    dropSign (c :: r) = c :: r := by
  unfold dropSign
  split
  · rename_i hcs
    cases hcs
    exact absurd h (by decide)
  · rename_i hcs
    cases hcs
    exact absurd h (by decide)
  · rfl

theorem isNumeral_of_isNumber {cs : List Char} (h : Token.IsNumber cs) : isNumeral cs = true := by
  obtain ⟨ds, hds, hne, hcs⟩ := h
  have hbody : dropSign cs = ds := by
    obtain ⟨c, r, rfl⟩ := List.exists_cons_of_ne_nil hne
    rcases hcs with rfl | rfl
    · exact dropSign_of_isDigit (Token.isDigit_of_numberChars hds)
    · rfl
  rw [isNumeral, hbody, isDecimal_of_numberChars hds hne, Bool.or_true]

end Decimal
end PageEditor
