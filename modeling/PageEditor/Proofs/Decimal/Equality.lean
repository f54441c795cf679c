import PageEditor.Proofs.Decimal.Numbers

/-!
# Equal doubles

Equality of doubles is not that of their bits: a zero equals its opposite, though the two are written
differently, and what is no number equals nothing. Every other number equals itself only, since it is
packed in one way.
-/
set_option autoImplicit false

namespace PageEditor.Decimal

open Float.Model (UnpackedFloat Format)
open Float.Model.UnpackedFloat (unpack unpackSign unpackExponent unpackMantissa)

/-! ## Bits -/

theorem toNat_eq_components (b : BitVec Format.binary64.numBits) :
    b.toNat = (unpackSign b).toNat * 9223372036854775808 +
      ((unpackExponent b).toNat * 4503599627370496 +
        (unpackMantissa b).toNat) := by
  have hb : b.toNat < 18446744073709551616 := b.isLt
  delta unpackSign unpackExponent unpackMantissa
  simp only [BitVec.toNat_cast, BitVec.extractLsb_toNat, Nat.shiftRight_eq_div_pow, Nat.reduceAdd,
    Nat.reduceSub, Nat.reducePow, Nat.div_one]
  omega

variable {a b : BitVec Format.binary64.numBits}

theorem sign_inj {s t : BitVec 1}
    (h : UnpackedFloat.Sign.ofBitVec s = UnpackedFloat.Sign.ofBitVec t) : s = t := by
  unfold UnpackedFloat.Sign.ofBitVec at h
  split at h <;> split at h
  · simp_all
  · cases h
  · cases h
  · bv_omega

theorem eq_of_components
    (hsign : UnpackedFloat.Sign.ofBitVec (unpackSign a) = UnpackedFloat.Sign.ofBitVec (unpackSign b))
    (hexponent : unpackExponent a = unpackExponent b)
    (hmantissa : unpackMantissa a = unpackMantissa b) : a = b := by
  refine BitVec.eq_of_toNat_eq ?_
  rw [toNat_eq_components a, toNat_eq_components b, sign_inj hsign, hexponent, hmantissa]

/-! ## Numbers -/

theorem finite_congr {s : UnpackedFloat.Sign} {m n : Nat} {e f : Int} (hmn : m = n) (hef : e = f)
    {hm : 0 < m} {hn : 0 < n} : UnpackedFloat.finite s m e hm = .finite s n f hn := by
  subst hmn hef
  rfl

/-- What is unpacked is an infinity, a zero, or the mantissa, with a one in front of it unless the
exponent is zero. -/
theorem unpack_cases (hnumber : unpack Format.binary64 b ≠ .notANumber) :
    (unpackExponent b = -1#_ ∧ unpackMantissa b = 0#_ ∧
      unpack Format.binary64 b = .infinity (.ofBitVec (unpackSign b))) ∨
    (unpackExponent b = 0#_ ∧ unpackMantissa b = 0#_ ∧
      unpack Format.binary64 b = .zero (.ofBitVec (unpackSign b))) ∨
    ∃ hpos, unpack Format.binary64 b = .finite (.ofBitVec (unpackSign b))
      ((if unpackExponent b = 0#_ then 0 else 4503599627370496) + (unpackMantissa b).toNat)
      ((if unpackExponent b = 0#_ then 1 else (unpackExponent b).toNat) - 1075) hpos := by
  unfold unpack at hnumber ⊢
  dsimp only at hnumber ⊢
  by_cases htop : unpackExponent b = -1#_
  · by_cases hm : unpackMantissa b = 0#_
    · rw [if_pos htop, if_pos hm]
      exact .inl ⟨htop, hm, rfl⟩
    · rw [if_pos htop, if_neg hm] at hnumber
      exact absurd rfl hnumber
  · rw [if_neg htop]
    by_cases hzero : unpackExponent b = 0#_
    · rw [if_pos hzero]
      by_cases hm : unpackMantissa b = 0#_
      · rw [dif_pos hm]
        exact .inr (.inl ⟨hzero, hm, rfl⟩)
      · rw [dif_neg hm]
        have hpos : 0 < (unpackMantissa b).toNat :=
          Nat.pos_of_ne_zero fun h => hm (BitVec.eq_of_toNat_eq h)
        refine .inr (.inr ⟨Nat.lt_of_lt_of_le hpos (Nat.le_add_left _ _), finite_congr ?_ ?_⟩)
        · rw [if_pos hzero, Nat.zero_add]
        · rw [if_pos hzero, hzero]
          rfl
    · have hnat : (1#1 ++ unpackMantissa b).toNat = 4503599627370496 + (unpackMantissa b).toNat := by
        rw [BitVec.toNat_append]
        exact (Nat.two_pow_add_eq_or_of_lt (unpackMantissa b).isLt 1).symm
      rw [if_neg hzero]
      refine .inr (.inr ⟨by rw [if_neg hzero]; omega, finite_congr ?_ ?_⟩)
      · rw [if_neg hzero, hnat]
      · rw [if_neg hzero]
        rfl

theorem eq_of_unpack (h : unpack Format.binary64 a = unpack Format.binary64 b)
    (hnumber : unpack Format.binary64 a ≠ .notANumber) : a = b := by
  rcases unpack_cases hnumber with ⟨hea, hma, ha⟩ | ⟨hea, hma, ha⟩ | ⟨_, ha⟩ <;>
    rcases unpack_cases (h ▸ hnumber) with ⟨heb, hmb, hb⟩ | ⟨heb, hmb, hb⟩ | ⟨_, hb⟩ <;>
    rw [ha, hb] at h
  case inl.inl | inr.inl.inr.inl =>
    injection h with hsign
    exact eq_of_components hsign (hea.trans heb.symm) (hma.trans hmb.symm)
  case inr.inr.inr.inr =>
    injection h with hsign hm he
    have hlta : (unpackMantissa a).toNat < 4503599627370496 := (unpackMantissa a).isLt
    have hltb : (unpackMantissa b).toNat < 4503599627370496 := (unpackMantissa b).isLt
    have hparts : unpackExponent a = unpackExponent b ∧ unpackMantissa a = unpackMantissa b := by
      rw [BitVec.toNat_eq (x := unpackMantissa a)]
      by_cases hza : unpackExponent a = 0#_ <;> by_cases hzb : unpackExponent b = 0#_
      · rw [if_pos hza, if_pos hzb] at hm
        exact ⟨hza.trans hzb.symm, by omega⟩
      · rw [if_pos hza, if_neg hzb] at hm
        omega
      · rw [if_neg hza, if_pos hzb] at hm
        omega
      · rw [if_neg hza, if_neg hzb] at hm he
        exact ⟨BitVec.eq_of_toNat_eq (by omega), by omega⟩
    exact eq_of_components hsign hparts.1 hparts.2
  all_goals cases h

/-! ## Equality -/

/-- The same double, or a zero and a zero. -/
def SameNumber (x y : Float) : Prop := x = y ∨ (x = 0.0 ∨ x = -0.0) ∧ (y = 0.0 ∨ y = -0.0)

theorem eq_of_toModel_unpack {x y : Float} (h : x.toModel.unpack = y.toModel.unpack)
    (hx : IsNumber x) : x = y := by
  have hbits := eq_of_unpack h (isNumber_iff.1 hx)
  obtain ⟨⟨a, ha⟩⟩ := x
  obtain ⟨⟨b, hb⟩⟩ := y
  simp only at hbits
  cases UInt64.toBitVec_inj.1 hbits
  rfl

theorem eq_of_compare {u v : UnpackedFloat} (h : u.compare v = some .eq) :
    u = v ∨ (∃ s, u = .zero s) ∧ ∃ s, v = .zero s := by
  cases u with
  | notANumber => cases h
  | infinity s =>
    cases v with
    | notANumber => cases s <;> cases h
    | infinity t => exact .inl (by cases s <;> cases t <;> first | rfl | cases h)
    | zero t => cases s <;> cases h
    | finite t m e hm => cases s <;> cases h
  | zero s =>
    cases v with
    | notANumber => cases h
    | infinity t => cases t <;> cases h
    | zero t => exact .inr ⟨⟨s, rfl⟩, t, rfl⟩
    | finite t m e hm => cases t <;> cases h
  | finite s m e hm =>
    cases v with
    | notANumber => cases s <;> cases h
    | infinity t => cases s <;> cases t <;> cases h
    | zero t => cases s <;> cases h
    | finite t n f hn =>
      have hthen : s = t ∧ (compare e f).then (compare m n) = .eq := by
        cases s with
        | positive =>
          cases t with
          | positive => exact ⟨rfl, Option.some.inj h⟩
          | negative => cases h
        | negative =>
          cases t with
          | positive => cases h
          | negative => exact ⟨rfl, Ordering.swap_eq_eq.1 (Option.some.inj h)⟩
      obtain ⟨rfl, hthen⟩ := hthen
      obtain ⟨he, hm⟩ := Ordering.then_eq_eq.1 hthen
      cases Std.compare_eq_iff_eq.1 he
      cases Std.compare_eq_iff_eq.1 hm
      exact .inl rfl

theorem unpack_zero : (0.0 : Float).toModel.unpack = .zero .positive := by
  have hbits : (0.0 : Float).toModel.toBits = 0 := rfl
  rw [Float.Model.unpack, hbits]
  rfl

theorem unpack_neg_zero : (-0.0 : Float).toModel.unpack = .zero .negative := by
  have hbits : (-0.0 : Float).toModel.toBits = 9223372036854775808 := rfl
  rw [Float.Model.unpack, hbits]
  rfl

theorem eq_zero_of_unpack {x : Float} {s : UnpackedFloat.Sign} (h : x.toModel.unpack = .zero s) :
    x = 0.0 ∨ x = -0.0 := by
  have hx : IsNumber x := isNumber_iff.2 (by rw [h]; rintro ⟨⟩)
  cases s with
  | positive => exact .inl (eq_of_toModel_unpack (h.trans unpack_zero.symm) hx)
  | negative => exact .inr (eq_of_toModel_unpack (h.trans unpack_neg_zero.symm) hx)

/-- Equality of doubles does not tell a zero from its opposite, and tells all other numbers apart. -/
theorem beq_iff_sameNumber {x y : Float} (hx : IsNumber x) :
    (x == y) = true ↔ SameNumber x y := by
  constructor
  · intro h
    have hcompare : x.toModel.unpack.compare y.toModel.unpack = some .eq := beq_iff_eq.1 h
    rcases eq_of_compare hcompare with h | ⟨⟨s, hs⟩, t, ht⟩
    · exact .inl (eq_of_toModel_unpack h hx)
    · exact .inr ⟨eq_zero_of_unpack hs, eq_zero_of_unpack ht⟩
  · rintro (rfl | ⟨rfl | rfl, rfl | rfl⟩)
    · exact beq_self hx
    all_goals rfl

end PageEditor.Decimal
