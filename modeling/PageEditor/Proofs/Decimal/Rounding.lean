import PageEditor.Json.Reader

/-!
# Rounding to fifty-three bits

A product of two doubles is rounded to fifty-three bits and packed. Away from both ends of the range
of exponents the result is neither zero nor infinite; this holds for every power of ten that a
scaling uses.
-/
set_option autoImplicit false

namespace PageEditor.Decimal

open Float.Model (UnpackedFloat Format)
open Float.Model.UnpackedFloat (ExtendedMantissa Accuracy)

/-! ## Bits -/

theorem log2_half {m : Nat} (h : 0 < m.log2) : (m / 2).log2 = m.log2 - 1 := by
  have hdef := Nat.log2_def m
  split at hdef
  · omega
  · omega

theorem log2_shiftRight {m k : Nat} (h : k ≤ m.log2) : (m >>> k).log2 = m.log2 - k := by
  induction k with
  | zero => rfl
  | succ k ih =>
    have hk := ih (Nat.le_of_succ_le h)
    rw [Nat.shiftRight_succ, log2_half (by omega), hk]
    omega

theorem log2_eq_52 {m : Nat} :
    m.log2 = 52 ↔ 4503599627370496 ≤ m ∧ m < 9007199254740992 := by
  by_cases hm : m = 0
  · rw [hm]
    decide
  · exact Nat.log2_eq_iff hm

/-! ## Rounding -/

theorem mantissa_shiftRight (em : ExtendedMantissa) (k : Nat) :
    (em >>> k).mantissa = em.mantissa >>> k := by
  induction k with
  | zero => rfl
  | succ k ih =>
    show (em >>> k).mantissa / 2 = em.mantissa >>> (k + 1)
    rw [ih, Nat.shiftRight_succ]

theorem mantissa_ofMantissaAndAccuracy (m : Nat) (a : Accuracy) :
    (ExtendedMantissa.ofMantissaAndAccuracy m a).mantissa = m := by
  cases a with
  | exact => rfl
  | inexact o => cases o <;> rfl

theorem roundedMantissa_bounds (em : ExtendedMantissa) :
    em.mantissa ≤ em.roundedMantissa ∧ em.roundedMantissa ≤ em.mantissa + 1 := by
  obtain ⟨m, r, s⟩ := em
  cases r <;> cases s <;>
    simp only [ExtendedMantissa.roundedMantissa, ExtendedMantissa.accuracy,
      Accuracy.roundToNearestEven] <;>
    omega

theorem shiftToTargetExponent_eq {m : Nat} {e : Int} {a : Accuracy} {k : Nat}
    (hk : Format.binary64.targetExponent (Float.Model.totalExponent m e) = e + k) :
    (UnpackedFloat.shiftToTargetExponent Format.binary64 m e a).1.mantissa = m >>> k ∧
      (UnpackedFloat.shiftToTargetExponent Format.binary64 m e a).2 = e + k := by
  unfold UnpackedFloat.shiftToTargetExponent UnpackedFloat.shiftToExponent
  simp only [hk]
  have hk' : (e + k - e).toNat = k := by omega
  rw [hk', mantissa_shiftRight, mantissa_ofMantissaAndAccuracy]
  exact ⟨rfl, rfl⟩

/-- The exponent that goes with 53 bits, away from the smallest one. -/
theorem targetExponent_eq {m k : Nat} {e : Int} (hbits : m.log2 = k + 52) (hexp : -1074 ≤ e + k) :
    Format.binary64.targetExponent (Float.Model.totalExponent m e) = e + k := by
  have hmin : Format.binary64.minExponent = -1074 := by decide
  have hmantissa : (Format.binary64.mantissaBits : Int) = 53 := rfl
  rw [Format.targetExponent, Float.Model.totalExponent, hmin, hmantissa, hbits]
  omega

/-- A mantissa of at least 53 bits is rounded to one of 53 bits. The exponent goes up by the bits
that are dropped, and by one more where rounding up takes one bit too many. -/
theorem roundWithAccuracy_eq {m k : Nat} {e : Int} (s : UnpackedFloat.Sign) (a : Accuracy)
    (hbits : m.log2 = k + 52) (hexp : -1074 ≤ e + k) :
    ∃ m' e' h, UnpackedFloat.roundWithAccuracy Format.binary64 s m e a = .finite s m' e' h ∧
      m'.log2 = 52 ∧ e + k ≤ e' ∧ e' ≤ e + k + 1 := by
  obtain ⟨hq, he⟩ := shiftToTargetExponent_eq (a := a) (targetExponent_eq hbits hexp)
  obtain ⟨hlow, hhigh⟩ := roundedMantissa_bounds
    (UnpackedFloat.shiftToTargetExponent Format.binary64 m e a).1
  unfold UnpackedFloat.roundWithAccuracy
  dsimp only
  generalize UnpackedFloat.shiftToTargetExponent Format.binary64 m e a = first at *
  obtain ⟨em, e₁⟩ := first
  dsimp only at hq he hlow hhigh ⊢
  generalize em.roundedMantissa = r at *
  rw [hq] at hlow hhigh
  subst he
  have hqbits : (m >>> k).log2 = 52 := by
    rw [log2_shiftRight (by omega)]
    omega
  obtain ⟨hqlow, hqhigh⟩ := log2_eq_52.1 hqbits
  obtain ⟨d, hd, hrbits⟩ : ∃ d ≤ 1, r.log2 = d + 52 := by
    by_cases hr : r < 9007199254740992
    · exact ⟨0, by decide, log2_eq_52.2 ⟨by omega, hr⟩⟩
    · have hr : r = 9007199254740992 := by omega
      exact ⟨1, by decide, by rw [hr]; decide⟩
  obtain ⟨hm, he⟩ := shiftToTargetExponent_eq (a := .exact)
    (targetExponent_eq (e := e + k) hrbits (by omega))
  have hkept : (r >>> d).log2 = 52 := by
    rw [log2_shiftRight (by omega)]
    omega
  have hpos := (log2_eq_52.1 hkept).1
  rw [dif_neg (by omega)]
  refine ⟨_, _, ?_, rfl, ?_, ?_, ?_⟩
  · omega
  · rw [hm, hkept]
  · omega
  · omega

/-! ## Packing -/

theorem unpack_finite (b : BitVec Format.binary64.numBits)
    (htop : UnpackedFloat.unpackExponent b ≠ -1#_) (hzero : UnpackedFloat.unpackExponent b ≠ 0#_) :
    ∃ s m e h, UnpackedFloat.unpack Format.binary64 b = .finite s m e h := by
  unfold UnpackedFloat.unpack
  dsimp only
  rw [if_neg htop, if_neg hzero]
  refine ⟨_, _, _, ?_, rfl⟩
  rw [BitVec.toNat_append]
  exact Nat.lt_of_lt_of_le (by decide) Nat.left_le_or

theorem unpack_pack_finite {s : UnpackedFloat.Sign} {m : Nat} {e : Int} (hm : 0 < m)
    (hbits : m.log2 = 52) (hlow : -1074 ≤ e) (hhigh : e ≤ 971) :
    ∃ s' m' e' h, (Float.Model.pack (.finite s m e hm)).unpack = .finite s' m' e' h := by
  obtain ⟨n, hn⟩ : ∃ n : Nat, e + 1023 + 52 = n := ⟨(e + 1075).toNat, by omega⟩
  have hexp : (e + Format.binary64.exponentBias + Format.binary64.mantissaBitsWithoutImplicit).toNat
      = n := congrArg Int.toNat hn
  have hpacked : UnpackedFloat.unpackExponent
      (UnpackedFloat.pack Format.binary64 (.finite s m e hm)) = BitVec.ofNat 11 n := by
    unfold UnpackedFloat.pack
    simp only [hexp]
    rw [if_neg (show ¬2048 ≤ n + 1 by omega), if_pos (by rw [hbits]; rfl)]
    exact UnpackedFloat.unpackExponent_packComponents
  have hmod : n % 2048 = n := Nat.mod_eq_of_lt (by omega)
  refine unpack_finite _ ?_ ?_
  · intro h
    have : n % 2048 = 2047 := congrArg BitVec.toNat (hpacked.symm.trans h)
    omega
  · intro h
    have : n % 2048 = 0 := congrArg BitVec.toNat (hpacked.symm.trans h)
    omega

/-! ## Powers of ten -/

/-- A positive or negative double, neither zero nor infinite. -/
def IsProper (x : Float) : Prop :=
  ∃ s m e h, x.toModel.unpack = .finite s m e h

instance (x : Float) : Decidable (IsProper x) :=
  match h : x.toModel.unpack with
  | .finite s m e hm => .isTrue ⟨s, m, e, hm, h⟩
  | .notANumber => .isFalse fun ⟨_, _, _, _, hf⟩ => UnpackedFloat.noConfusion (h.symm.trans hf)
  | .infinity _ => .isFalse fun ⟨_, _, _, _, hf⟩ => UnpackedFloat.noConfusion (h.symm.trans hf)
  | .zero _ => .isFalse fun ⟨_, _, _, _, hf⟩ => UnpackedFloat.noConfusion (h.symm.trans hf)

/-- The powers of ten that are listed. -/
theorem isProper_tenPower_listed : ∀ e < 23, IsProper (Float.ofScientific 1 false e) := by
  decide

/-- The largest power of ten by which a scaling divides at once. -/
theorem isProper_limit : IsProper 1e308 := by
  decide +kernel

theorem log2_le_log2 {m n : Nat} (hm : m ≠ 0) (h : m ≤ n) : m.log2 ≤ n.log2 :=
  (Nat.le_log2 (by omega)).2 (Nat.le_trans (Nat.log2_self_le hm) h)

theorem tenPower_le_mul {e a b : Nat} (h : e ≤ a + b) :
    Nat.pow 10 e ≤ Nat.pow 10 a * Nat.pow 10 b :=
  Nat.le_trans (Nat.pow_le_pow_right (by decide) h) (Nat.le_of_eq (Nat.pow_add 10 a b))

/-- The other powers of ten are computed, below the last one with room for a carry. -/
theorem isProper_tenPower_computed {e : Nat} (hlow : 22 < e) (hhigh : e ≤ 307) :
    IsProper (Float.ofScientific 1 false e) := by
  have hten : 1 ≤ Nat.pow 10 e := Nat.pow_le_pow_right (by decide) (Nat.zero_le e)
  have hmax : Nat.pow 10 e ≤ Nat.pow 10 154 * Nat.pow 10 153 := tenPower_le_mul hhigh
  have hbits : 53 ≤ (9007199254740992 * Nat.pow 10 e).log2 :=
    Nat.le_trans (by decide) (log2_le_log2 (m := 9007199254740992) (by decide) (by omega))
  have hroom : (9007199254740992 * Nat.pow 10 e).log2 ≤ 1072 :=
    Nat.le_trans (log2_le_log2 (by omega) (Nat.mul_le_mul_left _ hmax)) (by decide +kernel)
  obtain ⟨k, hk⟩ := Nat.exists_eq_add_of_le' (Nat.le_of_succ_le hbits)
  obtain ⟨m, x, hm, hround, hm52, hx, hx'⟩ := roundWithAccuracy_eq (e := -53) .positive .exact hk
    (by omega)
  have hpow : Float.ofScientific 1 false e = Float.ofModel (Float.Model.pack
      (UnpackedFloat.roundWithAccuracy Format.binary64 .positive (9007199254740992 * Nat.pow 10 e)
        (-53) .exact)) := by
    unfold Float.ofScientific
    rw [dif_neg (by omega)]
    show Float.ofModel (Float.Model.pack (UnpackedFloat.ofScientific Format.binary64 1 e)) = _
    unfold UnpackedFloat.ofScientific
    rw [dif_neg (by decide), if_neg (by show ¬(e : Int) > 2048; omega),
      if_neg (by show ¬(e : Int) < -(2048 + 0); omega), if_pos (by omega)]
    rfl
  rw [hpow, hround]
  exact unpack_pack_finite hm hm52 (by omega) (by omega)

theorem isProper_tenPower {e : Nat} (he : e ≤ 308) : IsProper (Float.ofScientific 1 false e) := by
  by_cases hlow : e < 23
  · exact isProper_tenPower_listed e hlow
  · by_cases hlast : e = 308
    · rw [hlast]
      exact isProper_limit
    · exact isProper_tenPower_computed (by omega) (by omega)

end PageEditor.Decimal
