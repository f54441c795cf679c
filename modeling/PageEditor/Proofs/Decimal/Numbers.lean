import PageEditor.Json.Decode
import PageEditor.Proofs.Decimal.Rounding

/-!
# Doubles that are numbers

A double that is no number differs from itself, so settings with such a double would differ from
themselves. The doubles that a decimal literal denotes are numbers: products and quotients with a
power of ten keep off the one thing that is none.
-/
set_option autoImplicit false

namespace PageEditor.Decimal

open Float.Model (UnpackedFloat Format)

/-! ## Numbers -/

/-- A double that is a number; the infinities are. -/
def IsNumber (x : Float) : Prop := x.isNaN = false

theorem isNumber_iff {x : Float} : IsNumber x ↔ x.toModel.unpack ≠ .notANumber := by
  rw [IsNumber, Float.isNaN, Float.Model.isNaN]
  cases x.toModel.unpack with
  | notANumber => exact ⟨by rintro ⟨⟩, fun h => absurd rfl h⟩
  | infinity s => exact ⟨fun _ => by rintro ⟨⟩, fun _ => rfl⟩
  | zero s => exact ⟨fun _ => by rintro ⟨⟩, fun _ => rfl⟩
  | finite s m e hm => exact ⟨fun _ => by rintro ⟨⟩, fun _ => rfl⟩

theorem compare_self (u : UnpackedFloat) (h : u ≠ .notANumber) : u.compare u = some .eq := by
  cases u with
  | notANumber => exact absurd rfl h
  | infinity s => cases s <;> rfl
  | zero s => cases s <;> rfl
  | finite s m e hm =>
    have hrefl : (compare e e).then (compare m m) = .eq := by
      rw [Std.compare_self, Std.compare_self]
      rfl
    cases s with
    | positive => exact congrArg some hrefl
    | negative => exact congrArg (fun o => some (Ordering.swap o)) hrefl

theorem beq_self {x : Float} (h : IsNumber x) : (x == x) = true := by
  have hc := compare_self _ (isNumber_iff.1 h)
  show (x.toModel.unpack.compare x.toModel.unpack == some .eq) = true
  rw [hc]
  rfl

/-! ## Packing -/

theorem unpack_ne (b : BitVec Format.binary64.numBits)
    (h : UnpackedFloat.unpackExponent b ≠ -1#_ ∨ UnpackedFloat.unpackMantissa b = 0#_) :
    UnpackedFloat.unpack Format.binary64 b ≠ .notANumber := by
  by_cases htop : UnpackedFloat.unpackExponent b = -1#_
  · have hm := h.resolve_left fun hn => hn htop
    unfold UnpackedFloat.unpack
    dsimp only
    rw [if_pos htop, if_pos hm]
    rintro ⟨⟩
  · by_cases hzero : UnpackedFloat.unpackExponent b = 0#_
    · unfold UnpackedFloat.unpack
      dsimp only
      rw [if_neg htop, if_pos hzero]
      by_cases hm : UnpackedFloat.unpackMantissa b = 0#_
      · rw [dif_pos hm]
        rintro ⟨⟩
      · rw [dif_neg hm]
        rintro ⟨⟩
    · obtain ⟨s, m, e, hpos, hu⟩ := unpack_finite b htop hzero
      rw [hu]
      rintro ⟨⟩

theorem unpack_pack_ne (u : UnpackedFloat) (h : u ≠ .notANumber) :
    (Float.Model.pack u).unpack ≠ .notANumber := by
  refine unpack_ne _ ?_
  show UnpackedFloat.unpackExponent (UnpackedFloat.pack Format.binary64 u) ≠ -1#_ ∨
    UnpackedFloat.unpackMantissa (UnpackedFloat.pack Format.binary64 u) = 0#_
  cases u with
  | notANumber => exact absurd rfl h
  | infinity s =>
    exact .inr UnpackedFloat.unpackMantissa_packComponents
  | zero s =>
    exact .inr UnpackedFloat.unpackMantissa_packComponents
  | finite s m e hm =>
    unfold UnpackedFloat.pack
    dsimp only
    split
    · exact .inr UnpackedFloat.unpackMantissa_packComponents
    · rename_i hsmall
      left
      split
      · rw [UnpackedFloat.unpackExponent_packComponents]
        intro hneg
        have hn := congrArg BitVec.toNat hneg
        rw [BitVec.toNat_ofNat, BitVec.neg_one_eq_allOnes, BitVec.toNat_allOnes,
          Nat.mod_eq_of_lt (by omega)] at hn
        omega
      · rw [UnpackedFloat.unpackExponent_packComponents]
        decide

/-! ## Operations -/

theorem roundWithAccuracy_ne (sign : Float.Model.UnpackedFloat.Sign) (m : Nat) (e : Int)
    (a : UnpackedFloat.Accuracy) :
    UnpackedFloat.roundWithAccuracy Format.binary64 sign m e a ≠ .notANumber := by
  unfold UnpackedFloat.roundWithAccuracy
  dsimp only
  generalize UnpackedFloat.shiftToTargetExponent Format.binary64 _ _ .exact = final
  by_cases hzero : final.1.mantissa = 0
  · rw [dif_pos hzero]
    rintro ⟨⟩
  · rw [dif_neg hzero]
    rintro ⟨⟩

theorem isNumber_mul {x y : Float} (hx : IsNumber x) (hy : IsProper y) : IsNumber (x * y) := by
  rw [isNumber_iff] at hx ⊢
  refine unpack_pack_ne (UnpackedFloat.mul Format.binary64 x.toModel.unpack y.toModel.unpack) ?_
  obtain ⟨s, m, e, hm, hu⟩ := hy
  rw [hu]
  cases hv : x.toModel.unpack with
  | notANumber => exact absurd hv hx
  | infinity => rintro ⟨⟩
  | zero => rintro ⟨⟩
  | finite => exact roundWithAccuracy_ne _ _ _ _

theorem isNumber_div {x y : Float} (hx : IsNumber x) (hy : IsProper y) : IsNumber (x / y) := by
  rw [isNumber_iff] at hx ⊢
  refine unpack_pack_ne (UnpackedFloat.div Format.binary64 x.toModel.unpack y.toModel.unpack) ?_
  obtain ⟨s, m, e, hm, hu⟩ := hy
  rw [hu]
  cases hv : x.toModel.unpack with
  | notANumber => exact absurd hv hx
  | infinity => rintro ⟨⟩
  | zero => rintro ⟨⟩
  | finite => exact roundWithAccuracy_ne _ _ _ _

theorem isNumber_neg {x : Float} (hx : IsNumber x) : IsNumber (-x) := by
  rw [isNumber_iff] at hx ⊢
  refine unpack_pack_ne x.toModel.unpack.neg ?_
  cases hv : x.toModel.unpack with
  | notANumber => exact absurd hv hx
  | infinity => rintro ⟨⟩
  | zero => rintro ⟨⟩
  | finite => rintro ⟨⟩

theorem isNumber_toFloat (n : UInt64) : IsNumber n.toFloat := by
  rw [isNumber_iff]
  refine unpack_pack_ne (UnpackedFloat.ofUInt64 Format.binary64 n) ?_
  unfold UnpackedFloat.ofUInt64 UnpackedFloat.ofNat UnpackedFloat.ofInt UnpackedFloat.normalize
  split
  · exact roundWithAccuracy_ne _ _ _ _
  · rintro ⟨⟩
  · exact roundWithAccuracy_ne _ _ _ _

/-! ## Literals -/

theorem isNumber_zero : IsNumber 0.0 := by
  show Float.isNaN 0.0 = false
  rfl

theorem isNumber_scale {x y : Float} {e : Int} (hx : IsNumber x) (h : scale x e = some y) :
    IsNumber y := by
  fun_induction scale x e with
  | case1 => cases h
  | case2 x e he ten hpos z hinf =>
    rw [← Option.some.inj h]
    exact isNumber_mul hx (isProper_tenPower (by omega))
  | case3 x e he ten hneg =>
    cases h
    exact isNumber_div hx (isProper_tenPower (by omega))
  | case4 => cases h; exact hx
  | case5 => cases h
  | case6 x e _ _ _ ih =>
    refine ih ?_ h
    exact isNumber_div hx isProper_limit

theorem isNumber_of_toFloat {n : Numeral} {x : Float} (h : n.toFloat = some x) : IsNumber x := by
  have hsigned : ∀ y, IsNumber y → IsNumber (if n.negative = true then -y else y) := by
    intro y hy
    split
    · exact isNumber_neg hy
    · exact hy
  simp only [Numeral.toFloat, Option.bind_eq_bind, Option.pure_def] at h
  split at h
  · obtain ⟨y, hy, hx⟩ := Option.bind_eq_some_iff.1 h
    rw [← Option.some.inj hx]
    exact hsigned y (isNumber_scale (isNumber_toFloat _) hy)
  · split at h
    · obtain ⟨y, hy, hx⟩ := Option.bind_eq_some_iff.1 h
      rw [← Option.some.inj hx]
      exact hsigned y (isNumber_scale (isNumber_toFloat _) hy)
    · split at h
      · rw [← Option.some.inj h]
        exact hsigned 0.0 isNumber_zero
      · cases h

end PageEditor.Decimal
