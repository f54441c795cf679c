import Mathlib.Data.List.Perm.Subperm
import PageEditor.Markup.Value
import PageEditor.Proofs.Decimal.Equality
import PageEditor.Proofs.Json.Numbers

/-!
# Fields that agree

What is compared with a snapshot of itself is found unchanged. For maps this is because every key
comes once, for animations because their numbers are read from a text and so equal themselves. What
is found unchanged need not be the same, though: maps agree whatever the order of their entries is,
and numbers when they are zeros of different signs.
-/
set_option autoImplicit false

namespace PageEditor

/-! ## Maps -/

/-- Maps agree if they have the same entries in any order. -/
theorem OrderedMap.same_iff_perm {α : Type} [DecidableEq α] {a b : OrderedMap α} :
    a.same b = true ↔ a.entries.Perm b.entries := by
  rw [same, Bool.and_eq_true, beq_iff_eq, List.all_eq_true]
  constructor
  · rintro ⟨hsize, hall⟩
    have hsubset : a.entries ⊆ b.entries := fun e he =>
      b.get?_eq_some_iff.1 (beq_iff_eq.1 (hall e he))
    have hnodup : a.entries.Nodup :=
      List.Pairwise.of_map Prod.fst (fun _ _ hne heq => hne (congrArg Prod.fst heq)) a.nodup
    exact (List.subperm_of_subset hnodup hsubset).perm_of_length_le (Nat.le_of_eq hsize.symm)
  · intro hperm
    refine ⟨hperm.length_eq, fun e he => ?_⟩
    rw [b.get?_eq_some_iff.2 (hperm.mem_iff.1 he)]
    exact beq_self_eq_true _

theorem OrderedMap.get?_of_same {α : Type} [DecidableEq α] {a b : OrderedMap α}
    (h : a.same b = true) (k : String) : a.get? k = b.get? k := by
  refine Option.ext fun v => ?_
  rw [a.get?_eq_some_iff, b.get?_eq_some_iff, (same_iff_perm.1 h).mem_iff]

/-! ## Animations -/

namespace Animation

open Decimal (IsNumber SameNumber beq_iff_sameNumber)

/-- Every setting that is a number is one. -/
structure HoldsNumbers (a : Animation) : Prop where
  duration : IsNumber a.duration
  delay : IsNumber a.delay
  distance : ∀ x, a.distance = some x → IsNumber x
  angle : ∀ x, a.angle = some x → IsNumber x
  intensity : ∀ x, a.intensity = some x → IsNumber x

theorem sameNumber_iff {o o' : Option Float} (h : ∀ x, o = some x → IsNumber x) :
    sameNumber o o' = true ↔ Option.Rel SameNumber o o' := by
  cases o with
  | none =>
    cases o' with
    | none => exact ⟨fun _ => .none, fun _ => rfl⟩
    | some y => exact ⟨by rintro ⟨⟩, by rintro ⟨⟩⟩
  | some x =>
    cases o' with
    | none => exact ⟨by rintro ⟨⟩, by rintro ⟨⟩⟩
    | some y => exact (beq_iff_sameNumber (h x rfl)).trans Option.rel_some_some.symm

/-- The same settings, but that zeros may have other signs. -/
structure SameButSigns (a b : Animation) : Prop where
  enabled : a.enabled = b.enabled
  kind : a.kind = b.kind
  trigger : a.trigger = b.trigger
  duration : SameNumber a.duration b.duration
  delay : SameNumber a.delay b.delay
  repeats : a.repeats = b.repeats
  ease : a.ease = b.ease
  direction : a.direction = b.direction
  distance : Option.Rel SameNumber a.distance b.distance
  angle : Option.Rel SameNumber a.angle b.angle
  intensity : Option.Rel SameNumber a.intensity b.intensity

theorem same_iff {a b : Animation} (h : a.HoldsNumbers) : a.same b = true ↔ a.SameButSigns b := by
  simp only [same, Bool.and_eq_true, beq_iff_eq, beq_iff_sameNumber h.duration,
    beq_iff_sameNumber h.delay, sameNumber_iff h.distance, sameNumber_iff h.angle,
    sameNumber_iff h.intensity]
  constructor
  · rintro ⟨⟨⟨⟨⟨⟨⟨⟨⟨⟨enabled, kind⟩, trigger⟩, duration⟩, delay⟩, repeats⟩, ease⟩, direction⟩,
      distance⟩, angle⟩, intensity⟩
    exact ⟨enabled, kind, trigger, duration, delay, repeats, ease, direction, distance, angle,
      intensity⟩
  · rintro ⟨enabled, kind, trigger, duration, delay, repeats, ease, direction, distance, angle,
      intensity⟩
    exact ⟨⟨⟨⟨⟨⟨⟨⟨⟨⟨enabled, kind⟩, trigger⟩, duration⟩, delay⟩, repeats⟩, ease⟩, direction⟩,
      distance⟩, angle⟩, intensity⟩

theorem SameButSigns.refl (a : Animation) : a.SameButSigns a := by
  have hself : ∀ o : Option Float, Option.Rel SameNumber o o := by
    intro o
    cases o with
    | none => exact .none
    | some x => exact .some (.inl rfl)
  exact ⟨rfl, rfl, rfl, .inl rfl, .inl rfl, rfl, rfl, rfl, hself _, hself _, hself _⟩

theorem isNumber_of_required? {v : Option Json} {x : Float}
    (hv : ∀ w, v = some w → w.HoldsNumbers) (h : Json.required? Json.double? v = some x) :
    IsNumber x := by
  cases v with
  | none => cases h
  | some w => exact Json.isNumber_of_double? (hv w rfl) h

theorem isNumber_of_optional? {v : Option Json} {x d : Float} (hd : IsNumber d)
    (hv : ∀ w, v = some w → w.HoldsNumbers) (h : Json.optional? d Json.double? v = some x) :
    IsNumber x := by
  cases v with
  | none =>
    cases h
    exact hd
  | some w => exact Json.isNumber_of_double? (hv w rfl) h

theorem isNumber_of_option? {v : Option Json} {o : Option Float}
    (hv : ∀ w, v = some w → w.HoldsNumbers)
    (h : Json.optional? none (Json.option? Json.double?) v = some o) :
    ∀ x, o = some x → IsNumber x := by
  intro x hx
  subst hx
  cases v with
  | none => cases h
  | some w =>
    simp only [Json.optional?, Json.option?] at h
    split at h
    · cases h
    · obtain ⟨y, hy, hyx⟩ := Option.map_eq_some_iff.1 h
      cases hyx
      exact Json.isNumber_of_double? (hv w rfl) hy

theorem holdsNumbers_of_ofJson? {room : Nat} {whole : Bool} {v : Json} {a : Animation}
    (hv : v.HoldsNumbers) (h : ofJson? room whole v = some a) : a.HoldsNumbers := by
  unfold ofJson? at h
  obtain ⟨_, _, h⟩ := Option.bind_eq_some_iff.1 h
  obtain ⟨fs, hfs, h⟩ := Option.bind_eq_some_iff.1 h
  have hall := Json.holdsNumbers_of_fields? hv hfs
  split at h
  · simp only [Option.bind_eq_bind, Option.bind_eq_some_iff, Option.pure_def, Option.some.injEq] at h
    obtain ⟨_, _, _, _, _, _, duration, hduration, delay, hdelay, _, _, _, _, _, _, distance,
      hdistance, angle, hangle, intensity, hintensity, rfl⟩ := h
    constructor
    · exact isNumber_of_required? (fun w hw => hall w (by simp [hw])) hduration
    · exact isNumber_of_optional? Decimal.isNumber_zero (fun w hw => hall w (by simp [hw])) hdelay
    · exact isNumber_of_option? (fun w hw => hall w (by simp [hw])) hdistance
    · exact isNumber_of_option? (fun w hw => hall w (by simp [hw])) hangle
    · exact isNumber_of_option? (fun w hw => hall w (by simp [hw])) hintensity
  · cases h

theorem holdsNumbers_of_ofText? {s : String} {a : Animation} (h : ofText? s = some a) :
    a.HoldsNumbers := by
  obtain ⟨v, hv, ha⟩ := Option.bind_eq_some_iff.1 h
  exact holdsNumbers_of_ofJson? (Json.holdsNumbers_of_read? hv) ha

end Animation

/-! ## Fields of tags -/

namespace Fields

theorem take_type (f : Fields) (a : Attribute) : (f.take a).type = f.type := by
  fun_cases take f a <;> rfl

theorem take_text (f : Fields) (a : Attribute) : (f.take a).text = f.text := by
  fun_cases take f a <;> rfl

/-- An attribute either leaves the animation alone or sets one that was read from a text. -/
theorem take_animation (f : Fields) (a : Attribute) :
    (f.take a).animation = f.animation ∨
      ∃ s m, Animation.ofText? s = some m ∧ (f.take a).animation = some m := by
  fun_cases take f a
  case case2 => exact .inr ⟨_, _, ‹_›, rfl⟩
  all_goals exact .inl rfl

theorem ofTag_type (type : String) (as : List Attribute) : (ofTag type as).type = type := by
  suffices h : ∀ f : Fields, (as.foldl take f).type = f.type from h _
  induction as with
  | nil => intro f; rfl
  | cons a as ih =>
    intro f
    rw [List.foldl_cons, ih, take_type]

theorem ofTag_text (type : String) (as : List Attribute) : (ofTag type as).text = none := by
  suffices h : ∀ f : Fields, (as.foldl take f).text = f.text from h _
  induction as with
  | nil => intro f; rfl
  | cons a as ih =>
    intro f
    rw [List.foldl_cons, ih, take_text]

theorem ofTag_animation {type : String} {as : List Attribute} {m : Animation}
    (h : (ofTag type as).animation = some m) : m.HoldsNumbers := by
  suffices hfold : ∀ f : Fields, (∀ m, f.animation = some m → m.HoldsNumbers) →
      ∀ m, (as.foldl take f).animation = some m → m.HoldsNumbers from
    hfold { type } (fun _ hm => by cases hm) m h
  clear h
  induction as with
  | nil =>
    intro f hf
    exact hf
  | cons a as ih =>
    intro f hf
    refine ih (f.take a) ?_
    intro m hm
    rcases take_animation f a with h | ⟨s, m', hs, h⟩
    · exact hf m (h ▸ hm)
    · cases h.symm.trans hm
      exact Animation.holdsNumbers_of_ofText? hs

/-- At most the order of the styles and of the attributes differs, and the signs of settings that are
zero. -/
structure SameButOrder (f g : Fields) : Prop where
  className : f.className = g.className
  style : f.style.entries.Perm g.style.entries
  attributes : f.attributes.entries.Perm g.attributes.entries
  animation : Option.Rel Animation.SameButSigns f.animation g.animation

/-- Fields are found to agree if at most the order differs and the signs of zeros. -/
theorem sameProps_iff {f g : Fields} (h : ∀ m, f.animation = some m → m.HoldsNumbers) :
    f.sameProps g = true ↔ f.SameButOrder g := by
  have hanimation : sameAnimation f.animation g.animation = true ↔
      Option.Rel Animation.SameButSigns f.animation g.animation := by
    cases hf : f.animation with
    | none =>
      cases g.animation with
      | none => exact ⟨fun _ => .none, fun _ => rfl⟩
      | some b => exact ⟨by rintro ⟨⟩, by rintro ⟨⟩⟩
    | some a =>
      cases g.animation with
      | none => exact ⟨by rintro ⟨⟩, by rintro ⟨⟩⟩
      | some b => exact (Animation.same_iff (h a hf)).trans Option.rel_some_some.symm
  rw [sameProps, Bool.and_eq_true, Bool.and_eq_true, Bool.and_eq_true, beq_iff_eq,
    OrderedMap.same_iff_perm, OrderedMap.same_iff_perm, hanimation]
  constructor
  · rintro ⟨⟨⟨hclass, hstyle⟩, hattributes⟩, hanimation⟩
    exact ⟨hclass, hstyle, hattributes, hanimation⟩
  · rintro ⟨hclass, hstyle, hattributes, hanimation⟩
    exact ⟨⟨⟨hclass, hstyle⟩, hattributes⟩, hanimation⟩

theorem sameProps_self {f : Fields} (h : ∀ m, f.animation = some m → m.HoldsNumbers) :
    f.sameProps f = true := by
  refine (sameProps_iff h).2 ⟨rfl, .refl _, .refl _, ?_⟩
  cases f.animation with
  | none => exact .none
  | some m => exact .some (.refl m)

end Fields

end PageEditor
