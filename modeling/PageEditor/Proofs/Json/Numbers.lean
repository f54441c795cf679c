import PageEditor.Json.Decode
import PageEditor.Json.Reader
import PageEditor.Proofs.Decimal.Numbers

/-!
# Numbers in JSON values

Every double in a value that was read from a text is a number. The reader keeps this of the value
at hand and of the arrays and objects that are still open around it.
-/
set_option autoImplicit false

namespace PageEditor.Json

open Decimal (IsNumber)

/-! ## Values that hold numbers -/

mutual

/-- Every double in the value is a number. -/
def HoldsNumbers : Json → Prop
  | number (.double x) => IsNumber x
  | array items => ItemsHoldNumbers items
  | object members => MembersHoldNumbers members
  | _ => True

def ItemsHoldNumbers : List Json → Prop
  | [] => True
  | v :: vs => v.HoldsNumbers ∧ ItemsHoldNumbers vs

def MembersHoldNumbers : List (String × Json) → Prop
  | [] => True
  | (_, v) :: ms => v.HoldsNumbers ∧ MembersHoldNumbers ms

end

theorem itemsHoldNumbers_iff (vs : List Json) :
    ItemsHoldNumbers vs ↔ ∀ v ∈ vs, v.HoldsNumbers := by
  induction vs with
  | nil => simp [ItemsHoldNumbers]
  | cons v vs ih => simp [ItemsHoldNumbers, ih]

theorem membersHoldNumbers_iff (ms : List (String × Json)) :
    MembersHoldNumbers ms ↔ ∀ m ∈ ms, m.2.HoldsNumbers := by
  induction ms with
  | nil => simp [MembersHoldNumbers]
  | cons m ms ih => simp [MembersHoldNumbers, ih]

theorem holdsNumbers_array {vs : List Json} :
    (array vs).HoldsNumbers ↔ ∀ v ∈ vs, v.HoldsNumbers := by
  rw [HoldsNumbers, itemsHoldNumbers_iff]

theorem holdsNumbers_object {ms : List (String × Json)} :
    (object ms).HoldsNumbers ↔ ∀ m ∈ ms, m.2.HoldsNumbers := by
  rw [HoldsNumbers, membersHoldNumbers_iff]

/-! ## Reading -/

/-- What a frame has read so far holds numbers. -/
def Frame.HoldsNumbers : Frame → Prop
  | .array items => ∀ v ∈ items, v.HoldsNumbers
  | .object members _ => ∀ m ∈ members, m.2.HoldsNumbers

theorem holdsNumbers_ofNumeral (n : Decimal.Numeral) : (ofNumeral n).HoldsNumbers := by
  unfold ofNumeral
  simp only
  by_cases hwhole : n.isWhole ∧ (Decimal.gather 0 n.whole).2 = n.whole.length ∧
      (if n.negative then 0 < (Decimal.gather 0 n.whole).1 ∧ (Decimal.gather 0 n.whole).1 ≤ 1 <<< 63
        else True)
  · rw [if_pos hwhole]
    trivial
  · rw [if_neg hwhole]
    cases hx : n.toFloat with
    | none => trivial
    | some x => exact Decimal.isNumber_of_toFloat hx

theorem holdsNumbers_of_scalar? {cs r : List Char} {v : Json} (h : scalar? cs = some (v, r)) :
    v.HoldsNumbers := by
  unfold scalar? at h
  split at h
  · obtain ⟨_, _, hv⟩ := Option.map_eq_some_iff.1 h
    cases hv
    trivial
  · obtain ⟨_, _, hv⟩ := Option.map_eq_some_iff.1 h
    cases hv
    trivial
  · obtain ⟨_, _, hv⟩ := Option.map_eq_some_iff.1 h
    cases hv
    trivial
  · obtain ⟨p, _, hv⟩ := Option.map_eq_some_iff.1 h
    cases hv
    split <;> trivial
  · obtain ⟨p, _, hv⟩ := Option.map_eq_some_iff.1 h
    cases hv
    exact holdsNumbers_ofNumeral _
  · split at h
    · obtain ⟨p, _, hv⟩ := Option.map_eq_some_iff.1 h
      cases hv
      exact holdsNumbers_ofNumeral _
    · cases h
  · cases h

theorem holdsNumbers_ofMembers {ms : List (Option String × Json)}
    (h : ∀ m ∈ ms, m.2.HoldsNumbers) : (ofMembers ms).HoldsNumbers := by
  rw [ofMembers]
  split
  · rename_i named hnamed
    rw [holdsNumbers_object]
    induction ms generalizing named with
    | nil =>
      cases hnamed
      rintro _ ⟨⟩
    | cons m ms ih =>
      rw [List.mapM_cons] at hnamed
      obtain ⟨e, he, hnamed⟩ := Option.bind_eq_some_iff.1 hnamed
      obtain ⟨es, hes, hnamed⟩ := Option.bind_eq_some_iff.1 hnamed
      obtain ⟨k, _, hke⟩ := Option.map_eq_some_iff.1 he
      cases hnamed
      intro x hx
      rcases List.mem_cons.1 hx with rfl | hx
      · rw [← hke]
        exact h m List.mem_cons_self
      · exact ih (fun m hm => h m (List.mem_cons_of_mem _ hm)) es hes x hx
  · trivial

/-- What a loop returns holds numbers if what it starts from does. -/
def KeepsNumbers (start : Prop) (result : Option (Json × List Char)) : Prop :=
  start → ∀ p, result = some p → p.1.HoldsNumbers

theorem framesHoldNumbers_cons {f : Frame} {fs : List Frame} :
    (∀ g ∈ f :: fs, g.HoldsNumbers) ↔ f.HoldsNumbers ∧ ∀ g ∈ fs, g.HoldsNumbers := by
  simp

/-- By induction along both loops of the reader; the frames carry the invariant. -/
theorem keepsNumbers_valueWithin (frames : List Frame) (cs : List Char) :
    KeepsNumbers (∀ f ∈ frames, f.HoldsNumbers) (valueWithin frames cs) := by
  apply valueWithin.induct_unfolding
    (fun frames _ result => KeepsNumbers (∀ f ∈ frames, f.HoldsNumbers) result)
    (fun frames v _ result =>
      KeepsNumbers ((∀ f ∈ frames, f.HoldsNumbers) ∧ v.HoldsNumbers) result)
  case case1 =>
    intro frames cs r _ r' _ ih hf
    exact ih ⟨hf, trivial⟩
  case case2 =>
    intro frames cs r _ _ ih hf
    exact ih (framesHoldNumbers_cons.2 ⟨(by rintro _ ⟨⟩), hf⟩)
  case case3 =>
    intro frames cs r _ r' _ ih hf
    exact ih ⟨hf, trivial⟩
  case case4 =>
    intro frames cs r _ key r' _ _ ih hf
    exact ih (framesHoldNumbers_cons.2 ⟨(by rintro _ ⟨⟩), hf⟩)
  case case5 =>
    intro frames cs r _ _ _ _ p hp
    cases hp
  case case6 =>
    intro frames cs v r _ _ hv ih hf
    exact ih ⟨hf, holdsNumbers_of_scalar? hv⟩
  case case7 =>
    intro frames cs _ _ _ _ p hp
    cases hp
  case case8 =>
    intro v cs hf p hp
    cases hp
    exact hf.2
  case case9 =>
    intro v cs items frames r _ ih hf
    obtain ⟨hitems, hframes⟩ := framesHoldNumbers_cons.1 hf.1
    refine ih (framesHoldNumbers_cons.2 ⟨?_, hframes⟩)
    exact List.forall_mem_cons.2 ⟨hf.2, hitems⟩
  case case10 =>
    intro v cs items frames r _ ih hf
    obtain ⟨hitems, hframes⟩ := framesHoldNumbers_cons.1 hf.1
    refine ih ⟨hframes, holdsNumbers_array.2 fun w hw => ?_⟩
    exact List.forall_mem_cons.2 ⟨hf.2, hitems⟩ w (List.mem_reverse.1 hw)
  case case11 =>
    intro v cs items frames _ _ _ p hp
    cases hp
  case case12 =>
    intro v cs members key frames r _ next r' _ ih hf
    obtain ⟨hmembers, hframes⟩ := framesHoldNumbers_cons.1 hf.1
    refine ih (framesHoldNumbers_cons.2 ⟨?_, hframes⟩)
    exact List.forall_mem_cons.2 ⟨hf.2, hmembers⟩
  case case13 =>
    intro v cs members key frames r _ _ _ p hp
    cases hp
  case case14 =>
    intro v cs members key frames r _ ih hf
    obtain ⟨hmembers, hframes⟩ := framesHoldNumbers_cons.1 hf.1
    have hall : ∀ m ∈ (key, v) :: members, m.2.HoldsNumbers :=
      List.forall_mem_cons.2 ⟨hf.2, hmembers⟩
    exact ih ⟨hframes, holdsNumbers_ofMembers fun m hm => hall m (List.mem_reverse.1 hm)⟩
  case case15 =>
    intro v cs members key frames _ _ _ p hp
    cases hp

theorem holdsNumbers_of_read? {cs : List Char} {v : Json} (h : read? cs = some v) :
    v.HoldsNumbers := by
  unfold read? at h
  split at h
  · rename_i w r hw
    split at h
    · cases h
      exact keepsNumbers_valueWithin [] cs (by rintro _ ⟨⟩) _ hw
    · cases h
  · cases h

/-! ## Decoding -/

theorem isNumber_of_double? {v : Json} {x : Float} (hv : v.HoldsNumbers) (h : v.double? = some x) :
    IsNumber x := by
  unfold double? at h
  split at h
  · cases h
    exact hv
  · cases h
    split
    · exact Decimal.isNumber_neg (Decimal.isNumber_toFloat _)
    · exact Decimal.isNumber_toFloat _
  · cases h

theorem holdsNumbers_of_single? {members : List (String × Json)} {name : String} {v : Json}
    (hm : ∀ m ∈ members, m.2.HoldsNumbers) (h : single? members name = some (some v)) :
    v.HoldsNumbers := by
  unfold single? at h
  split at h
  · cases h
  · rename_i m hf
    cases h
    refine hm m ?_
    have hmem : m ∈ members.filter (·.1 == name) := by
      rw [hf]
      exact List.mem_singleton_self m
    exact (List.mem_filter.1 hmem).1
  · cases h

theorem holdsNumbers_of_fields? {names : List String} {least : Nat} {v : Json}
    {fs : List (Option Json)} (hv : v.HoldsNumbers) (h : v.fields? names least = some fs) :
    ∀ w, some w ∈ fs → w.HoldsNumbers := by
  unfold fields? at h
  split at h
  · rename_i members
    rw [holdsNumbers_object] at hv
    intro w hw
    induction names generalizing fs with
    | nil =>
      cases h
      cases hw
    | cons name names ih =>
      rw [List.mapM_cons] at h
      obtain ⟨f, hf, h⟩ := Option.bind_eq_some_iff.1 h
      obtain ⟨gs, hgs, h⟩ := Option.bind_eq_some_iff.1 h
      cases h
      rcases List.mem_cons.1 hw with rfl | hw
      · exact holdsNumbers_of_single? hv hf
      · exact ih hgs hw
  · rename_i items
    rw [holdsNumbers_array] at hv
    split at h
    · cases h
      intro w hw
      rcases List.mem_append.1 hw with hw | hw
      · obtain ⟨u, hu, huw⟩ := List.mem_map.1 hw
        cases huw
        exact hv w hu
      · cases (List.mem_replicate.1 hw).2
    · cases h
  · cases h

end PageEditor.Json
