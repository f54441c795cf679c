import PageEditor.Proofs.Json.Numbers

/-!
# Strings in JSON texts

Only a quoted text is read as a string: what is open around a value, and what follows it, makes it a
part of an array or an object. So a string is shorter than the text it is read from.
-/
set_option autoImplicit false

namespace PageEditor.Json

/-- A loop of the reader returns a string only if the loop started at one, with nothing open around
it. -/
def StringOnlyIf (start : String → List Char → Prop) (result : Option (Json × List Char)) : Prop :=
  ∀ s r, result = some (string s, r) → start s r

/-- By induction along both loops of the reader. Every step but the last one closes an array or an
object, or opens one, and none of them is a string. -/
theorem stringOnlyIf_valueWithin (frames : List Frame) (cs : List Char) :
    StringOnlyIf (fun s r => frames = [] ∧ scalar? (skipSpace cs) = some (string s, r))
      (valueWithin frames cs) := by
  apply valueWithin.induct_unfolding
    (fun frames cs result =>
      StringOnlyIf (fun s r => frames = [] ∧ scalar? (skipSpace cs) = some (string s, r)) result)
    (fun frames v cs result =>
      StringOnlyIf (fun s r => frames = [] ∧ v = string s ∧ cs = r) result)
  case case1 =>
    intro frames cs r _ r' _ ih s rest hread
    cases (ih s rest hread).2.1
  case case2 =>
    intro frames cs r _ _ ih s rest hread
    cases (ih s rest hread).1
  case case3 =>
    intro frames cs r _ r' _ ih s rest hread
    cases (ih s rest hread).2.1
  case case4 =>
    intro frames cs r _ key r' _ _ ih s rest hread
    cases (ih s rest hread).1
  case case5 =>
    intro frames cs r _ _ _ s rest hread
    cases hread
  case case6 =>
    intro frames cs v r _ _ hv ih s rest hread
    obtain ⟨hframes, rfl, rfl⟩ := ih s rest hread
    exact ⟨hframes, hv⟩
  case case7 =>
    intro frames cs _ _ _ s rest hread
    cases hread
  case case8 =>
    intro v cs s rest hread
    cases hread
    exact ⟨rfl, rfl, rfl⟩
  case case9 =>
    intro v cs items frames r _ ih s rest hread
    cases (ih s rest hread).1
  case case10 =>
    intro v cs items frames r _ ih s rest hread
    cases (ih s rest hread).2.1
  case case11 =>
    intro v cs items frames _ _ s rest hread
    cases hread
  case case12 =>
    intro v cs members key frames r _ next r' _ ih s rest hread
    cases (ih s rest hread).1
  case case13 =>
    intro v cs members key frames r _ _ s rest hread
    cases hread
  case case14 =>
    intro v cs members key frames r _ ih s rest hread
    have hstring := (ih s rest hread).2.1
    unfold ofMembers at hstring
    split at hstring <;> cases hstring
  case case15 =>
    intro v cs members key frames _ _ s rest hread
    cases hread

theorem length_of_push {x : Char} {result : Option (Option (List Char) × List Char)}
    {cs content r : List Char} (h : result.map (push x) = some (some content, r))
    (ih : ∀ {content r : List Char}, result = some (some content, r) →
      content.length + r.length < cs.length) : content.length + r.length < cs.length + 1 := by
  obtain ⟨⟨c, r'⟩, hresult, hpush⟩ := Option.map_eq_some_iff.1 h
  obtain ⟨hcontent, hrest⟩ := Prod.mk.inj hpush
  obtain rfl : r' = r := hrest
  obtain ⟨content', rfl, rfl⟩ := Option.map_eq_some_iff.1 hcontent
  have hshorter : content'.length + r'.length < cs.length := ih hresult
  rw [List.length_cons]
  omega

theorem ne_of_lost {result : Option (Option (List Char) × List Char)} {content r : List Char} :
    result.map (fun p => (none, p.2)) ≠ some (some content, r) := by
  intro h
  obtain ⟨_, _, h⟩ := Option.map_eq_some_iff.1 h
  cases h

theorem length_of_stringBody {high : Option Nat} {cs content r : List Char}
    (h : stringBody high cs = some (some content, r)) : content.length + r.length < cs.length := by
  fun_induction stringBody high cs generalizing content r
  case case3 ih =>
    have hshorter := length_of_push h ih
    simp only [List.length_cons]
    omega
  case case5 ih =>
    have hshorter := ih h
    simp only [List.length_cons]
    omega
  case case7 ih =>
    have hshorter := length_of_push h ih
    simp only [List.length_cons]
    omega
  case case14 =>
    cases h
    simp
  case case17 ih =>
    have hshorter := length_of_push h ih
    simp only [List.length_cons]
    omega
  case case19 ih => exact length_of_push h ih
  -- in all other cases there is no string, or it has lost its content
  all_goals first
    | cases h
    | exact absurd h ne_of_lost

theorem ofNumeral_ne_string (n : Decimal.Numeral) (s : String) : ofNumeral n ≠ string s := by
  fun_cases ofNumeral n <;> simp

theorem string_of_scalar? {cs r : List Char} {s : String} (h : scalar? cs = some (string s, r)) :
    ∃ body, cs = '"' :: body ∧ stringBody none body = some (some s.toList, r) := by
  unfold scalar? at h
  split at h
  case h_4 body =>
    obtain ⟨⟨content, r'⟩, hbody, hv⟩ := Option.map_eq_some_iff.1 h
    cases content with
    | none => cases hv
    | some content =>
      cases hv
      exact ⟨body, rfl, by rw [String.toList_ofList]; exact hbody⟩
  case h_5 =>
    obtain ⟨p, _, hv⟩ := Option.map_eq_some_iff.1 h
    exact absurd (Prod.mk.inj hv).1 (ofNumeral_ne_string _ s)
  case h_6 =>
    split at h
    · obtain ⟨p, _, hv⟩ := Option.map_eq_some_iff.1 h
      exact absurd (Prod.mk.inj hv).1 (ofNumeral_ne_string _ s)
    · cases h
  case h_7 => cases h
  all_goals
    obtain ⟨_, _, hv⟩ := Option.map_eq_some_iff.1 h
    cases hv

/-- A string is read from a text that has two characters more at least. -/
theorem length_of_read?_string {cs : List Char} {s : String} (h : read? cs = some (string s)) :
    s.toList.length + 2 ≤ cs.length := by
  unfold read? at h
  split at h
  · rename_i v r hvalue
    split at h
    · cases h
      obtain ⟨_, hscalar⟩ := stringOnlyIf_valueWithin [] cs s r hvalue
      have hskip := skipSpace_length_le cs
      obtain ⟨body, hbody, hcontent⟩ := string_of_scalar? hscalar
      have hshorter := length_of_stringBody hcontent
      rw [hbody, List.length_cons] at hskip
      omega
    · cases h
  · cases h

end PageEditor.Json
