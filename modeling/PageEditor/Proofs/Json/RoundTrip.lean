import PageEditor.Proofs.Json.Numerals

/-!
# Compact texts read again

The compact text of a value is read as the value, as long as its numbers are. The same holds when
apostrophes are written by their number, as they are between apostrophes in markup. The reader is
followed along its stack: behind the text of a value it goes on as behind the value, whatever is open
around it.
-/
set_option autoImplicit false

namespace PageEditor

namespace Json

/-! ## Values that can be written -/

mutual

/-- Every piece denotes something, and every number is read back from its text. -/
def ReadsBack : Json → Prop
  | number n => n.ReadsBack
  | array items => ItemsReadBack items
  | object members => MembersReadBack members
  | unreadable => False
  | _ => True

def ItemsReadBack : List Json → Prop
  | [] => True
  | v :: vs => v.ReadsBack ∧ ItemsReadBack vs

def MembersReadBack : List (String × Json) → Prop
  | [] => True
  | (_, v) :: ms => v.ReadsBack ∧ MembersReadBack ms

end

theorem membersReadBack_iff (ms : List (String × Json)) :
    MembersReadBack ms ↔ ∀ m ∈ ms, m.2.ReadsBack := by
  induction ms with
  | nil => simp [MembersReadBack]
  | cons m ms ih => simp [MembersReadBack, ih]

theorem readsBack_ofStringMap (m : OrderedMap String) : (ofStringMap m).ReadsBack := by
  refine (membersReadBack_iff _).2 fun e he => ?_
  obtain ⟨e, -, rfl⟩ := List.mem_map.1 he
  trivial

mutual

theorem isReadable_of_readsBack : (v : Json) → v.ReadsBack → v.isReadable = true
  | null, _ => rfl
  | bool _, _ => rfl
  | number _, _ => rfl
  | string _, _ => rfl
  | array items, h => itemsReadable_of_readBack items h
  | object members, h => membersReadable_of_readBack members h
  | unreadable, h => by cases h

theorem itemsReadable_of_readBack : (vs : List Json) → ItemsReadBack vs → itemsReadable vs = true
  | [], _ => rfl
  | v :: vs, h => by
    rw [itemsReadable, isReadable_of_readsBack v h.1, itemsReadable_of_readBack vs h.2]
    rfl

theorem membersReadable_of_readBack : (ms : List (String × Json)) → MembersReadBack ms →
    membersReadable ms = true
  | [], _ => rfl
  | (_, v) :: ms, h => by
    rw [membersReadable, isReadable_of_readsBack v h.1, membersReadable_of_readBack ms h.2]
    rfl

end

/-- Only the nesting of such a value can stand in its way. -/
theorem isSound_iff_of_readsBack {v : Json} (h : v.ReadsBack) :
    v.isSound = true ↔ v.depth ≤ depthLimit := by
  rw [isSound, isReadable_of_readsBack v h, Bool.true_and, decide_eq_true_iff]

/-! ## Other spellings of the apostrophe -/

/-- The characters stand for themselves, and the apostrophe may be written in another way that is
read back within strings. -/
structure IsSpelling (f : Char → List Char) : Prop where
  self : ∀ c, c ≠ '\'' → f c = [c]
  apostrophe : ∀ rest, stringBody none (f '\'' ++ rest) = (stringBody none rest).map (push '\'')

theorem isSpelling_self : IsSpelling fun c => [c] where
  self _ _ := rfl
  apostrophe _ := stringBody_self (by decide) (by decide) (by decide) _

theorem isSpelling_numbered :
    IsSpelling fun c => if c = '\'' then "\\u0027".toList else [c] where
  self _ h := if_neg h
  apostrophe rest := by
    have hnumber : hexFour? '0' '0' '2' '7' = some 39 := by decide
    have htext : "\\u0027".toList = ['\\', 'u', '0', '0', '2', '7'] := by decide
    simp only [if_true, htext, List.cons_append, List.nil_append]
    rw [stringBody]
    simp only [hnumber]
    rfl

theorem apostrophe_notMem_escape {c : Char} (h : c ≠ '\'') : '\'' ∉ escape c := by
  rcases escape_cases c with ⟨d, hd, he⟩ | ⟨a, ha, b, hb, he⟩ | ⟨_, _, he⟩
  · have hletter : '\'' ≠ d := by
      rintro rfl
      exact absurd hd (by decide)
    rw [he]
    simp [hletter]
  · rw [he]
    simp [(hexDigit_ne a ha).2.1.symm, (hexDigit_ne b hb).2.1.symm]
  · rw [he]
    simp [h.symm]

namespace IsSpelling

variable {f : Char → List Char} (hf : IsSpelling f)
include hf

theorem flatMap_eq {cs : List Char} (h : '\'' ∉ cs) : cs.flatMap f = cs := by
  induction cs with
  | nil => rfl
  | cons c cs ih =>
    rw [List.mem_cons, not_or] at h
    rw [List.flatMap_cons, hf.self c (Ne.symm h.1), ih h.2, List.singleton_append]

theorem stringBody_escape (c : Char) (rest : List Char) :
    stringBody none ((escape c).flatMap f ++ rest) = (stringBody none rest).map (push c) := by
  by_cases hc : c = '\''
  · subst hc
    have hescape : escape '\'' = ['\''] := by decide
    rw [hescape, List.flatMap_singleton]
    exact hf.apostrophe rest
  · rw [hf.flatMap_eq (apostrophe_notMem_escape hc)]
    exact Json.stringBody_escape c rest

theorem stringBody_quote (cs rest : List Char) :
    stringBody none ((cs.flatMap escape ++ ['"']).flatMap f ++ rest) = some (some cs, rest) := by
  induction cs with
  | nil =>
    rw [List.flatMap_nil, List.nil_append, hf.flatMap_eq (by decide), stringBody.eq_def]
    rfl
  | cons c cs ih =>
    rw [List.flatMap_cons, List.append_assoc, List.flatMap_append, List.append_assoc,
      hf.stringBody_escape, ih]
    rfl

theorem quote_eq (cs : List Char) :
    (quote cs).flatMap f = '"' :: (cs.flatMap escape ++ ['"']).flatMap f := by
  rw [quote, List.cons_append, List.flatMap_cons, hf.self '"' (by decide), List.singleton_append]

theorem scalar?_quote (cs rest : List Char) :
    scalar? ((quote cs).flatMap f ++ rest) = some (string (String.ofList cs), rest) := by
  rw [hf.quote_eq, List.cons_append, scalar?, hf.stringBody_quote]
  rfl

theorem key?_quote (k : String) (rest : List Char) :
    key? ((quote k.toList).flatMap f ++ ':' :: rest) = some (some k, rest) := by
  have hskip : skipSpace ((quote k.toList).flatMap f ++ ':' :: rest) =
      '"' :: ((k.toList.flatMap escape ++ ['"']).flatMap f ++ ':' :: rest) := by
    rw [hf.quote_eq]
    rfl
  rw [key?, hskip]
  simp only [hf.stringBody_quote, Option.bind_eq_bind, Option.bind_some, Option.map_some,
    String.ofList_toList]
  rfl

end IsSpelling

/-! ## Steps of the reader -/

variable {frames : List Frame} {v : Json} {cs r : List Char}

theorem skipSpace_cons {c : Char} (h : isSpace c = false) (cs : List Char) :
    skipSpace (c :: cs) = c :: cs := by
  rw [skipSpace, List.dropWhile_cons_of_neg (by simp [h])]

theorem valueWithin_of_scalar? {c : Char} (hspace : isSpace c = false)
    (h : scalar? (c :: cs) = some (v, r)) :
    valueWithin frames (c :: cs) = afterValue frames v r := by
  have hhead : ∀ d, (∀ ds, scalar? (d :: ds) = none) → (skipSpace (c :: cs)).head? ≠ some d := by
    intro d hd hcs
    rw [skipSpace_cons hspace] at hcs
    obtain rfl : c = d := Option.some.inj hcs
    rw [hd] at h
    cases h
  rw [valueWithin_scalar (hhead '[' fun _ => rfl) (hhead '\x7b' fun _ => rfl), skipSpace_cons hspace,
    h]
  rfl

theorem valueWithin_noItems : valueWithin frames ('[' :: ']' :: r) = afterValue frames (array []) r := by
  rw [valueWithin.eq_def]
  rfl

theorem valueWithin_items (h : (skipSpace cs).head? ≠ some ']') :
    valueWithin frames ('[' :: cs) = valueWithin (.array [] :: frames) cs := by
  rw [valueWithin.eq_def]
  split
  · rename_i hcs
    obtain rfl := (List.cons.inj hcs).2
    split
    · rename_i hclose
      rw [hclose] at h
      exact absurd rfl h
    · rfl
  · rename_i hcs
    cases hcs
  · rename_i hno _
    exact absurd rfl (hno cs)

theorem valueWithin_noMembers :
    valueWithin frames ('\x7b' :: '\x7d' :: r) = afterValue frames (object []) r := by
  rw [valueWithin.eq_def]
  rfl

theorem valueWithin_members {key : Option String} (h : (skipSpace cs).head? ≠ some '\x7d')
    (hkey : key? cs = some (key, r)) :
    valueWithin frames ('\x7b' :: cs) = valueWithin (.object [] key :: frames) r := by
  rw [valueWithin.eq_def]
  split
  · rename_i hcs
    cases hcs
  · rename_i hcs
    obtain rfl := (List.cons.inj hcs).2
    split
    · rename_i hclose
      rw [hclose] at h
      exact absurd rfl h
    · split
      · rename_i hread
        cases hkey.symm.trans hread
        rfl
      · rename_i hread
        cases hkey.symm.trans hread
  · rename_i hno
    exact absurd rfl (hno cs)

theorem afterValue_item {items : List Json} :
    afterValue (.array items :: frames) v (',' :: r) =
      valueWithin (.array (v :: items) :: frames) r := by
  rw [afterValue.eq_def]
  rfl

theorem afterValue_closeItems {items : List Json} :
    afterValue (.array items :: frames) v (']' :: r) =
      afterValue frames (array (v :: items).reverse) r := by
  rw [afterValue.eq_def]
  rfl

theorem afterValue_member {members : List (Option String × Json)} {key next : Option String}
    (hkey : key? cs = some (next, r)) :
    afterValue (.object members key :: frames) v (',' :: cs) =
      valueWithin (.object ((key, v) :: members) next :: frames) r := by
  have hskip : skipSpace (',' :: cs) = ',' :: cs := rfl
  rw [afterValue.eq_def]
  split
  · rename_i h
    cases h
  · rename_i h
    cases h
  · rename_i h
    cases h
    split
    · rename_i hcs
      rw [hskip] at hcs
      obtain rfl := (List.cons.inj hcs).2
      split
      · rename_i hread
        cases hkey.symm.trans hread
        rfl
      · rename_i hread
        cases hkey.symm.trans hread
    · rename_i hcs
      rw [hskip] at hcs
      cases hcs
    · rename_i hno _
      exact absurd hskip (hno cs)

theorem afterValue_closeMembers {members : List (Option String × Json)} {key : Option String} :
    afterValue (.object members key :: frames) v ('\x7d' :: r) =
      afterValue frames (ofMembers ((key, v) :: members).reverse) r := by
  rw [afterValue.eq_def]
  rfl

/-! ## Values -/

theorem ofMembers_known (ms : List (String × Json)) :
    ofMembers (ms.map fun m => (some m.1, m.2)) = object ms := by
  have hknown : (ms.map fun m => (some m.1, m.2)).mapM
      (fun m : Option String × Json => m.1.map (·, m.2)) = some ms := by
    induction ms with
    | nil => rfl
    | cons m ms ih =>
      rw [List.map_cons, List.mapM_cons, ih]
      rfl
  rw [ofMembers, hknown]

/-- No array or object closes, and no blank stands, where a value begins. -/
theorem exists_head_compact {v : Json} (h : v.ReadsBack) :
    ∃ c r, v.compact = c :: r ∧ c ≠ '\'' ∧ isSpace c = false ∧ c ≠ ']' := by
  cases v with
  | null => exact ⟨_, _, rfl, by decide, by decide, by decide⟩
  | bool b => cases b <;> exact ⟨_, _, rfl, by decide, by decide, by decide⟩
  | number n =>
    have hscalar := scalar?_numberText h
    have hchars := isNumberChar_numberText n
    rw [compact]
    generalize numberText n = cs at hscalar hchars
    cases cs with
    | nil => cases hscalar
    | cons c cs =>
      have hc := hchars c List.mem_cons_self
      refine ⟨c, cs, rfl, ?_, isSpace_of_isNumberChar hc, ?_⟩ <;> rintro rfl <;>
        exact absurd hc (by decide)
  | string s => exact ⟨_, _, rfl, by decide, by decide, by decide⟩
  | array vs => exact ⟨_, _, rfl, by decide, by decide, by decide⟩
  | object ms => exact ⟨_, _, rfl, by decide, by decide, by decide⟩
  | unreadable => cases h

section Spelled

variable {f : Char → List Char} (hf : IsSpelling f)
include hf

theorem flatMap_cons_of_ne {c : Char} (h : c ≠ '\'') (cs : List Char) :
    (c :: cs).flatMap f = c :: cs.flatMap f := by
  rw [List.flatMap_cons, hf.self c h, List.singleton_append]

theorem endsNumber_compactMoreItems (vs : List Json) (rest : List Char) :
    EndsNumber ((compactMoreItems vs).flatMap f ++ rest) := by
  cases vs with
  | nil =>
    rw [compactMoreItems, hf.flatMap_eq (by decide)]
    exact endsNumber_cons (by decide)
  | cons v vs =>
    rw [compactMoreItems, List.cons_append, flatMap_cons_of_ne hf (by decide)]
    exact endsNumber_cons (by decide)

theorem endsNumber_compactMoreMembers (ms : List (String × Json)) (rest : List Char) :
    EndsNumber ((compactMoreMembers ms).flatMap f ++ rest) := by
  cases ms with
  | nil =>
    rw [compactMoreMembers, hf.flatMap_eq (by decide)]
    exact endsNumber_cons (by decide)
  | cons m ms =>
    rw [compactMoreMembers, List.cons_append, List.cons_append, flatMap_cons_of_ne hf (by decide)]
    exact endsNumber_cons (by decide)

theorem key?_member (k : String) (v : Json) (ms : List (String × Json)) (rest : List Char) :
    key? ((quote k.toList ++ ':' :: compact v ++ compactMoreMembers ms).flatMap f ++ rest) =
      some (some k, v.compact.flatMap f ++ ((compactMoreMembers ms).flatMap f ++ rest)) := by
  have htext : (quote k.toList ++ ':' :: compact v ++ compactMoreMembers ms).flatMap f ++ rest =
      (quote k.toList).flatMap f ++
        ':' :: (v.compact.flatMap f ++ ((compactMoreMembers ms).flatMap f ++ rest)) := by
    simp only [List.flatMap_append, flatMap_cons_of_ne hf (by decide : ':' ≠ '\''),
      List.append_assoc, List.cons_append]
  rw [htext]
  exact hf.key?_quote k _

mutual

/-- Behind the text of a value the reader goes on as behind the value. -/
theorem valueWithin_compact : (v : Json) → v.ReadsBack → ∀ (frames : List Frame) {rest : List Char},
    EndsNumber rest → valueWithin frames (v.compact.flatMap f ++ rest) = afterValue frames v rest
  | null, _, frames, rest, _ => by
    rw [hf.flatMap_eq (by decide)]
    exact valueWithin_of_scalar? (by decide) rfl
  | bool true, _, frames, rest, _ => by
    rw [hf.flatMap_eq (by decide)]
    exact valueWithin_of_scalar? (by decide) rfl
  | bool false, _, frames, rest, _ => by
    rw [hf.flatMap_eq (by decide)]
    exact valueWithin_of_scalar? (by decide) rfl
  | number n, h, frames, rest, hrest => by
    have hfree : '\'' ∉ numberText n := fun hmem =>
      absurd (isNumberChar_numberText n _ hmem) (by decide)
    obtain ⟨c, cs, hcs, _, hspace, _⟩ := exists_head_compact (v := number n) h
    have hscalar := scalar?_numberText_append h hrest
    rw [compact] at hcs ⊢
    rw [hf.flatMap_eq hfree]
    rw [hcs] at hscalar ⊢
    exact valueWithin_of_scalar? hspace hscalar
  | string s, _, frames, rest, _ => by
    have hscalar := hf.scalar?_quote s.toList rest
    rw [String.ofList_toList] at hscalar
    rw [compact]
    rw [hf.quote_eq] at hscalar ⊢
    exact valueWithin_of_scalar? (by decide) hscalar
  | array [], _, frames, rest, _ => by
    rw [hf.flatMap_eq (by decide)]
    exact valueWithin_noItems
  | array (v :: vs), h, frames, rest, _ => by
    obtain ⟨c, cs, hcs, hc, hspace, hclose⟩ := exists_head_compact h.1
    have hopen : (skipSpace ((v.compact ++ compactMoreItems vs).flatMap f ++ rest)).head? ≠
        some ']' := by
      rw [hcs, List.cons_append, flatMap_cons_of_ne hf hc, List.cons_append, skipSpace_cons hspace]
      exact fun hhead => hclose (Option.some.inj hhead)
    rw [compact, compactItems, flatMap_cons_of_ne hf (by decide), List.cons_append,
      valueWithin_items hopen, List.flatMap_append, List.append_assoc,
      valueWithin_compact v h.1 _ (endsNumber_compactMoreItems hf vs rest),
      afterValue_compactMoreItems vs h.2]
    rfl
  | object [], _, frames, rest, _ => by
    rw [hf.flatMap_eq (by decide)]
    exact valueWithin_noMembers
  | object ((k, v) :: ms), h, frames, rest, _ => by
    rw [compact, compactMembers, flatMap_cons_of_ne hf (by decide), List.cons_append,
      valueWithin_members ?_ (key?_member hf k v ms rest),
      valueWithin_compact v h.1 _ (endsNumber_compactMoreMembers hf ms rest)]
    · exact afterValue_compactMoreMembers ms h.2 frames [] k v rest
    · simp only [List.flatMap_append, hf.quote_eq, List.cons_append]
      rintro ⟨⟩

theorem afterValue_compactMoreItems : (vs : List Json) → ItemsReadBack vs →
    ∀ (frames : List Frame) (items : List Json) (v : Json) (rest : List Char),
    afterValue (.array items :: frames) v ((compactMoreItems vs).flatMap f ++ rest) =
      afterValue frames (array ((v :: items).reverse ++ vs)) rest
  | [], _, frames, items, v, rest => by
    rw [hf.flatMap_eq (by decide), List.append_nil]
    exact afterValue_closeItems
  | w :: vs, h, frames, items, v, rest => by
    rw [compactMoreItems, List.cons_append, flatMap_cons_of_ne hf (by decide), List.cons_append,
      afterValue_item, List.flatMap_append, List.append_assoc,
      valueWithin_compact w h.1 _ (endsNumber_compactMoreItems hf vs rest),
      afterValue_compactMoreItems vs h.2]
    simp only [List.reverse_cons, List.append_assoc, List.cons_append, List.nil_append]

theorem afterValue_compactMoreMembers : (ms : List (String × Json)) → MembersReadBack ms →
    ∀ (frames : List Frame) (members : List (String × Json)) (key : String) (v : Json)
      (rest : List Char),
    afterValue (.object (members.map fun m => (some m.1, m.2)) (some key) :: frames) v
        ((compactMoreMembers ms).flatMap f ++ rest) =
      afterValue frames (object (((key, v) :: members).reverse ++ ms)) rest
  | [], _, frames, members, key, v, rest => by
    have hmembers := ofMembers_known ((key, v) :: members).reverse
    rw [List.map_reverse, List.map_cons] at hmembers
    rw [compactMoreMembers, hf.flatMap_eq (by decide), List.append_nil, List.cons_append,
      List.nil_append, afterValue_closeMembers, hmembers]
  | (k, w) :: ms, h, frames, members, key, v, rest => by
    rw [compactMoreMembers, List.cons_append, List.cons_append, flatMap_cons_of_ne hf (by decide),
      List.cons_append, afterValue_member (key?_member hf k w ms rest),
      valueWithin_compact w h.1 _ (endsNumber_compactMoreMembers hf ms rest)]
    have hmore := afterValue_compactMoreMembers ms h.2 frames ((key, v) :: members) k w rest
    rw [List.map_cons] at hmore
    rw [hmore]
    simp only [List.reverse_cons, List.append_assoc, List.cons_append, List.nil_append]

end

theorem read?_spelled {v : Json} (h : v.ReadsBack) : read? (v.compact.flatMap f) = some v := by
  have hvalue := valueWithin_compact hf v h [] endsNumber_nil
  rw [List.append_nil] at hvalue
  rw [read?, hvalue, afterValue.eq_def]
  rfl

end Spelled

theorem read?_compact {v : Json} (h : v.ReadsBack) : read? v.compact = some v := by
  have hread := read?_spelled isSpelling_self h
  rwa [List.flatMap_singleton'] at hread

theorem read?_numberApostrophes {v : Json} (h : v.ReadsBack) :
    read? (numberApostrophes v.compact) = some v :=
  read?_spelled isSpelling_numbered h

end Json

end PageEditor
