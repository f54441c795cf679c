import PageEditor.Proofs.Markup.Trivia
import PageEditor.Proofs.Markup.Unchanged

/-!
# Top-level elements in other texts

Which texts can be put together to the elements of a page. An element in front of a text makes no
difference to whether elements are read there, and neither do blanks and comments. Behind the elements
any text without a tag may stand, but in front of them nothing else.
-/
set_option autoImplicit false

namespace PageEditor

open Cursor

/-! ## Single steps -/

namespace Cursor

variable {c d after : Cursor} {first : Bool} {r : List Char}

theorem elements_of_nil (h : c.skipTrivia.rest = []) : c.elements first = .ok [] := by
  rw [elements]
  split
  · rfl
  · rename_i hless
    cases hless.symm.trans h
  · rename_i hnil _
    exact (hnil h).elim

theorem elements_of_less (h : c.skipTrivia.rest = '<' :: r) :
    c.elements first = (do
      let (m, after) ← c.skipTrivia.element
      let more ← after.elements false
      return m :: more) := by
  rw [elements]
  split
  · rename_i hnil
    cases hnil.symm.trans h
  · split
    · rename_i h'
      rw [h']
      rfl
    · rename_i m after h'
      rw [h']
      simp only [bind, Except.bind]
      cases after.elements false <;> rfl
  · rename_i hne
    exact (hne r h).elim

theorem elements_of_text {x : Char} (h : c.skipTrivia.rest = x :: r) (hx : x ≠ '<') :
    c.elements first =
      if first ∨ c.skipTrivia.rest.contains '<' then
        .error (.expectedElement ⟨c.skipTrivia.offset, c.skipTrivia.offset + 1⟩)
      else .ok [] := by
  rw [elements]
  split
  · rename_i hnil
    cases hnil.symm.trans h
  · rename_i hless
    exact (hx (List.cons.inj (hless.symm.trans h)).1.symm).elim
  · rfl

theorem elements_congr (h : c.skipTrivia = d.skipTrivia) :
    c.elements first = d.elements first := by
  cases hd : d.skipTrivia.rest with
  | nil => rw [elements_of_nil hd, elements_of_nil (h ▸ hd)]
  | cons x r =>
    by_cases hx : x = '<'
    · subst hx
      rw [elements_of_less hd, elements_of_less (h ▸ hd), h]
    · rw [elements_of_text hd hx, elements_of_text (h ▸ hd) hx, h]

theorem skipTrivia_of_less (h : c.rest = '<' :: r) : c.skipTrivia = c :=
  skipTrivia_of_head h (by decide) (by decide)

theorem elements_cons {m : Markup} {more : List Markup} (hr : c.rest = '<' :: r)
    (hm : ReadsElement c m after) (hmore : after.elements false = .ok more) :
    c.elements first = .ok (m :: more) := by
  have hskip := skipTrivia_of_less hr
  rw [elements_of_less (hskip.symm ▸ hr), hskip, element_eq_ok.2 hm]
  simp only [bind, Except.bind, hmore]
  rfl

theorem elements_ne_nil (h : c.skipTrivia.rest = '<' :: r) : c.elements first ≠ .ok [] := by
  intro hnil
  rw [elements_of_less h] at hnil
  obtain ⟨p, _, hnil⟩ := bind_eq_ok.1 hnil
  obtain ⟨more, _, hnil⟩ := bind_eq_ok.1 hnil
  cases hnil

/-- Behind the first element, what is left over must not have a tag. -/
theorem elements_eq_nil_iff : c.elements false = .ok [] ↔ '<' ∉ c.skipTrivia.rest := by
  cases hr : c.skipTrivia.rest with
  | nil => simp [elements_of_nil hr]
  | cons x r =>
    by_cases hx : x = '<'
    · subst hx
      exact ⟨fun h => absurd h (elements_ne_nil hr), fun h => absurd List.mem_cons_self h⟩
    · rw [elements_of_text hr hx, hr]
      simp

theorem elements_of_notMem (h : '<' ∉ c.rest) : c.elements false = .ok [] := by
  refine elements_eq_nil_iff.2 fun hmem => h ?_
  rw [← (leads_skipTrivia c).rest]
  exact List.mem_append_right _ hmem

/-- In front of the first element nothing but blanks and comments may stand. -/
theorem exists_elements_true : (∃ ms, c.elements true = .ok ms) ↔
    (∀ x, c.skipTrivia.rest.head? = some x → x = '<') ∧ ∃ ms, c.elements false = .ok ms := by
  cases hr : c.skipTrivia.rest with
  | nil => simp [elements_of_nil hr]
  | cons x r =>
    by_cases hx : x = '<'
    · subst hx
      rw [elements_of_less hr, elements_of_less hr]
      simp
    · rw [elements_of_text hr hx, elements_of_text hr hx]
      simp [hx]

theorem elements_eq_nil (h : c.elements true = .ok []) : c.skipTrivia.rest = [] := by
  have hhead := (exists_elements_true.1 ⟨_, h⟩).1
  cases hr : c.skipTrivia.rest with
  | nil => rfl
  | cons x r =>
    obtain rfl := hhead x (by rw [hr]; rfl)
    exact absurd h (elements_ne_nil hr)

/-- Whether elements are read goes on being decided behind an element. -/
theorem exists_elements_iff {m : Markup} (hr : c.rest = '<' :: r) (hm : ReadsElement c m after) :
    (∃ ms, c.elements first = .ok ms) ↔ ∃ ms, after.elements false = .ok ms := by
  constructor
  · rintro ⟨ms, hms⟩
    have hskip := skipTrivia_of_less hr
    rw [elements_of_less (hskip.symm ▸ hr), hskip, element_eq_ok.2 hm] at hms
    obtain ⟨_, hm, hms⟩ := bind_eq_ok.1 hms
    cases hm
    obtain ⟨more, hmore, _⟩ := bind_eq_ok.1 hms
    exact ⟨more, hmore⟩
  · rintro ⟨more, hmore⟩
    exact ⟨_, elements_cons hr hm hmore⟩

theorem elements_of_rest {ms : List Markup} : ∀ {c d : Cursor}, c.rest = d.rest →
    c.elements false = .ok ms → ∃ ms', d.elements false = .ok ms' := by
  induction ms with
  | nil =>
    intro c d h hms
    refine ⟨[], elements_eq_nil_iff.2 ?_⟩
    rw [← skipTrivia_rest h]
    exact elements_eq_nil_iff.1 hms
  | cons m ms ih =>
    intro c d h hms
    rcases elements_eq_ok hms with hnil | ⟨m', more, after, r, hcons, hr, hm, hmore⟩
    · cases hnil
    obtain ⟨rfl, rfl⟩ := List.cons.inj hcons
    have hd : d.skipTrivia.rest = c.skipTrivia.upTo after ++ after.rest := by
      rw [← skipTrivia_rest h, hm.leads.rest]
    obtain ⟨m', hm'⟩ := (ReadsElement.isElement hr hm).reads d.skipTrivia after.rest hd
    obtain ⟨more, hmore'⟩ := ih (advance_rest_append hd).symm hmore
    refine ⟨m' :: more, ?_⟩
    rw [← elements_congr (skipTrivia_skipTrivia d)]
    exact elements_cons ((skipTrivia_rest h).symm.trans hr) hm' hmore'

end Cursor

/-! ## Pieces of the top level -/

/-- Whether a text is read as elements, in front of which others stand unless `first` is set. -/
def HoldsElements (first : Bool) (cs : List Char) : Prop :=
  ((ofText cs).elements first).isOk = true

instance (first : Bool) (cs : List Char) : Decidable (HoldsElements first cs) :=
  inferInstanceAs (Decidable (_ = true))

theorem isOk_iff {ε α : Type} {x : Except ε α} : x.isOk = true ↔ ∃ a, x = .ok a := by
  cases x <;> simp [Except.isOk, Except.toBool]

theorem holdsElements_iff {first : Bool} {c : Cursor} {cs : List Char} (h : c.rest = cs) :
    HoldsElements first cs ↔ ∃ ms, c.elements first = .ok ms := by
  have hrest : (ofText cs).rest = c.rest := h.symm
  have hfalse : (∃ ms, (ofText cs).elements false = .ok ms) ↔ ∃ ms, c.elements false = .ok ms :=
    ⟨fun ⟨_, hms⟩ => elements_of_rest hrest hms, fun ⟨_, hms⟩ => elements_of_rest hrest.symm hms⟩
  cases first with
  | false => exact isOk_iff.trans hfalse
  | true =>
    rw [HoldsElements, isOk_iff, exists_elements_true, exists_elements_true, hfalse,
      skipTrivia_rest hrest]

theorem holdsElements_of_notMem {cs : List Char} (h : '<' ∉ cs) : HoldsElements false cs :=
  isOk_iff.2 ⟨[], elements_of_notMem h⟩

/-- A text that makes no difference in front of elements. -/
def IsTopLevel (cs : List Char) : Prop :=
  ∀ rest, HoldsElements false (cs ++ rest) ↔ HoldsElements false rest

theorem IsElement.isTopLevel {cs : List Char} (h : IsElement cs) : IsTopLevel cs := by
  intro rest
  have hc : (ofText (cs ++ rest)).rest = cs ++ rest := rfl
  obtain ⟨m, hm⟩ := h.reads _ rest hc
  obtain ⟨r, hr⟩ := h.head
  rw [holdsElements_iff hc, holdsElements_iff (advance_rest_append hc)]
  exact exists_elements_iff (by rw [hc, hr]; rfl) hm

theorem IsTrivia.isTopLevel {cs : List Char} (h : IsTrivia cs) : IsTopLevel cs := by
  intro rest
  have hc : (ofText (cs ++ rest)).rest = cs ++ rest := rfl
  rw [holdsElements_iff hc, holdsElements_iff (advance_rest_append hc),
    elements_congr (h _ rest hc)]

end PageEditor
