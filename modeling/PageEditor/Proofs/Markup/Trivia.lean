import PageEditor.Proofs.Markup.Pieces

/-!
# Blanks and comments in other texts

Blanks and comments in front of something else are skipped wherever they stand, and so are two runs
of them that meet. A line comment is such a run only together with the line feed behind it, which is
why the text in front of something is looked at as a whole.
-/
set_option autoImplicit false

namespace PageEditor

open Cursor

namespace Cursor

/-! ## Where the skipping stops -/

theorem skipTrivia_of_skipComment? {c d : Cursor} (h : c.skipBlanks.skipComment? = some d) :
    c.skipTrivia = d.skipTrivia := by
  rw [skipTrivia]
  split
  · rename_i h'
    cases h'.symm.trans h
    rfl
  · rename_i h'
    cases h'.symm.trans h

theorem skipTrivia_of_none {c : Cursor} (h : c.skipBlanks.skipComment? = none) :
    c.skipTrivia = c.skipBlanks := by
  rw [skipTrivia]
  split
  · rename_i h'
    cases h'.symm.trans h
  · rfl

theorem skipTrivia_congr {c d : Cursor} (h : c.skipBlanks = d.skipBlanks) :
    c.skipTrivia = d.skipTrivia := by
  cases hd : d.skipBlanks.skipComment? with
  | some e => rw [skipTrivia_of_skipComment? hd, skipTrivia_of_skipComment? (h ▸ hd)]
  | none => rw [skipTrivia_of_none hd, skipTrivia_of_none (h ▸ hd), h]

theorem skipBlanks_rest (c : Cursor) : c.skipBlanks.rest = c.rest.dropWhile Text.isBlank :=
  advance_takeWhile_rest c _

theorem skipBlanks_of_head {c : Cursor} (h : ∀ x, c.rest.head? = some x → Text.isBlank x = false) :
    c.skipBlanks = c := by
  have hnone : Text.leading c.rest = [] := by
    cases hr : c.rest with
    | nil => rfl
    | cons x r => exact List.takeWhile_cons_of_neg (by simp [h x (by rw [hr]; rfl)])
  rw [skipBlanks, hnone]
  exact advance_zero c

theorem skipTrivia_stops (c : Cursor) :
    (∀ x, c.skipTrivia.rest.head? = some x → Text.isBlank x = false) ∧
      c.skipTrivia.skipComment? = none := by
  fun_induction skipTrivia c with
  | case1 c d h ih => exact ih
  | case2 c h =>
    refine ⟨?_, h⟩
    intro x hx
    have hnot := List.head?_dropWhile_not Text.isBlank c.rest
    rw [← skipBlanks_rest, hx] at hnot
    simpa using hnot

theorem skipTrivia_skipTrivia (c : Cursor) : c.skipTrivia.skipTrivia = c.skipTrivia := by
  obtain ⟨hhead, hcomment⟩ := skipTrivia_stops c
  have hskip := skipBlanks_of_head hhead
  rw [skipTrivia_of_none (by rw [hskip]; exact hcomment), hskip]

theorem skipTrivia_of_head {c : Cursor} {x : Char} {r : List Char} (h : c.rest = x :: r)
    (hblank : Text.isBlank x = false) (hslash : x ≠ '/') : c.skipTrivia = c := by
  have hskip : c.skipBlanks = c := by
    refine skipBlanks_of_head ?_
    rw [h]
    intro y hy
    cases hy
    exact hblank
  have hcomment : c.skipBlanks.skipComment? = none := by
    rw [hskip, skipComment?, h]
    split
    · rename_i heq
      exact absurd (List.cons.inj heq).1 hslash
    · rename_i heq
      exact absurd (List.cons.inj heq).1 hslash
    · rfl
  rw [skipTrivia_of_none hcomment, hskip]

theorem skipTrivia_of_nil {c : Cursor} (h : c.rest = []) : c.skipTrivia = c := by
  have hskip : c.skipBlanks = c := skipBlanks_of_head (by rw [h]; rintro _ ⟨⟩)
  have hcomment : c.skipBlanks.skipComment? = none := by
    rw [hskip, skipComment?, h]
  rw [skipTrivia_of_none hcomment, hskip]

/-! ## The text decides -/

theorem skipComment?_rest {c d e : Cursor} (h : c.rest = d.rest) (he : c.skipComment? = some e) :
    ∃ f, d.skipComment? = some f ∧ e.rest = f.rest := by
  simp only [skipComment?] at he ⊢
  rw [← h]
  split at he
  · rename_i r hr
    cases he
    exact ⟨_, rfl, by rw [advance_rest, advance_rest, h]⟩
  · rename_i r hr
    cases he
    exact ⟨_, rfl, by rw [advance_rest, advance_rest, h]⟩
  · cases he

theorem skipTrivia_rest {c d : Cursor} (h : c.rest = d.rest) :
    c.skipTrivia.rest = d.skipTrivia.rest := by
  fun_induction skipTrivia c generalizing d with
  | case1 c e he ih =>
    have hskip : c.skipBlanks.rest = d.skipBlanks.rest := by
      rw [skipBlanks_rest, skipBlanks_rest, h]
    obtain ⟨f, hf, hrest⟩ := skipComment?_rest hskip he
    rw [skipTrivia_of_skipComment? hf]
    exact ih hrest
  | case2 c hc =>
    have hskip : c.skipBlanks.rest = d.skipBlanks.rest := by
      rw [skipBlanks_rest, skipBlanks_rest, h]
    have hd : d.skipBlanks.skipComment? = none := by
      cases hd : d.skipBlanks.skipComment? with
      | none => rfl
      | some f =>
        obtain ⟨e, he, _⟩ := skipComment?_rest hskip.symm hd
        cases he.symm.trans hc
    rw [skipTrivia_of_none hd, hskip]

end Cursor

/-! ## Runs of blanks and comments -/

/-- A text that is skipped wherever it stands. -/
def IsTrivia (cs : List Char) : Prop :=
  ∀ (c : Cursor) (rest : List Char), c.rest = cs ++ rest →
    c.skipTrivia = (c.advance cs.length).skipTrivia

theorem isTrivia_nil : IsTrivia [] := by
  intro c rest _
  rw [List.length_nil, advance_zero]

theorem skipTrivia_append {a : List Char} (ha : IsTrivia a) (rest : List Char) :
    (ofText (a ++ rest)).skipTrivia.rest = (ofText rest).skipTrivia.rest := by
  have hrest : ((ofText (a ++ rest)).advance a.length).rest = rest := advance_rest_append rfl
  rw [ha _ rest rfl]
  exact skipTrivia_rest hrest

theorem IsTrivia.append {a b : List Char} (ha : IsTrivia a) (hb : IsTrivia b) :
    IsTrivia (a ++ b) := by
  intro c rest hc
  rw [List.append_assoc] at hc
  rw [ha c _ hc, hb _ rest (advance_rest_append hc), advance_add hc]

theorem isTrivia_of_blanks {cs : List Char} (h : cs.all Text.isBlank = true) : IsTrivia cs := by
  intro c rest hc
  refine skipTrivia_congr ?_
  have hd := advance_rest_append hc
  have hback := leads_skipBlanks (c.advance cs.length)
  refine ((leads_advance c cs.length).trans hback).eq_advance ?_ |>.symm
  have hup : (c.advance cs.length).upTo (c.advance cs.length).skipBlanks = Text.leading rest := by
    rw [← hd]
    exact upTo_advance_takeWhile _ _
  have htake : Text.leading c.rest = cs ++ Text.leading rest := by
    rw [hc, Text.leading, List.takeWhile_append_of_pos (List.all_eq_true.1 h)]
    rfl
  rw [htake, List.append_assoc, ← hup, hback.rest, hd, hc]

/-! ## Comments -/

theorem commentSize_pos (x : Char) (r : List Char) : 0 < Text.commentSize (x :: r) := by
  rw [Text.commentSize.eq_def]
  split
  · cases ‹_ = []›
  · exact Nat.zero_lt_two
  · exact Nat.succ_pos _

/-- A comment that ends before the text does is found without the text behind it. -/
theorem commentSize_take {cs : List Char} (h : Text.commentSize cs < cs.length)
    (rest : List Char) :
    Text.commentSize (cs.take (Text.commentSize cs) ++ rest) = Text.commentSize cs := by
  fun_induction Text.commentSize cs with
  | case1 => cases h
  | case2 => rfl
  | case3 c r hpair ih =>
    have hlt := Nat.lt_of_succ_lt_succ h
    rw [List.take_succ_cons, List.cons_append, Text.commentSize]
    · rw [ih hlt]
    · intro back hc hback
      cases r with
      | nil => cases hlt
      | cons x r =>
        obtain ⟨k, hk⟩ := Nat.exists_eq_succ_of_ne_zero (Nat.ne_of_gt (commentSize_pos x r))
        rw [hk, List.take_succ_cons] at hback
        obtain ⟨rfl, _⟩ := List.cons.inj hback
        exact hpair r hc rfl

section Comments

variable {c c' d : Cursor} {r more : List Char}

theorem rest_of_skipComment? (h : c.skipComment? = some d) : ∃ r, c.rest = '/' :: r := by
  rw [skipComment?] at h
  split at h
  · exact ⟨_, ‹_›⟩
  · exact ⟨_, ‹_›⟩
  · cases h

theorem skipComment?_line (hbody : r.all (· != '\n') = true)
    (hc : c.rest = '/' :: '/' :: r ++ '\n' :: more) :
    c.skipComment? = some (c.advance (2 + r.length)) := by
  have htake : (r ++ '\n' :: more).takeWhile (· != '\n') = r := by
    refine Token.takeWhile_append_of_head hbody ?_
    intro x hx
    cases hx
    rfl
  rw [skipComment?, hc]
  simp only [List.cons_append, htake]

theorem skipComment?_block (hc : c.rest = '/' :: '*' :: r) :
    c.skipComment? = some (c.advance (1 + Text.commentSize ('*' :: r))) := by
  rw [skipComment?, hc]
  rfl

/-- A comment with something behind it is a line comment up to a line feed, or a block comment that
is closed. -/
theorem skipComment?_eq_some (h : c.skipComment? = some d) (hd : d.rest ≠ []) :
    (∃ body, body.all (· != '\n') = true ∧ c.upTo d = '/' :: '/' :: body ∧
      d.rest.head? = some '\n') ∨
    ∃ r, c.rest = '/' :: '*' :: r ∧ Text.commentSize ('*' :: r) < ('*' :: r).length ∧
      c.upTo d = '/' :: ('*' :: r).take (Text.commentSize ('*' :: r)) := by
  rw [skipComment?] at h
  split at h
  · rename_i r hr
    cases h
    have hdrop : (c.advance (2 + (r.takeWhile (· != '\n')).length)).rest =
        r.dropWhile (· != '\n') := by
      rw [advance_rest, hr, ← List.drop_drop]
      exact advance_takeWhile_rest ⟨0, r⟩ (· != '\n')
    refine .inl ⟨r.takeWhile (· != '\n'), List.all_takeWhile, ?_, ?_⟩
    · refine upTo_of_append ?_
      rw [hdrop, hr, List.cons_append, List.cons_append, List.takeWhile_append_dropWhile]
    · obtain ⟨x, back, hback⟩ := List.exists_cons_of_ne_nil hd
      rw [hdrop] at hback ⊢
      have hnot := List.head?_dropWhile_not (· != '\n') r
      rw [hback] at hnot ⊢
      obtain rfl : x = '\n' := by simpa using hnot
      rfl
  · rename_i r hr
    cases h
    refine .inr ⟨r, hr, ?_, ?_⟩
    · refine Nat.lt_of_not_le fun hle => hd ?_
      rw [advance_rest, hr, List.drop_eq_nil_iff]
      simp only [List.length_cons] at hle ⊢
      omega
    · rw [upTo_advance_take, hr, Nat.add_comm, List.take_succ_cons]
  · cases h

/-- A comment with something behind it is found in front of other texts as well; behind a line
comment they have to start with the same line feed. -/
theorem skipComment?_append (h : c.skipComment? = some d) (hd : d.rest ≠ [])
    (hc' : c'.rest = c.upTo d ++ more)
    (hmore : d.rest.head? = some '\n' → more.head? = some '\n') :
    c'.skipComment? = some (c'.advance (c.upTo d).length) := by
  rcases skipComment?_eq_some h hd with ⟨body, hbody, hup, hfeed⟩ | ⟨r, _, hlt, hup⟩
  · obtain ⟨back, rfl⟩ := List.head?_eq_some_iff.1 (hmore hfeed)
    rw [hup] at hc' ⊢
    rw [skipComment?_line hbody hc', Nat.add_comm]
    rfl
  · have hsize := commentSize_take hlt more
    rw [hup, List.length_cons, List.length_take_of_le (Nat.le_of_lt hlt), Nat.add_comm]
    rw [hup] at hc'
    obtain ⟨k, hk⟩ := Nat.exists_eq_succ_of_ne_zero (Nat.ne_of_gt (commentSize_pos '*' r))
    rw [hk, List.take_succ_cons] at hc' hsize
    simp only [List.cons_append] at hc' hsize
    rw [skipComment?_block hc', hsize, hk]

end Comments

/-! ## What stands in front of something -/

theorem isTrivia_upTo_skipBlanks (c : Cursor) : IsTrivia (c.upTo c.skipBlanks) := by
  have hup : c.upTo c.skipBlanks = c.rest.takeWhile Text.isBlank := upTo_advance_takeWhile c _
  refine isTrivia_of_blanks ?_
  rw [hup]
  exact List.all_takeWhile

theorem head_upTo_skipTrivia {d : Cursor} (hd : d.rest.head? = some '\n') (rest : List Char) :
    (d.upTo d.skipTrivia ++ rest).head? = some '\n' := by
  have hrest := (leads_skipTrivia d).rest
  cases hup : d.upTo d.skipTrivia with
  | nil =>
    rw [hup, List.nil_append] at hrest
    have hblank := (skipTrivia_stops d).1 '\n' (by rw [hrest]; exact hd)
    exact absurd hblank (by decide)
  | cons x r =>
    rw [hup] at hrest
    rw [← hrest] at hd
    exact hd

/-- The blanks and comments in front of something are skipped in other texts, too. -/
theorem isTrivia_upTo_skipTrivia {c : Cursor} (h : c.skipTrivia.rest ≠ []) :
    IsTrivia (c.upTo c.skipTrivia) := by
  fun_induction skipTrivia c with
  | case1 c d hd ih =>
    have hleads := leads_skipTrivia d
    have hcomment := leads_of_skipComment? hd
    have hne : d.rest ≠ [] := hleads.rest_ne_nil h
    rw [← (leads_skipBlanks c).upTo_append (hcomment.trans hleads)]
    refine (isTrivia_upTo_skipBlanks c).append ?_
    rw [← hcomment.upTo_append hleads]
    intro c' rest hc'
    rw [List.append_assoc] at hc'
    have hfound := skipComment?_append hd hne hc' fun hfeed => head_upTo_skipTrivia hfeed rest
    have hskip : c'.skipBlanks = c' := by
      obtain ⟨r, hr⟩ := rest_of_skipComment? hfound
      refine skipBlanks_of_head fun x hx => ?_
      rw [hr] at hx
      cases hx
      decide
    rw [skipTrivia_of_skipComment? (by rw [hskip]; exact hfound),
      ih h _ rest (advance_rest_append hc'), advance_add hc']
  | case2 c hc => exact isTrivia_upTo_skipBlanks c

end PageEditor
