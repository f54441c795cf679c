import PageEditor.Proofs.Markup.Imports
import PageEditor.Proofs.Markup.Layout

/-!
# What stands outside the elements

In front of the elements of a page stand its imports, with blanks and comments between them. Behind
the elements stand blanks and comments; the last comment may be left open there, and a text without a
tag may follow. Between two elements stand blanks and comments only.
-/
set_option autoImplicit false

namespace PageEditor

open Cursor

/-! ## Blanks and comments -/

/-- White space and comments. A line comment goes on up to a line feed. A block comment ends with
the first `*/` behind its slash, which may share the asterisk. -/
inductive IsInterlude : List Char → Prop
  | nil : IsInterlude []
  | blank {x : Char} {cs : List Char} (hx : Text.isBlank x = true) (h : IsInterlude cs) :
      IsInterlude (x :: cs)
  | line {body cs : List Char} (hbody : '\n' ∉ body) (h : IsInterlude ('\n' :: cs)) :
      IsInterlude ('/' :: '/' :: (body ++ '\n' :: cs))
  | block {body cs : List Char} (hstart : (body ++ ['*']).head? = some '*')
      (hfirst : ¬ ['*', '/'] <:+: body ++ ['*']) (h : IsInterlude cs) :
      IsInterlude ('/' :: (body ++ '*' :: '/' :: cs))

theorem IsInterlude.append {a b : List Char} (ha : IsInterlude a) (hb : IsInterlude b) :
    IsInterlude (a ++ b) := by
  induction ha with
  | nil => exact hb
  | blank hx _ ih => exact .blank hx ih
  | line hbody _ ih =>
    rw [List.cons_append, List.cons_append, List.append_assoc]
    exact .line hbody ih
  | block hstart hfirst _ ih =>
    rw [List.cons_append, List.append_assoc]
    exact .block hstart hfirst ih

theorem joins_isInterlude : Joins IsInterlude := ⟨.nil, .append⟩

theorem IsBlank.isInterlude {cs : List Char} (h : IsBlank cs) : IsInterlude cs := by
  induction cs with
  | nil => exact .nil
  | cons x cs ih =>
    rw [IsBlank, List.all_cons, Bool.and_eq_true] at h
    exact .blank h.1 (ih h.2)

/-- A comment goes up to the first `*/`, or to the end of the text if there is none. -/
theorem commentSize_cases (cs : List Char) :
    (∃ body, cs.take (Text.commentSize cs) = body ++ ['*', '/'] ∧
      ¬ ['*', '/'] <:+: body ++ ['*']) ∨
    Text.commentSize cs = cs.length ∧ ¬ ['*', '/'] <:+: cs := by
  fun_induction Text.commentSize cs with
  | case1 => exact .inr ⟨rfl, by decide⟩
  | case2 r =>
    refine .inl ⟨[], rfl, fun hin => ?_⟩
    have hle := hin.length_le
    simp at hle
  | case3 c r hpair ih =>
    rcases ih with ⟨body, hbody, hfirst⟩ | ⟨hsize, hnone⟩
    · refine .inl ⟨c :: body, by rw [List.take_succ_cons, hbody]; rfl, fun hin => ?_⟩
      rcases List.infix_cons_iff.1 hin with hin | hin
      · -- The pair would start with the first character and end with the second one.
        obtain ⟨rfl, back, hback⟩ := List.cons_prefix_cons.1 hin
        have hhead : r.head? = (body ++ ['*', '/']).head? := by
          rw [← hbody, List.head?_take, if_neg]
          intro hzero
          rw [hzero, List.take_zero] at hbody
          cases body <;> cases hbody
        cases body with
        | nil => cases hback
        | cons x body =>
          cases hback
          obtain ⟨r', rfl⟩ := List.head?_eq_some_iff.1 hhead
          exact hpair r' rfl rfl
      · exact hfirst hin
    · refine .inr ⟨by rw [hsize, List.length_cons], fun hin => ?_⟩
      rcases List.infix_cons_iff.1 hin with hin | hin
      · obtain ⟨rfl, back, rfl⟩ := List.cons_prefix_cons.1 hin
        exact hpair back rfl rfl
      · exact hnone hin

section Comments

variable {c d : Cursor} {r body more : List Char}

theorem isInterlude_block
    (hbody : ('*' :: r).take (Text.commentSize ('*' :: r)) = body ++ ['*', '/'])
    (hfirst : ¬ ['*', '/'] <:+: body ++ ['*']) (hmore : IsInterlude more) :
    IsInterlude ('/' :: (('*' :: r).take (Text.commentSize ('*' :: r)) ++ more)) := by
  have hstart : (body ++ ['*']).head? = some '*' := by
    have hhead := congrArg List.head? hbody
    rw [List.head?_take, if_neg (Nat.ne_of_gt (commentSize_pos _ _))] at hhead
    cases body with
    | nil => rfl
    | cons x body => exact hhead.symm
  rw [hbody, List.append_assoc]
  exact .block hstart hfirst hmore

theorem isInterlude_comment (h : c.skipComment? = some d) (hd : d.rest ≠ [])
    (hmore : IsInterlude more) (hfeed : d.rest.head? = some '\n' → more.head? = some '\n') :
    IsInterlude (c.upTo d ++ more) := by
  rcases skipComment?_eq_some h hd with ⟨body, hbody, hup, hline⟩ | ⟨r, _, hlt, hup⟩
  · obtain ⟨back, rfl⟩ := List.head?_eq_some_iff.1 (hfeed hline)
    rw [hup]
    exact .line (fun hin => by simpa using List.all_eq_true.1 hbody _ hin) hmore
  · rcases commentSize_cases ('*' :: r) with ⟨body, hbody, hfirst⟩ | ⟨hsize, _⟩
    · rw [hup]
      exact isInterlude_block hbody hfirst hmore
    · exact absurd hsize (Nat.ne_of_lt hlt)

end Comments

theorem isBlank_upTo_skipBlanks (c : Cursor) : IsBlank (c.upTo c.skipBlanks) := by
  have hup : c.upTo c.skipBlanks = c.rest.takeWhile Text.isBlank := upTo_advance_takeWhile c _
  rw [IsBlank, hup]
  exact List.all_takeWhile

theorem isInterlude_upTo_skipTrivia {c : Cursor} (h : c.skipTrivia.rest ≠ []) :
    IsInterlude (c.upTo c.skipTrivia) := by
  fun_induction skipTrivia c with
  | case1 c d hd ih =>
    have hleads := leads_skipTrivia d
    have hcomment := leads_of_skipComment? hd
    rw [← (leads_skipBlanks c).upTo_append (hcomment.trans hleads)]
    refine (isBlank_upTo_skipBlanks c).isInterlude.append ?_
    rw [← hcomment.upTo_append hleads]
    refine isInterlude_comment hd (hleads.rest_ne_nil h) (ih h) fun hfeed => ?_
    rw [← List.append_nil (d.upTo d.skipTrivia)]
    exact head_upTo_skipTrivia hfeed []
  | case2 c hc => exact (isBlank_upTo_skipBlanks c).isInterlude

/-! ## Comments that are left open -/

/-- A comment that goes on up to the end of the text: a line comment without a line feed, or a block
comment without `*/` behind its slash. -/
inductive IsOpenComment : List Char → Prop
  | line {body : List Char} (hbody : '\n' ∉ body) : IsOpenComment ('/' :: '/' :: body)
  | block {body : List Char} (hfirst : ¬ ['*', '/'] <:+: '*' :: body) :
      IsOpenComment ('/' :: '*' :: body)

/-- Blanks and comments up to the end of a text. -/
def IsEnding (cs : List Char) : Prop :=
  ∃ front back, cs = front ++ back ∧ IsInterlude front ∧ (back = [] ∨ IsOpenComment back)

theorem IsEnding.behind {a b : List Char} (ha : IsInterlude a) (hb : IsEnding b) :
    IsEnding (a ++ b) := by
  obtain ⟨front, back, rfl, hfront, hback⟩ := hb
  exact ⟨a ++ front, back, (List.append_assoc _ _ _).symm, ha.append hfront, hback⟩

theorem IsInterlude.isEnding {cs : List Char} (h : IsInterlude cs) : IsEnding cs :=
  ⟨cs, [], (List.append_nil cs).symm, h, .inl rfl⟩

theorem IsOpenComment.isEnding {cs : List Char} (h : IsOpenComment cs) : IsEnding cs :=
  ⟨[], cs, rfl, .nil, .inr h⟩

/-- A comment with nothing behind it. -/
theorem isEnding_comment {c d : Cursor} (h : c.skipComment? = some d) (hd : d.rest = []) :
    IsEnding c.rest := by
  rw [skipComment?] at h
  split at h
  · rename_i r hr
    cases h
    have hdrop : r.dropWhile (· != '\n') = [] := by
      rw [← hd, advance_rest, hr, ← List.drop_drop]
      exact (advance_takeWhile_rest ⟨0, r⟩ (· != '\n')).symm
    rw [hr]
    refine IsOpenComment.isEnding (.line fun hin => ?_)
    simpa using List.dropWhile_eq_nil_iff.1 hdrop _ hin
  · rename_i r hr
    cases h
    rw [hr]
    rcases commentSize_cases ('*' :: r) with ⟨body, hbody, hfirst⟩ | ⟨_, hnone⟩
    · have hdrop : ('*' :: r).drop (Text.commentSize ('*' :: r)) = [] := by
        rw [advance_rest, hr, Nat.add_comm, List.drop_succ_cons] at hd
        exact hd
      have hclosed := (isInterlude_block hbody hfirst .nil).isEnding
      rwa [← hdrop, List.take_append_drop] at hclosed
    · exact (IsOpenComment.block hnone).isEnding
  · cases h

/-- What is skipped up to the end of the text. -/
theorem isEnding_of_skipTrivia {c : Cursor} (h : c.skipTrivia.rest = []) : IsEnding c.rest := by
  fun_induction skipTrivia c with
  | case1 c d hd ih =>
    rw [← (leads_skipBlanks c).rest]
    refine IsEnding.behind (isBlank_upTo_skipBlanks c).isInterlude ?_
    by_cases hnil : d.rest = []
    · exact isEnding_comment hd hnil
    · obtain ⟨front, back, hrest, hfront, hback⟩ := ih h
      refine ⟨c.skipBlanks.upTo d ++ front, back, ?_, ?_, hback⟩
      · rw [List.append_assoc, ← hrest, (leads_of_skipComment? hd).rest]
      · refine isInterlude_comment hd hnil hfront fun hfeed => ?_
        -- A line feed does not open a comment, so it is not in the open comment.
        cases front with
        | nil =>
          rw [hrest] at hfeed hnil
          rcases hback with rfl | hopen
          · exact absurd rfl hnil
          · cases hopen <;> cases hfeed
        | cons x front =>
          rw [hrest] at hfeed
          exact hfeed
  | case2 c hc =>
    have hrest := (leads_skipBlanks c).rest
    rw [h, List.append_nil] at hrest
    rw [← hrest]
    exact (isBlank_upTo_skipBlanks c).isInterlude.isEnding

/-! ## Imports -/

/-- The text is a statement with this import, and nothing else. -/
def Import.IsStatement (i : Import) (cs : List Char) : Prop :=
  ∃ j d, (ofText cs).importStatement = .ok (j, d) ∧ j.names = i.names ∧ d.rest = []

/-- The imports stand in the region one behind the other, each with its statement at its span, and
nothing but blanks and comments in front of, between and behind them. -/
def TilesImports (source : List Char) : Span → List Import → Prop
  | region, [] => ∃ gap, Text.slice source region = some gap ∧ IsInterlude gap
  | region, i :: is =>
    (∃ gap, Text.slice source ⟨region.start, i.span.start⟩ = some gap ∧ IsInterlude gap) ∧
      (∃ statement, Text.slice source i.span = some statement ∧ i.IsStatement statement) ∧
      TilesImports source ⟨i.span.stop, region.stop⟩ is

section Imports

variable {source : List Char} {c d e s : Cursor} {i : Import} {is : List Import}

theorem isStatement_upTo (h : c.importStatement = .ok (i, d)) : i.IsStatement (c.upTo d) := by
  have hgraft : Grafted d [] c (ofText (c.upTo d)) :=
    ⟨(leads_of_importStatement h).1, (List.append_nil _).symm⟩
  have hsemicolon : (ofText []).skipTrivia.rest.head? ≠ some ';' := by
    rw [skipTrivia_of_nil rfl]
    rintro ⟨⟩
  obtain ⟨j, d', hj, hnames, hd'⟩ := importStatement_grafted h (Leads.refl d) hsemicolon hgraft
  exact ⟨j, d', hj, hnames, hd'.rest_eq⟩

theorem Cursor.ReadsImports.tiles (h : ReadsImports c is e) (hc : (ofText source).Leads c)
    (hes : e.Leads s) (hgap : IsInterlude (e.upTo s)) :
    TilesImports source (c.span s) is := by
  induction h with
  | nil c => exact ⟨_, slice_of_leads hc hes, hgap⟩
  | @cons c d e i is hi _ ih =>
    obtain ⟨hleads, hspan⟩ := leads_of_importStatement hi
    have hskip := hc.trans (leads_skipTrivia c)
    have hfront : IsInterlude (c.upTo c.skipTrivia) :=
      isInterlude_upTo_skipTrivia
        (List.ne_nil_of_length_pos (Nat.lt_of_le_of_lt (Nat.zero_le _) (importStatement_length_lt hi)))
    rw [TilesImports, hspan]
    exact ⟨⟨_, slice_of_leads hc (leads_skipTrivia c), hfront⟩,
      ⟨_, slice_of_leads hskip hleads, isStatement_upTo hi⟩, ih (hskip.trans hleads) hes hgap⟩

end Imports

end PageEditor
