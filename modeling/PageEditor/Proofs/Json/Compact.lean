import PageEditor.Json.Decode
import PageEditor.Json.Printer
import PageEditor.Json.Reader

/-!
# Compact texts

The compact text of a value tells which value it is, as long as there are no numbers in it: where the
text of such a value ends can be seen from the text itself, so nothing that stands behind it can be
taken for a part of it.
-/
set_option autoImplicit false

namespace PageEditor.Json

/-! ## Strings -/

theorem stringBody_letter {e x : Char} (he : unescape? e = some x) (rest : List Char) :
    stringBody none ('\\' :: e :: rest) = (stringBody none rest).map (push x) := by
  have hu : e ≠ 'u' := by
    rintro rfl
    cases he
  simp [stringBody, he, hu]

theorem hexFour?_control : ∀ n < 32,
    hexFour? '0' '0' (Text.hexDigit (n / 16)) (Text.hexDigit (n % 16)) = some n := by
  decide

theorem stringBody_control {c : Char} (hc : c.toNat < 32) (rest : List Char) :
    stringBody none ('\\' :: 'u' :: '0' :: '0' :: Text.hexDigit (c.toNat / 16) ::
      Text.hexDigit (c.toNat % 16) :: rest) = (stringBody none rest).map (push c) := by
  have hhigh : isHighHalf c.toNat = false := by
    simp only [isHighHalf, Bool.and_eq_false_iff, decide_eq_false_iff_not]
    omega
  have hlow : isLowHalf c.toNat = false := by
    simp only [isLowHalf, Bool.and_eq_false_iff, decide_eq_false_iff_not]
    omega
  simp [stringBody, hexFour?_control _ hc, hhigh, hlow]

theorem stringBody_self {c : Char} (hquote : c ≠ '"') (hslash : c ≠ '\\') (hc : ¬c.toNat < 32)
    (rest : List Char) :
    stringBody none (c :: rest) = (stringBody none rest).map (push c) := by
  rw [stringBody.eq_def]
  split
  · rename_i h
    cases h
  · rename_i h
    exact absurd (List.cons.inj h).1 hslash
  · rename_i h
    cases h
    simp [hquote, hslash, hc]

theorem eq_ofNat {c : Char} {n : Nat} (h : c.toNat = n) : c = Char.ofNat n := by
  rw [← h, Char.ofNat_toNat]

theorem stringBody_escape (c : Char) (rest : List Char) :
    stringBody none (escape c ++ rest) = (stringBody none rest).map (push c) := by
  unfold escape
  by_cases hquote : c = '"'
  · rw [if_pos hquote, hquote]
    exact stringBody_letter rfl rest
  by_cases hslash : c = '\\'
  · rw [if_neg hquote, if_pos hslash, hslash]
    exact stringBody_letter rfl rest
  rw [if_neg hquote, if_neg hslash]
  by_cases hfeed : c = '\n'
  · rw [if_pos hfeed, hfeed]
    exact stringBody_letter rfl rest
  by_cases hreturn : c = '\r'
  · rw [if_neg hfeed, if_pos hreturn, hreturn]
    exact stringBody_letter rfl rest
  rw [if_neg hfeed, if_neg hreturn]
  by_cases htab : c = '\t'
  · rw [if_pos htab, htab]
    exact stringBody_letter rfl rest
  by_cases hback : c.toNat = 8
  · rw [if_neg htab, if_pos hback, eq_ofNat hback]
    exact stringBody_letter rfl rest
  rw [if_neg htab, if_neg hback]
  by_cases hform : c.toNat = 12
  · rw [if_pos hform, eq_ofNat hform]
    exact stringBody_letter rfl rest
  rw [if_neg hform]
  by_cases hcontrol : c.toNat < 32
  · rw [if_pos hcontrol]
    exact stringBody_control hcontrol rest
  · rw [if_neg hcontrol]
    exact stringBody_self hquote hslash hcontrol rest

/-- A quoted text is read back, and nothing behind the closing quote with it. -/
theorem stringBody_quote (cs rest : List Char) :
    stringBody none (cs.flatMap escape ++ '"' :: rest) = some (some cs, rest) := by
  induction cs with
  | nil =>
    rw [List.flatMap_nil, List.nil_append, stringBody.eq_def]
    rfl
  | cons c cs ih =>
    rw [List.flatMap_cons, List.append_assoc, stringBody_escape, ih]
    rfl

theorem valueWithin_scalar {cs : List Char} (hitems : (skipSpace cs).head? ≠ some '[')
    (hmembers : (skipSpace cs).head? ≠ some '\x7b') (frames : List Frame) :
    valueWithin frames cs =
      (scalar? (skipSpace cs)).bind fun p => afterValue frames p.1 p.2 := by
  rw [valueWithin.eq_def]
  split
  · rename_i h
    rw [h] at hitems
    exact absurd rfl hitems
  · rename_i h
    rw [h] at hmembers
    exact absurd rfl hmembers
  · split
    · rename_i h
      rw [h]
      rfl
    · rename_i h
      rw [h]
      rfl

theorem scalar?_quote (cs rest : List Char) :
    scalar? (quote cs ++ rest) = some (string (String.ofList cs), rest) := by
  simp only [quote, List.cons_append, List.append_assoc, List.nil_append, scalar?,
    stringBody_quote]
  rfl

theorem read?_quote (cs : List Char) : read? (quote cs) = some (string (String.ofList cs)) := by
  have hskip : skipSpace (quote cs) = quote cs := rfl
  have hscalar := scalar?_quote cs []
  rw [List.append_nil] at hscalar
  rw [read?, valueWithin_scalar (by rintro ⟨⟩) (by rintro ⟨⟩), hskip, hscalar, Option.bind_some,
    afterValue.eq_def]
  rfl

theorem quote_append_inj {s t : String} {r r' : List Char}
    (h : quote s.toList ++ r = quote t.toList ++ r') : s = t ∧ r = r' := by
  simp only [quote, List.cons_append, List.append_assoc, List.cons.injEq, true_and,
    List.nil_append] at h
  have hread := congrArg (stringBody none) h
  rw [stringBody_quote, stringBody_quote] at hread
  simp only [Option.some.injEq, Prod.mk.injEq] at hread
  exact ⟨String.toList_inj.1 hread.1, hread.2⟩

/-! ## Values -/

mutual

/-- Whether a value consists of texts, truth values and objects only. -/
def IsVerbal : Json → Prop
  | null => True
  | bool _ => True
  | string _ => True
  | object members => MembersVerbal members
  | _ => False

def MembersVerbal : List (String × Json) → Prop
  | [] => True
  | (_, v) :: ms => v.IsVerbal ∧ MembersVerbal ms

end

mutual

/-- The text of one value in front of another text tells the value and the text behind it. -/
theorem compact_append_inj : (v w : Json) → v.IsVerbal → w.IsVerbal → ∀ {r r' : List Char},
    v.compact ++ r = w.compact ++ r' → v = w ∧ r = r'
  | null, w, _, hw, r, r', h => by
    cases w with
    | null => exact ⟨rfl, List.append_cancel_left h⟩
    | bool b => cases b <;> simp [compact] at h
    | string s => simp [compact, quote] at h
    | object ms => simp [compact] at h
    | _ => cases hw
  | bool b, w, _, hw, r, r', h => by
    cases w with
    | null => cases b <;> simp [compact] at h
    | bool b' => cases b <;> cases b' <;> simp_all [compact]
    | string s => cases b <;> simp [compact, quote] at h
    | object ms => cases b <;> simp [compact] at h
    | _ => cases hw
  | string s, w, _, hw, r, r', h => by
    cases w with
    | null => simp [compact, quote] at h
    | bool b => cases b <;> simp [compact, quote] at h
    | string t =>
      simp only [compact] at h
      obtain ⟨rfl, hr⟩ := quote_append_inj h
      exact ⟨rfl, hr⟩
    | object ms => simp [compact, quote] at h
    | _ => cases hw
  | object ms, w, hv, hw, r, r', h => by
    cases w with
    | null => simp [compact] at h
    | bool b => cases b <;> simp [compact] at h
    | string t => simp [compact, quote] at h
    | object ms' =>
      simp only [compact, List.cons_append, List.cons.injEq, true_and] at h
      obtain ⟨rfl, hr⟩ := compactMembers_append_inj ms ms' hv hw h
      exact ⟨rfl, hr⟩
    | _ => cases hw
  | number _, _, hv, _, _, _, _ => by cases hv
  | array _, _, hv, _, _, _, _ => by cases hv
  | unreadable, _, hv, _, _, _, _ => by cases hv

theorem compactMembers_append_inj : (ms ms' : List (String × Json)) → MembersVerbal ms →
    MembersVerbal ms' → ∀ {r r' : List Char},
    compactMembers ms ++ r = compactMembers ms' ++ r' → ms = ms' ∧ r = r'
  | [], [], _, _, _, _, h => ⟨rfl, List.append_cancel_left h⟩
  | [], (_, _) :: _, _, _, _, _, h => by simp [compactMembers, quote] at h
  | (_, _) :: _, [], _, _, _, _, h => by simp [compactMembers, quote] at h
  | (k, v) :: ms, (k', v') :: ms', hv, hw, r, r', h => by
    simp only [compactMembers, List.append_assoc, List.cons_append] at h
    obtain ⟨rfl, hvalue⟩ := quote_append_inj h
    obtain ⟨rfl, hmore⟩ := compact_append_inj v v' hv.1 hw.1 (List.cons.inj hvalue).2
    obtain ⟨rfl, hr⟩ := compactMoreMembers_append_inj ms ms' hv.2 hw.2 hmore
    exact ⟨rfl, hr⟩

theorem compactMoreMembers_append_inj : (ms ms' : List (String × Json)) → MembersVerbal ms →
    MembersVerbal ms' → ∀ {r r' : List Char},
    compactMoreMembers ms ++ r = compactMoreMembers ms' ++ r' → ms = ms' ∧ r = r'
  | [], [], _, _, _, _, h => ⟨rfl, List.append_cancel_left h⟩
  | [], (_, _) :: _, _, _, _, _, h => by simp [compactMoreMembers] at h
  | (_, _) :: _, [], _, _, _, _, h => by simp [compactMoreMembers] at h
  | (k, v) :: ms, (k', v') :: ms', hv, hw, r, r', h => by
    simp only [compactMoreMembers, List.append_assoc, List.cons_append] at h
    obtain ⟨rfl, hvalue⟩ := quote_append_inj (List.cons.inj h).2
    obtain ⟨rfl, hmore⟩ := compact_append_inj v v' hv.1 hw.1 (List.cons.inj hvalue).2
    obtain ⟨rfl, hr⟩ := compactMoreMembers_append_inj ms ms' hv.2 hw.2 hmore
    exact ⟨rfl, hr⟩

end

theorem text_inj {v w : Json} (hv : v.IsVerbal) (hw : w.IsVerbal) (h : v.text = w.text) : v = w := by
  have hcompact : v.compact ++ [] = w.compact ++ [] := by
    rw [List.append_nil, List.append_nil]
    exact String.ofList_inj.1 h
  exact (compact_append_inj v w hv hw hcompact).1

theorem isVerbal_ofStringMap (m : OrderedMap String) : (ofStringMap m).IsVerbal := by
  show MembersVerbal (m.entries.map fun e => (e.1, string e.2))
  induction m.entries with
  | nil => exact trivial
  | cons e es ih => exact ⟨trivial, ih⟩

theorem isVerbal_ofOption {α : Type} {f : α → Json} (hf : ∀ a, (f a).IsVerbal) (o : Option α) :
    (ofOption f o).IsVerbal := by
  cases o with
  | none => exact trivial
  | some a => exact hf a

theorem ofStringMap_inj {m m' : OrderedMap String} (h : ofStringMap m = ofStringMap m') :
    m = m' := by
  refine OrderedMap.ext ?_
  have hentries := object.inj h
  refine List.map_inj_right (fun e e' he => ?_) |>.1 hentries
  cases e
  cases e'
  cases he
  rfl

end PageEditor.Json
