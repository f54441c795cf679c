import PageEditor.Proofs.Markup.Printed
import PageEditor.Proofs.Node.Sameness

/-!
# Fields that were read

What an open tag gives an element can be printed again: every name is a name, every string stood
between quotes, and every expression but an undecoded animation ends with the brace that closes it.
-/
set_option autoImplicit false

namespace PageEditor

open Cursor

/-! ## Attributes -/

/-- What is known of an attribute that was read. -/
structure Attribute.IsRead (a : Attribute) : Prop where
  name : Token.IsName a.name.toList
  literal : ∀ body, a.value = .literal body → Value.IsQuotable body
  group : ∀ raw, a.value = .expression raw → IsGroup raw.toList

theorem isRead_of_attributeValue {c d : Cursor} {v : AttributeValue}
    (h : c.attributeValue = .ok (v, d)) :
    (∀ body, v = .literal body → Value.IsQuotable body) ∧
      ∀ raw, v = .expression raw → IsGroup raw.toList := by
  simp only [attributeValue] at h
  split at h
  · cases h
  rename_i l hl
  have hlex := peek?_eq_some.1 hl
  split at h
  · rename_i quote body ht
    cases h
    rw [ht] at hlex
    refine ⟨?_, (by rintro _ ⟨⟩)⟩
    rintro _ ⟨⟩
    exact Value.isQuotable_of_escaped (isProper_of_lex hlex (by rintro _ ⟨⟩)).1
  · rename_i ht
    obtain ⟨e, hbraced, h⟩ := bind_eq_ok.1 h
    cases h
    rw [ht] at hlex
    refine ⟨(by rintro _ ⟨⟩), ?_⟩
    rintro _ ⟨⟩
    rw [String.toList_ofList]
    exact isGroup_of_braced (skipSpace_of_lex hlex (by rintro _ ⟨⟩)) hbraced
  · cases h

theorem isRead_of_valueAfterName {c d : Cursor} {v : AttributeValue}
    (h : c.valueAfterName = .ok (v, d)) :
    (∀ body, v = .literal body → Value.IsQuotable body) ∧
      ∀ raw, v = .expression raw → IsGroup raw.toList := by
  simp only [valueAfterName] at h
  split at h
  · split at h
    · exact isRead_of_attributeValue h
    · cases h
      exact ⟨(by rintro _ ⟨⟩), (by rintro _ ⟨⟩)⟩
  · cases h
    exact ⟨(by rintro _ ⟨⟩), (by rintro _ ⟨⟩)⟩

theorem isRead_of_attributes {c d : Cursor} {as : List Attribute} {closed : Bool}
    (h : c.attributes = .ok (as, closed, d)) : ∀ a ∈ as, a.IsRead := by
  fun_induction attributes c generalizing as closed d with
  | case1 => cases h
  | case2 => cases h; rintro _ ⟨⟩
  | case3 => cases h; rintro _ ⟨⟩
  | case4 => cases h
  | case5 => cases h
  | case6 c l hl name ht v d' hv more closed' d'' hd ih =>
    cases h
    intro a ha
    rcases List.mem_cons.1 ha with rfl | ha
    · have hlex := next_eq_ok.1 hl
      rw [ht] at hlex
      obtain ⟨hliteral, hgroup⟩ := isRead_of_valueAfterName hv
      exact ⟨(isProper_of_lex hlex (by rintro _ ⟨⟩)).1, hliteral, hgroup⟩
    · exact ih hd a ha
  | case7 => cases h
  | case8 => cases h

theorem IsOpenTag.isRead {tag : OpenTag} {cs : List Char} (h : IsOpenTag tag cs) :
    ∀ a ∈ tag.attributes, a.IsRead := by
  have hopen := h.reads (ofText cs) [] (List.append_nil cs).symm
  obtain ⟨_, _, _, _, has⟩ := openTag_eq_ok.1 hopen
  exact isRead_of_attributes has

/-! ## Expressions -/

theorem getLast?_of_bracedSize {depth : Nat} {state : BraceState} {cs : List Char} {n : Nat}
    (h : bracedSize depth state cs = some n) : (cs.take n).getLast? = some '\x7d' := by
  have hcons : ∀ (x : Char) {r : List Char} {m : Nat}, (r.take m).getLast? = some '\x7d' →
      ((x :: r).take (m + 1)).getLast? = some '\x7d' := by
    intro x r m hr
    rw [List.take_succ_cons, List.getLast?_cons, hr]
    rfl
  fun_induction bracedSize depth state cs generalizing n with
  | case1 => cases h
  | case8 => cases h; rfl
  | case2 depth q c r ih =>
    obtain ⟨m, hm, rfl⟩ := Option.map_eq_some_iff.1 h
    exact hcons _ (ih hm)
  | case3 depth q r ih =>
    obtain ⟨m, hm, rfl⟩ := Option.map_eq_some_iff.1 h
    exact hcons _ (ih hm)
  | case4 depth c r hc ih =>
    obtain ⟨m, hm, rfl⟩ := Option.map_eq_some_iff.1 h
    exact hcons _ (ih hm)
  | case5 depth q c r hslash hq ih =>
    obtain ⟨m, hm, rfl⟩ := Option.map_eq_some_iff.1 h
    exact hcons _ (ih hm)
  | case6 depth c r hq ih =>
    obtain ⟨m, hm, rfl⟩ := Option.map_eq_some_iff.1 h
    exact hcons _ (ih hm)
  | case7 depth r hq ih =>
    obtain ⟨m, hm, rfl⟩ := Option.map_eq_some_iff.1 h
    exact hcons _ (ih hm)
  | case9 depth r hdepth hq hopen ih =>
    obtain ⟨m, hm, rfl⟩ := Option.map_eq_some_iff.1 h
    exact hcons _ (ih hm)
  | case10 depth c r hq hopen hclose ih =>
    obtain ⟨m, hm, rfl⟩ := Option.map_eq_some_iff.1 h
    exact hcons _ (ih hm)

theorem IsGroup.exists_inside {cs : List Char} (h : IsGroup cs) :
    ∃ inner, cs = '\x7b' :: inner ++ ['\x7d'] := by
  obtain ⟨hhead, hsize⟩ := h
  have hlast := getLast?_of_bracedSize hsize
  rw [List.take_length] at hlast
  cases cs with
  | nil => cases hhead
  | cons x r =>
    cases hhead
    cases hr : r.getLast? with
    | none =>
      rw [List.getLast?_eq_none_iff] at hr
      subst hr
      cases hlast
    | some y =>
      rw [List.getLast?_cons, hr] at hlast
      cases hlast
      obtain ⟨inner, rfl⟩ := List.getLast?_eq_some_iff.1 hr
      exact ⟨inner, rfl⟩

namespace Value

theorem isExpression_of_inside {value : String} {inner : List Char}
    (h : value.toList = '\x7b' :: inner ++ ['\x7d']) : isExpression value = true := by
  rw [isExpression, h]
  cases inner with
  | nil => rfl
  | cons x r =>
    have hlast : (x :: (r ++ ['\x7d'])).getLast? = some '\x7d' := List.getLast?_concat (l := x :: r)
    simp [hlast]

theorem isExpression_of_isGroup {value : String} (h : IsGroup value.toList) :
    isExpression value = true := by
  obtain ⟨_, hinner⟩ := h.exists_inside
  exact isExpression_of_inside hinner

end Value

/-! ## Taking attributes in -/

theorem Entries.mem_put {α : Type} {k : String} {v : α} {e : String × α}
    {es : List (String × α)} (h : e ∈ put k v es) : e = (k, v) ∨ e ∈ es := by
  induction es with
  | nil => exact .inl (List.mem_singleton.1 h)
  | cons x es ih =>
    rw [put] at h
    split at h
    · exact (List.mem_cons.1 h).imp_right (List.mem_cons_of_mem x)
    · rcases List.mem_cons.1 h with rfl | h
      · exact .inr List.mem_cons_self
      · exact (ih h).imp_right (List.mem_cons_of_mem x)

namespace Fields

variable {f : Fields} {a : Attribute}

theorem IsRead.setAttribute (h : f.IsRead) {name value : String} (hname : Token.IsName name.toList)
    (hstring : Value.isExpression value = false → Value.IsQuotable value)
    (hgroup : name ≠ animationAttribute → Value.isExpression value = true →
      IsGroup value.toList) : (f.setAttribute name value).IsRead := by
  refine ⟨h.name, h.className, ?_, ?_, ?_⟩
  all_goals
    intro e he
    rcases Entries.mem_put he with rfl | he
  · exact hname
  · exact h.names e he
  · exact hstring
  · exact h.strings e he
  · exact hgroup
  · exact h.groups e he

theorem IsRead.setGroup (h : f.IsRead) {name value : String} (hname : Token.IsName name.toList)
    (hgroup : IsGroup value.toList) : (f.setAttribute name value).IsRead := by
  refine h.setAttribute hname ?_ fun _ _ => hgroup
  intro hno
  rw [Value.isExpression_of_isGroup hgroup] at hno
  cases hno

theorem IsRead.setLiteral (h : f.IsRead) {name body : String} (hname : Token.IsName name.toList)
    (hbody : Value.IsQuotable body) : (f.setAttribute name (Value.ofLiteral body)).IsRead := by
  unfold Value.ofLiteral
  split
  · exact h.setGroup hname (Value.isGroup_quoted body)
  · rename_i hno
    exact h.setAttribute hname (fun _ => hbody) fun _ hyes => absurd hyes hno

theorem IsRead.take (h : f.IsRead) (ha : a.IsRead) : (f.take a).IsRead := by
  unfold Fields.take
  split
  · rename_i body hvalue
    have hbody := ha.literal body hvalue
    split
    · exact ⟨h.name, hbody, h.names, h.strings, h.groups⟩
    · split
      · rename_i hanimation
        split
        · exact ⟨h.name, h.className, h.names, h.strings, h.groups⟩
        · exact h.setAttribute ha.name (fun _ => hbody) fun hno => absurd hanimation hno
      · exact h.setLiteral ha.name hbody
  · rename_i raw hvalue
    have hgroup := ha.group raw hvalue
    split
    · split
      · exact ⟨h.name, h.className, h.names, h.strings, h.groups⟩
      · exact h.setGroup ha.name hgroup
    · exact h.setGroup ha.name hgroup
  · exact h.setGroup ha.name (by decide)

theorem IsRead.withText (h : f.IsRead) (text : Option String) : { f with text }.IsRead :=
  ⟨h.name, h.className, h.names, h.strings, h.groups⟩

theorem isRead_ofTag {c d : Cursor} {tag : OpenTag} (h : c.openTag = .ok (tag, d)) :
    (ofTag tag.name tag.attributes).IsRead := by
  obtain ⟨_, _, _, _, has⟩ := openTag_eq_ok.1 h
  have hall := isRead_of_attributes has
  have hstart : ({ type := tag.name } : Fields).IsRead :=
    ⟨isName_of_openTag h, .inr .nil, (by rintro _ ⟨⟩), (by rintro _ ⟨⟩), (by rintro _ ⟨⟩)⟩
  rw [ofTag]
  generalize ({ type := tag.name } : Fields) = f at hstart
  generalize tag.attributes = as at hall
  induction as generalizing f with
  | nil => exact hstart
  | cons a as ih =>
    refine ih (f.take a) (hstart.take ?_) fun x hx => hall x (List.mem_cons_of_mem a hx)
    exact hall a List.mem_cons_self

end Fields

end PageEditor
