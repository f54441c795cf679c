import PageEditor.Proofs.Markup.Restyled

/-!
# Tags that are printed without loss

An open tag whose fields come back when it is read may have been read otherwise than it was printed: a
name or a string that is no such thing may end early and leave the rest to be read as something else.
But the tag is read up to its end. The angle brackets of all fields that are read stand in front of the
bracket that ends the tag, and the printed tag has no others.
-/
set_option autoImplicit false

namespace PageEditor

open Cursor

theorem isMark_greater : Value.IsMark '>' := .inr rfl

theorem Token.IsName.notMem {cs : List Char} (h : IsName cs) {x : Char}
    (hx : isIdentRest x = false) : x ∉ cs := by
  obtain ⟨c, r, rfl, hc, hr⟩ := h
  have hstart : isIdentStart x = false := by
    rw [isIdentRest] at hx
    simp only [Bool.or_eq_false_iff] at hx
    exact hx.1.1.1
  rw [List.mem_cons, not_or]
  refine ⟨(isIdentStart_ne hc hstart).symm, fun hmem => ?_⟩
  rw [List.all_eq_true.1 hr x hmem] at hx
  cases hx

/-! ## Brackets of printed tags -/

namespace Value

theorem count_quoteAttribute (s : String) :
    (quoteAttribute s).count '>' = s.toList.count '>' := by
  unfold quoteAttribute
  split
  · exact count_quoted isMark_greater s
  · simp

theorem count_attributeText (value : String) :
    (attributeText value).count '>' ≤ value.toList.count '>' := by
  unfold attributeText
  split
  · exact Nat.zero_le _
  split
  · simp
  · simp [count_quoteAttribute]

end Value

namespace Fields

/-- The angle brackets in the class, the style and the attributes. -/
def brackets (f : Fields) : Nat :=
  f.className.toList.count '>' + Value.marksOf '>' f.style.entries +
    Value.marksOf '>' f.attributes.entries

variable {f : Fields}

theorem count_classText (f : Fields) : f.classText.count '>' ≤ f.className.toList.count '>' := by
  unfold classText
  split
  · exact Nat.zero_le _
  · simp [Value.count_quoteAttribute]

theorem count_styleText (f : Fields) :
    f.styleText.count '>' ≤ Value.marksOf '>' f.style.entries := by
  have hentries := Value.count_styleText isMark_greater f.style.entries
  rw [List.count_append] at hentries
  unfold styleText
  split
  · exact Nat.zero_le _
  · have hopen : (" style=\x7b\x7b ".toList).count '>' = 0 := by decide
    have hclose : (" \x7d\x7d".toList).count '>' = 0 := by decide
    rw [List.count_append, List.count_append]
    omega

theorem count_attributesText (f : Fields) :
    f.attributesText.count '>' ≤ Value.marksOf '>' f.attributes.entries := by
  rw [attributesText]
  induction f.attributes.entries with
  | nil => exact Nat.zero_le _
  | cons e es ih =>
    have hvalue := Value.count_attributeText e.2
    rw [Value.marksOf, List.filter_cons]
    split
    · have hblank : [' '].count '>' = 0 := rfl
      have hcolon : [':'].count '>' = 0 := rfl
      rw [List.flatMap_cons, ← List.singleton_append]
      simp only [List.append_assoc, List.count_append]
      omega
    · omega

theorem count_openTag (hname : Token.IsName f.type.toList) (hanimation : f.animation = none)
    (closed : Bool) : (f.openTag closed).count '>' ≤ f.brackets + 1 := by
  have htype := List.count_eq_zero_of_not_mem (hname.notMem (x := '>') (by decide))
  have hend : (if closed then " />".toList else ">".toList).count '>' = 1 := by
    cases closed <;> rfl
  have hnone : f.animationText = [] := by rw [animationText, hanimation]
  have hclass := f.count_classText
  have hstyle := f.count_styleText
  have hattributes := f.count_attributesText
  have hless : ['<'].count '>' = 0 := rfl
  rw [openTag, brackets, hnone, ← List.singleton_append]
  simp only [List.append_nil, List.append_assoc, List.count_append]
  omega

end Fields

/-! ## Brackets of tags that were read -/

/-- The angle brackets in an attribute. -/
def Attribute.brackets (a : Attribute) : Nat :=
  a.name.toList.count '>' + match a.value with
    | .literal body => body.toList.count '>'
    | .expression raw => raw.toList.count '>'
    | .flag => 0

def Attribute.bracketsAll : List Attribute → Nat
  | [] => 0
  | a :: as => a.brackets + bracketsAll as

/-- A style has no brackets but those of the expression that it is read from. -/
theorem Value.brackets_of_styleObject? {raw : String} {style : OrderedMap String}
    (h : styleObject? raw = some style) : marksOf '>' style.entries ≤ raw.toList.count '>' := by
  unfold styleObject? at h
  split at h
  · split at h
    · split at h
      · rename_i entries d hread
        split at h
        · cases h
          have hmarks := marksOf_le_of_styleEntries isMark_greater entries _ d hread
          have hinsert := marksOf_insertAll_le (x := '>') entries .empty
          have hsub : (inside raw).tail.Sublist raw.toList :=
            (List.tail_sublist _).trans ((List.dropLast_sublist _).trans (List.tail_sublist _))
          have hnone : marksOf '>' (OrderedMap.empty : OrderedMap String).entries = 0 := rfl
          refine Nat.le_trans hinsert ?_
          rw [hnone, Nat.zero_add]
          exact Nat.le_trans hmarks (hsub.count_le '>')
        · cases h
      · cases h
    · cases h
  · cases h

namespace Fields

theorem brackets_setAttribute (f : Fields) (name value : String) :
    (f.setAttribute name value).brackets ≤
      f.brackets + (name.toList.count '>' + value.toList.count '>') := by
  have hput := Value.marksOf_put_le (x := '>') name value f.attributes.entries
  have hcolon : [':'].count '>' = 0 := rfl
  simp only [Value.marksOf, hcolon] at hput
  have hentries : (f.setAttribute name value).attributes.entries =
      Entries.put name value f.attributes.entries := rfl
  have hclass : (f.setAttribute name value).className = f.className := rfl
  have hstyle : (f.setAttribute name value).style = f.style := rfl
  rw [brackets, brackets, hentries, hclass, hstyle]
  omega

theorem brackets_take (f : Fields) (a : Attribute) :
    (f.take a).brackets ≤ f.brackets + a.brackets := by
  obtain ⟨name, value⟩ := a
  cases value with
  | literal body =>
    have hliteral : (Value.ofLiteral body).toList.count '>' = body.toList.count '>' := by
      unfold Value.ofLiteral
      split
      · exact Value.count_quoted isMark_greater body
      · rfl
    dsimp only [take, Attribute.brackets]
    split
    · simp only [brackets]
      omega
    · split
      · split
        · exact Nat.le_add_right _ _
        · exact f.brackets_setAttribute name body
      · exact hliteral ▸ f.brackets_setAttribute name (Value.ofLiteral body)
  | expression raw =>
    have hattribute := f.brackets_setAttribute name raw
    dsimp only [take, Attribute.brackets]
    split
    · split
      · rename_i style hstyle
        have hentries := Value.brackets_of_styleObject? hstyle
        simp only [brackets]
        omega
      · exact hattribute
    · exact hattribute
  | flag =>
    have hattribute := f.brackets_setAttribute name Value.flag
    have hflag : Value.flag.toList.count '>' = 0 := by decide
    rw [hflag] at hattribute
    exact hattribute

theorem brackets_foldl_take (as : List Attribute) : ∀ f : Fields,
    (as.foldl take f).brackets ≤ f.brackets + Attribute.bracketsAll as := by
  induction as with
  | nil => exact fun _ => Nat.le_refl _
  | cons a as ih =>
    intro f
    have htake := f.brackets_take a
    have hmore := ih (f.take a)
    rw [List.foldl_cons, Attribute.bracketsAll]
    omega

end Fields

namespace Cursor

variable {c d e : Cursor} {x : Expectation} {l : Lexeme}

theorem count_of_next (h : c.next x = .ok l) :
    l.token.chars.count '>' + l.next.rest.count '>' ≤ c.rest.count '>' :=
  Value.count_of_peek? (peek?_eq_some.2 (next_eq_ok.1 h))

theorem brackets_of_attributeValue (name : String) {v : AttributeValue}
    (h : c.attributeValue = .ok (v, d)) :
    (Attribute.mk name v).brackets + d.rest.count '>' ≤
      name.toList.count '>' + c.rest.count '>' := by
  simp only [attributeValue] at h
  split at h
  · cases h
  rename_i l hl
  split at h
  · rename_i quote body ht
    cases h
    have hcount := Value.count_of_peek? (x := '>') hl
    rw [ht, Token.chars] at hcount
    simp only [List.count_append, List.count_cons] at hcount
    simp only [Attribute.brackets]
    omega
  · obtain ⟨e, hbraced, h⟩ := bind_eq_ok.1 h
    cases h
    have hsplit := congrArg (List.count '>') (leads_of_braced hbraced).rest
    have hskip := congrArg (List.count '>') (leads_skipSpace c).rest
    rw [List.count_append] at hsplit hskip
    simp only [Attribute.brackets, String.toList_ofList]
    omega
  · cases h

theorem brackets_of_valueAfterName (name : String) {v : AttributeValue}
    (h : c.valueAfterName = .ok (v, d)) :
    (Attribute.mk name v).brackets + d.rest.count '>' ≤
      name.toList.count '>' + c.rest.count '>' := by
  have hflag : d = c → v = .flag → (Attribute.mk name v).brackets + d.rest.count '>' ≤
      name.toList.count '>' + c.rest.count '>' := by
    rintro rfl rfl
    exact Nat.le_refl _
  simp only [valueAfterName] at h
  split at h
  · rename_i l hl
    split at h
    · have hcount := Value.count_of_peek? (x := '>') hl
      have hvalue := brackets_of_attributeValue name h
      omega
    · cases h
      exact hflag rfl rfl
  · cases h
    exact hflag rfl rfl

theorem brackets_of_attributes {as : List Attribute} {closed : Bool}
    (h : c.attributes = .ok (as, closed, e)) :
    Attribute.bracketsAll as + 1 + e.rest.count '>' ≤ c.rest.count '>' := by
  fun_induction attributes c generalizing as closed e with
  | case1 => cases h
  | case2 c l hl ht =>
    cases h
    have hcount := count_of_next hl
    have hend : (Token.greater).chars.count '>' = 1 := rfl
    rw [ht, hend] at hcount
    simpa [Attribute.bracketsAll] using hcount
  | case3 c l hl ht =>
    cases h
    have hcount := count_of_next hl
    have hend : (Token.selfClose).chars.count '>' = 1 := rfl
    rw [ht, hend] at hcount
    simpa [Attribute.bracketsAll] using hcount
  | case4 => cases h
  | case5 => cases h
  | case6 c l hl name ht v d hv more closed' f hd ih =>
    cases h
    have hcount := count_of_next hl
    have hvalue := brackets_of_valueAfterName name hv
    have hmore := ih hd
    rw [ht, Token.chars] at hcount
    rw [Attribute.bracketsAll]
    omega
  | case7 => cases h
  | case8 => cases h

theorem brackets_of_openTag {tag : OpenTag} (h : c.openTag = .ok (tag, d)) :
    (Fields.ofTag tag.name tag.attributes).brackets + 1 + d.rest.count '>' ≤ c.rest.count '>' := by
  obtain ⟨l, e, hl, hname, has⟩ := openTag_eq_ok.1 h
  obtain ⟨hl, _⟩ := expect_eq_ok.1 hl
  obtain ⟨n, hn, _, rfl⟩ := ident_eq_ok.1 hname
  have hfields := Fields.brackets_foldl_take tag.attributes { type := tag.name }
  have hnone : ({ type := tag.name } : Fields).brackets = 0 := rfl
  have hattributes := brackets_of_attributes has
  have hless := count_of_next hl
  have hident := count_of_next hn
  rw [Fields.ofTag]
  omega

/-- What a tag ends with. -/
def tagEnd (closed : Bool) : List Char := if closed then ['/', '>'] else ['>']

theorem upTo_of_attributes {as : List Attribute} {closed : Bool}
    (h : c.attributes = .ok (as, closed, e)) : ∃ front, c.upTo e = front ++ tagEnd closed := by
  have hlast : ∀ {c : Cursor} {l : Lexeme}, c.next .attributeOrEnd = .ok l →
      (∀ ds, l.token ≠ .number ds) → ∃ front, c.upTo l.next = front ++ l.token.chars := by
    intro c l hl hn
    obtain ⟨_, _, blanks, _, hup⟩ := isProper_of_lex (next_eq_ok.1 hl) hn
    exact ⟨blanks, hup⟩
  fun_induction attributes c generalizing as closed e with
  | case1 => cases h
  | case2 c l hl ht =>
    cases h
    obtain ⟨front, hfront⟩ := hlast hl (by rw [ht]; rintro _ ⟨⟩)
    exact ⟨front, by rw [hfront, ht]; rfl⟩
  | case3 c l hl ht =>
    cases h
    obtain ⟨front, hfront⟩ := hlast hl (by rw [ht]; rintro _ ⟨⟩)
    exact ⟨front, by rw [hfront, ht]; rfl⟩
  | case4 => cases h
  | case5 => cases h
  | case6 c l hl name ht v d hv more closed' f hd ih =>
    cases h
    obtain ⟨front, hfront⟩ := ih hd
    have hle := (leads_of_next hl).trans (leads_of_valueAfterName hv)
    rw [← hle.upTo_append (leads_of_attributes hd), hfront]
    exact ⟨_, (List.append_assoc _ _ _).symm⟩
  | case7 => cases h
  | case8 => cases h

theorem upTo_of_openTag {tag : OpenTag} (h : c.openTag = .ok (tag, d)) :
    ∃ front, c.upTo d = front ++ tagEnd tag.closed := by
  obtain ⟨l, e, hl, hname, has⟩ := openTag_eq_ok.1 h
  obtain ⟨front, hfront⟩ := upTo_of_attributes has
  have hle := (leads_of_expect hl).trans (leads_of_ident hname)
  rw [← hle.upTo_append (leads_of_attributes has), hfront]
  exact ⟨_, (List.append_assoc _ _ _).symm⟩

theorem tagEnd_eq_append (closed : Bool) : ∃ front, tagEnd closed = front ++ ['>'] := by
  cases closed with
  | true => exact ⟨['/'], rfl⟩
  | false => exact ⟨[], rfl⟩

end Cursor

/-! ## Names -/

namespace Fields

theorem openTag_eq_name (f : Fields) (closed : Bool) : ∃ x r,
    f.openTag closed = '<' :: (f.type.toList ++ x :: r) ∧ Token.isIdentRest x = false := by
  have hpiece : ∀ {a b : List Char}, (a = [] ∨ ∃ r, a = ' ' :: r) →
      (∃ x r, b = x :: r ∧ Token.isIdentRest x = false) →
      ∃ x r, a ++ b = x :: r ∧ Token.isIdentRest x = false := by
    rintro a b (rfl | ⟨r, rfl⟩) hb
    · exact hb
    · exact ⟨' ', _, rfl, by decide⟩
  have hend : ∃ x r, (if closed then " />".toList else ">".toList) = x :: r ∧
      Token.isIdentRest x = false := by
    cases closed with
    | true => exact ⟨_, _, rfl, by decide⟩
    | false => exact ⟨_, _, rfl, by decide⟩
  have hclass : f.classText = [] ∨ ∃ r, f.classText = ' ' :: r := by
    unfold classText
    split
    · exact .inl rfl
    · exact .inr ⟨_, rfl⟩
  have hstyle : f.styleText = [] ∨ ∃ r, f.styleText = ' ' :: r := by
    unfold styleText
    split
    · exact .inl rfl
    · exact .inr ⟨_, rfl⟩
  have hattributes : f.attributesText = [] ∨ ∃ r, f.attributesText = ' ' :: r := by
    unfold attributesText
    cases f.attributes.entries.filter fun e => !f.isSuperseded e.1 with
    | nil => exact .inl rfl
    | cons e es => exact .inr ⟨_, rfl⟩
  have hanimation : f.animationText = [] ∨ ∃ r, f.animationText = ' ' :: r := by
    unfold animationText
    split
    · exact .inl rfl
    · exact .inr ⟨_, rfl⟩
  obtain ⟨x, r, hbehind, hx⟩ :=
    hpiece hclass (hpiece hstyle (hpiece hattributes (hpiece hanimation hend)))
  refine ⟨x, r, ?_, hx⟩
  rw [openTag, ← hbehind]
  simp only [List.cons_append, List.append_assoc]

variable {f : Fields} {closed : Bool}

theorem name_of_openTag {c d : Cursor} {tag : OpenTag} {tail : List Char}
    (hname : Token.IsName f.type.toList) (hc : c.rest = f.openTag closed ++ tail)
    (hread : c.openTag = .ok (tag, d)) : tag.name = f.type := by
  obtain ⟨x, r, hopen, hx⟩ := f.openTag_eq_name closed
  obtain ⟨l, e, hl, hident, _⟩ := openTag_eq_ok.1 hread
  obtain ⟨hl, ht⟩ := expect_eq_ok.1 hl
  obtain ⟨n, hn, hnt, _⟩ := ident_eq_ok.1 hident
  have hrest := (rest_of_lex (next_eq_ok.1 hl)).2
  rw [hc, hopen, ht] at hrest
  have hnext : f.type.toList ++ (x :: (r ++ tail)) = l.next.rest := by
    simpa [Token.isSpace, Token.chars] using hrest
  obtain ⟨n', hn', hnt', _⟩ := next_of_token (t := .ident f.type) .tagName [] hname
    (by rintro _ ⟨⟩; exact hx) rfl hnext.symm
  cases hn.symm.trans hn'
  exact Token.ident.inj (hnt.symm.trans hnt')

end Fields

/-! ## Exact tags -/

namespace Fields

variable {f : Fields} {closed : Bool}

/-- The tag alone is read again, and the element has the same class, style and attributes. -/
def KeepsTag (f : Fields) (closed : Bool) : Prop :=
  ∃ p e, Page.read (String.ofList (f.tagAlone closed)) = .ok p ∧
    p.tree.root.children.head? = some e ∧ e.fields.className = f.className ∧
    e.fields.style = f.style ∧ e.fields.attributes = f.attributes

instance (f : Fields) (closed : Bool) : Decidable (f.KeepsTag closed) :=
  match h : Page.read (String.ofList (f.tagAlone closed)) with
  | .error _ => .isFalse fun ⟨_, _, hp, _⟩ => by cases h.symm.trans hp
  | .ok p =>
    match he : p.tree.root.children.head? with
    | none => .isFalse fun ⟨_, _, hp, he', _⟩ => by
      cases h.symm.trans hp
      cases he.symm.trans he'
    | some e =>
      decidable_of_iff (e.fields.className = f.className ∧ e.fields.style = f.style ∧
          e.fields.attributes = f.attributes)
        ⟨fun hsame => ⟨p, e, h, he, hsame⟩, fun ⟨_, _, hp, he', hsame⟩ => by
          cases h.symm.trans hp
          cases he.symm.trans he'
          exact hsame⟩

theorem openTag_eq_append (f : Fields) (closed : Bool) :
    ∃ front, f.openTag closed = front ++ ['>'] := by
  cases closed with
  | true => exact ⟨_, (List.append_assoc _ " /".toList ['>']).symm⟩
  | false => exact ⟨_, rfl⟩

theorem count_pos_of_suffix {a b front : List Char} (h : a ++ b = front ++ ['>']) (hb : b ≠ []) :
    0 < b.count '>' := by
  have hlast := congrArg List.getLast? h
  rw [List.getLast?_append_of_ne_nil a hb, List.getLast?_concat] at hlast
  exact List.count_pos_iff.2 (List.mem_of_getLast? hlast)

/-- A tag whose fields have all brackets of the printed one is read up to its end. What stands behind
it is left, or nothing if this has no bracket but at its own end. -/
theorem rest_of_openTag {c d : Cursor} {tag : OpenTag} {tail front : List Char}
    (hname : Token.IsName f.type.toList) (hanimation : f.animation = none)
    (hc : c.rest = f.openTag closed ++ tail) (hread : c.openTag = .ok (tag, d))
    (hfields : (ofTag tag.name tag.attributes).brackets = f.brackets)
    (htail : tail ≠ [] → tail = front ++ ['>'] ∧ '>' ∉ front) : d.rest = tail ∨ d.rest = [] := by
  have hprinted := count_openTag hname hanimation closed
  have hcount := brackets_of_openTag hread
  rw [hc, List.count_append] at hcount
  have hsplit := (leads_of_openTag hread).rest
  rw [hc] at hsplit
  obtain ⟨last, hlast⟩ := f.openTag_eq_append closed
  obtain ⟨body, hbody⟩ := upTo_of_openTag hread
  obtain ⟨slash, hslash⟩ := tagEnd_eq_append tag.closed
  have hlast' : c.upTo d = body ++ slash ++ ['>'] := by rw [hbody, hslash, List.append_assoc]
  rcases List.append_eq_append_iff.1 hsplit with ⟨a, hopen, hrest⟩ | ⟨a, hup, hrest⟩
  · -- less is read than was printed, and a bracket is left
    by_cases ha : a = []
    · exact .inl (by rw [hrest, ha, List.nil_append])
    · have hpos := count_pos_of_suffix (hopen ▸ hlast) ha
      rw [hrest, List.count_append] at hcount
      omega
  · by_cases ha : a = []
    · exact .inl (by rw [hrest, ha, List.nil_append])
    · -- more is read than was printed, and the only bracket is read
      have hpos := count_pos_of_suffix (hup ▸ hlast') ha
      obtain ⟨hfront, hnone⟩ := htail (by rw [hrest]; simp [ha])
      refine .inr (Decidable.byContradiction fun hd => ?_)
      have hmore := count_pos_of_suffix (hrest ▸ hfront) hd
      have hone : tail.count '>' = 1 := by
        rw [hfront, List.count_append, List.count_eq_zero_of_not_mem hnone]
        rfl
      rw [hrest, List.count_append] at hone
      omega

end Fields

/-! ## Tags that come back -/

theorem tag_of_readsElement {c after : Cursor} {m : Markup} (h : ReadsElement c m after)
    (imports : List Import) (g : IdSource) :
    ∃ tag d text, c.openTag = .ok (tag, d) ∧ d.Leads after ∧ (tag.closed = true → after = d) ∧
      (tag.closed = false → d.rest ≠ []) ∧
      (Node.ofMarkup imports g m).1.fields = { Fields.ofTag tag.name tag.attributes with text } := by
  have hnode : ∀ place name attributes held, ∃ text,
      (Node.ofMarkup imports g (.element place name attributes held)).1.fields =
        { Fields.ofTag name attributes with text } := by
    intro place name attributes held
    obtain ⟨text, _, h⟩ := exists_ofMarkup_element imports place name attributes g held
    exact ⟨text, by rw [h]; rfl⟩
  cases h with
  | closed htag hclosed =>
    obtain ⟨text, h⟩ := hnode (.solid (c.span after) (String.ofList (c.upTo after))) _ _ []
    exact ⟨_, _, text, htag, Leads.refl _, fun _ => rfl, fun hno => absurd (hno.symm.trans hclosed) (by decide), h⟩
  | element htag hclosed hheld hclose =>
    obtain ⟨text, h⟩ := hnode _ _ _ _
    obtain ⟨r, hr⟩ := hheld.slash
    exact ⟨_, _, text, htag, hheld.leads.trans (leads_of_closeTag hclose),
      fun hyes => absurd (hclosed.symm.trans hyes) (by decide), fun _ => hheld.leads.rest_ne_nil (hr ▸ List.cons_ne_nil _ _), h⟩

theorem elements_ne_ok_of_closeTag {c : Cursor} {r : List Char} {more : List Markup}
    (hc : c.rest = '<' :: '/' :: r) : c.elements false ≠ .ok more := by
  intro hmore
  have hskip := skipTrivia_of_less hc
  rcases elements_eq_ok hmore with rfl | ⟨m, _, _, _, rfl, _, hm, _⟩
  · exact elements_ne_nil (by rw [hskip]; exact hc) hmore
  · rw [hskip] at hm
    obtain ⟨_, _, _, htag, _⟩ := tag_of_readsElement hm [] (.ofKey "")
    exact openTag_ne_ok_of_slash hc htag

namespace Fields

variable {f : Fields} {closed : Bool}

theorem closeTag_eq_append (f : Fields) : f.closeTag = "</".toList ++ f.type.toList ++ ['>'] := rfl

/-- A close tag does not end as a tag that closes itself. -/
theorem tagAlone_ne_closed (hname : Token.IsName f.type.toList) (front : List Char) :
    f.tagAlone false ≠ front ++ tagEnd true := by
  intro hsame
  have hends : front ++ ['/'] ++ ['>'] =
      f.openTag false ++ "</".toList ++ f.type.toList ++ ['>'] := by
    rw [tagAlone, closeTag_eq_append] at hsame
    simpa [tagEnd] using hsame.symm
  have hne : f.type.toList ≠ [] := by
    obtain ⟨_, _, htype, _⟩ := hname
    rw [htype]
    exact List.cons_ne_nil _ _
  have hlast := congrArg List.getLast? (List.append_cancel_right hends)
  rw [List.getLast?_concat, List.getLast?_append_of_ne_nil _ hne] at hlast
  exact hname.notMem (by decide) (List.mem_of_getLast? hlast.symm)

/-- The tag is read up to its end, and it closes itself just if it was printed so. -/
theorem rest_of_tagAlone {c d after : Cursor} {tag : OpenTag} {more : List Markup}
    (hname : Token.IsName f.type.toList) (hanimation : f.animation = none)
    (hc : c.rest = f.tagAlone closed) (hread : c.openTag = .ok (tag, d))
    (hfields : (ofTag tag.name tag.attributes).brackets = f.brackets)
    (hafter : tag.closed = true → after = d) (hopen : tag.closed = false → d.rest ≠ [])
    (hmore : after.elements false = .ok more) :
    tag.closed = closed ∧ c.upTo d = f.openTag closed := by
  have htail : (if closed then [] else f.closeTag) ≠ [] →
      (if closed then [] else f.closeTag) = "</".toList ++ f.type.toList ++ ['>'] ∧
        '>' ∉ "</".toList ++ f.type.toList := by
    intro hne
    refine ⟨?_, ?_⟩
    · cases closed with
      | true => exact absurd rfl hne
      | false => exact f.closeTag_eq_append
    · rw [List.mem_append, not_or]
      exact ⟨by decide, hname.notMem (by decide)⟩
  have hrest := rest_of_openTag hname hanimation hc hread hfields htail
  have hup : d.rest = (if closed then [] else f.closeTag) → c.upTo d = f.openTag closed :=
    fun h => upTo_of_append (by rw [hc, h]; rfl)
  cases closed with
  | true =>
    have hnil : d.rest = [] := hrest.elim id id
    refine ⟨?_, hup hnil⟩
    cases hclosed : tag.closed with
    | true => rfl
    | false => exact absurd hnil (hopen hclosed)
  | false =>
    rcases hrest with hclose | hnil
    · refine ⟨?_, hup hclose⟩
      cases hclosed : tag.closed with
      | false => rfl
      | true =>
        obtain rfl := hafter hclosed
        exact absurd hmore (elements_ne_ok_of_closeTag hclose)
    · cases hclosed : tag.closed with
      | false => exact absurd hnil (hopen hclosed)
      | true =>
        obtain ⟨front, hfront⟩ := upTo_of_openTag hread
        have hall : c.upTo d = f.tagAlone false := upTo_of_append (by rw [hc, hnil, List.append_nil])
        rw [hall, hclosed] at hfront
        exact absurd hfront (tagAlone_ne_closed hname front)

theorem KeepsTag.isOpenTag (h : f.KeepsTag closed) (hname : Token.IsName f.type.toList)
    (hanimation : f.animation = none) :
    ∃ as, IsOpenTag ⟨f.type, as, closed⟩ (f.openTag closed) ∧
      (ofTag f.type as).className = f.className ∧ (ofTag f.type as).style = f.style ∧
      (ofTag f.type as).attributes = f.attributes := by
  obtain ⟨p, e, hp, he, hclass, hstyle, hattributes⟩ := h
  obtain ⟨x, r, hopen, _⟩ := f.openTag_eq_name closed
  have hsource : (String.ofList (f.tagAlone closed)).toList =
      '<' :: (f.type.toList ++ x :: r ++ if closed then [] else f.closeTag) := by
    rw [String.toList_ofList, tagAlone, hopen]
    rfl
  obtain ⟨imports, g, m, more, after, hm, hmore, rfl⟩ := Page.first_of_read hsource hp he
  rw [String.toList_ofList] at hsource hm
  obtain ⟨tag, d, text, htag, _, hafter, hheld, hfields⟩ := tag_of_readsElement hm imports g
  rw [hfields] at hclass hstyle hattributes
  have hrest : (ofText (f.tagAlone closed)).rest =
      f.openTag closed ++ if closed then [] else f.closeTag := rfl
  have hbrackets : (ofTag tag.name tag.attributes).brackets = f.brackets := by
    rw [brackets, brackets, ← hclass, ← hstyle, ← hattributes]
  obtain ⟨hclosed, hup⟩ :=
    rest_of_tagAlone hname hanimation hrest htag hbrackets hafter hheld hmore
  have hisOpen := isOpenTag_of_openTag (c := ofText (f.tagAlone closed)) hsource htag
  have hall : tag = ⟨f.type, tag.attributes, closed⟩ := by
    rw [← hclosed, ← name_of_openTag hname hrest htag]
  rw [hup, hall] at hisOpen
  rw [name_of_openTag hname hrest htag] at hclass hstyle hattributes
  exact ⟨tag.attributes, hisOpen, hclass, hstyle, hattributes⟩

end Fields

end PageEditor
