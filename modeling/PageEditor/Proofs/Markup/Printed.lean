import PageEditor.Proofs.Markup.Quoting

/-!
# Printed tags

An open tag that is printed from an element's fields is read as an open tag of that name, with the
attributes that the fields are written as (`Fields.written`). Strings are printed between quotes that
they do not have themselves or as a JSON string in braces; two things are printed as they are kept,
the style object and an animation that is no animation, and there it must be asked that their braces
close (`Fields.Closes`).
-/
set_option autoImplicit false

namespace PageEditor

open Cursor

/-! ## What is asked of the fields -/

namespace Fields

/-- The fields that an open tag can give. -/
structure IsRead (f : Fields) : Prop where
  name : Token.IsName f.type.toList
  className : Value.IsQuotable f.className
  names : ∀ e ∈ f.attributes.entries, Token.IsName e.1.toList
  strings : ∀ e ∈ f.attributes.entries, Value.isExpression e.2 = false → Value.IsQuotable e.2
  groups : ∀ e ∈ f.attributes.entries, e.1 ≠ animationAttribute →
    Value.isExpression e.2 = true → IsGroup e.2.toList

instance (f : Fields) : Decidable f.IsRead :=
  decidable_of_iff (Token.IsName f.type.toList ∧ Value.IsQuotable f.className ∧
    (∀ e ∈ f.attributes.entries, Token.IsName e.1.toList) ∧
    (∀ e ∈ f.attributes.entries, Value.isExpression e.2 = false → Value.IsQuotable e.2) ∧
    ∀ e ∈ f.attributes.entries, e.1 ≠ animationAttribute →
      Value.isExpression e.2 = true → IsGroup e.2.toList)
    ⟨fun h => ⟨h.1, h.2.1, h.2.2.1, h.2.2.2.1, h.2.2.2.2⟩,
      fun h => ⟨h.name, h.className, h.names, h.strings, h.groups⟩⟩

/-- The style object between its outer braces. -/
def styleGroup (f : Fields) : List Char :=
  "\x7b\x7b ".toList ++ Value.styleText f.style.entries ++ " \x7d\x7d".toList

/-- The style object ends with the brace that closes it, and so does an animation that is kept as an
expression. -/
structure Closes (f : Fields) : Prop where
  style : f.style.isEmpty = true ∨ IsGroup f.styleGroup
  animation : ∀ e ∈ f.attributes.entries, e.1 = animationAttribute →
    Value.isExpression e.2 = true → IsGroup e.2.toList

instance (f : Fields) : Decidable f.Closes :=
  decidable_of_iff ((f.style.isEmpty = true ∨ IsGroup f.styleGroup) ∧
    ∀ e ∈ f.attributes.entries, e.1 = animationAttribute →
      Value.isExpression e.2 = true → IsGroup e.2.toList)
    ⟨fun h => ⟨h.1, h.2⟩, fun h => ⟨h.style, h.animation⟩⟩

end Fields

/-! ## What is written -/

namespace Value

/-- What a string is read as that is printed between quotes or quoted in braces. -/
def writtenString (s : String) : AttributeValue :=
  if s.toList.contains '"' then .expression (quoted s) else .literal s

/-- What the value of an attribute is read as when it is printed. -/
def written (value : String) : AttributeValue :=
  if value = flag then .flag
  else if isExpression value then .expression value
  else writtenString value

end Value

namespace Fields

def writtenClass (f : Fields) : List Attribute :=
  if f.className = "" then [] else [⟨"className", Value.writtenString f.className⟩]

def writtenStyle (f : Fields) : List Attribute :=
  if f.style.isEmpty then [] else [⟨"style", .expression (String.ofList f.styleGroup)⟩]

def writtenAttributes (f : Fields) : List Attribute :=
  (f.attributes.entries.filter fun e => !f.isSuperseded e.1).map fun e =>
    ⟨e.1, Value.written e.2⟩

def writtenAnimation (f : Fields) : List Attribute :=
  f.animation.toList.map fun a =>
    ⟨animationAttribute, .literal (String.ofList (numberApostrophes a.toJson.compact))⟩

/-- The attributes that are printed in the open tag. -/
def written (f : Fields) : List Attribute :=
  f.writtenClass ++ (f.writtenStyle ++ (f.writtenAttributes ++ f.writtenAnimation))

end Fields

/-! ## Tokens that are written -/

theorem next_of_token {t : Token} {c : Cursor} {rest : List Char} (x : Expectation)
    (blanks : List Char) (ht : t.IsProper) (he : t.Ends rest)
    (hblanks : blanks.all Token.isSpace = true)
    (hc : c.rest = blanks ++ (t.chars ++ rest)) :
    ∃ l, c.next x = .ok l ∧ l.token = t ∧ l.next.rest = rest := by
  obtain ⟨s, hs⟩ := lex_append c.offset blanks hblanks ht he
  rw [← hc] at hs
  exact ⟨⟨t, s, _⟩, next_eq_ok.2 hs, rfl, rfl⟩

theorem peek?_of_token {t : Token} {c : Cursor} {rest : List Char} (blanks : List Char)
    (ht : t.IsProper) (he : t.Ends rest) (hblanks : blanks.all Token.isSpace = true)
    (hc : c.rest = blanks ++ (t.chars ++ rest)) :
    ∃ l, c.peek? = some l ∧ l.token = t ∧ l.next.rest = rest := by
  obtain ⟨s, hs⟩ := lex_append c.offset blanks hblanks ht he
  rw [← hc] at hs
  exact ⟨⟨t, s, _⟩, peek?_eq_some.2 hs, rfl, rfl⟩

/-! ## Attributes -/

/-- A text that is read as these attributes and the end of an open tag wherever it stands. -/
structure IsAttributes (as : List Attribute) (closed : Bool) (cs : List Char) : Prop where
  head : ∃ x r, cs = x :: r ∧ Token.isIdentRest x = false
  reads : ∀ (c : Cursor) (rest : List Char), c.rest = cs ++ rest →
    c.attributes = .ok (as, closed, c.advance cs.length)

theorem isAttributes_greater : IsAttributes [] false ">".toList := by
  refine ⟨⟨_, _, rfl, by decide⟩, ?_⟩
  intro c rest hc
  obtain ⟨l, hl, ht, hrest⟩ := next_of_token (t := .greater) .attributeOrEnd [] trivial
    trivial rfl hc
  rw [attributes_greater hl ht, (leads_of_next hl).eq_advance (by rw [hrest]; exact hc)]

theorem isAttributes_selfClose : IsAttributes [] true " />".toList := by
  refine ⟨⟨_, _, rfl, by decide⟩, ?_⟩
  intro c rest hc
  obtain ⟨l, hl, ht, hrest⟩ := next_of_token (t := .selfClose) .attributeOrEnd [' ']
    trivial trivial rfl hc
  rw [attributes_selfClose hl ht, (leads_of_next hl).eq_advance (by rw [hrest]; exact hc)]

section

variable {name : String} {as : List Attribute} {closed : Bool} {cs : List Char}

theorem IsAttributes.cons (h : IsAttributes as closed cs) (hname : Token.IsName name.toList)
    {v : AttributeValue} (value : List Char)
    (hhead : ∃ x r, value ++ cs = x :: r ∧ Token.isIdentRest x = false)
    (hvalue : ∀ (c : Cursor) (rest : List Char), c.rest = value ++ (cs ++ rest) →
      ∃ d, c.valueAfterName = .ok (v, d) ∧ d.rest = cs ++ rest) :
    IsAttributes (⟨name, v⟩ :: as) closed (' ' :: name.toList ++ value ++ cs) := by
  refine ⟨⟨_, _, rfl, by decide⟩, ?_⟩
  intro c rest hc
  have hends : (Token.ident name).Ends (value ++ (cs ++ rest)) := by
    obtain ⟨x, r, hxr, hx⟩ := hhead
    intro y hy
    rw [← List.append_assoc, hxr] at hy
    cases hy
    exact hx
  obtain ⟨l, hl, ht, hrest⟩ := next_of_token (t := .ident name) .attributeOrEnd [' ']
    hname hends rfl (by rw [hc]; simp [Token.chars])
  obtain ⟨d, hv, hd⟩ := hvalue l.next rest hrest
  have hall := attributes_ident hl ht hv (h.reads d rest hd)
  rw [hall, (leads_of_attributes hall).eq_advance]
  rw [advance_rest_append hd, hc]

theorem valueAfterName_of_equals {c : Cursor} {v : AttributeValue} {value rest : List Char}
    (hc : c.rest = '=' :: value ++ rest)
    (hvalue : ∀ d : Cursor, d.rest = value ++ rest →
      ∃ e, d.attributeValue = .ok (v, e) ∧ e.rest = rest) :
    ∃ e, c.valueAfterName = .ok (v, e) ∧ e.rest = rest := by
  obtain ⟨l, hl, ht, hrest⟩ := peek?_of_token (t := .equals) [] trivial trivial rfl hc
  obtain ⟨e, he, hrest'⟩ := hvalue l.next hrest
  exact ⟨e, (valueAfterName_equals hl ht).trans he, hrest'⟩

theorem IsAttributes.string (h : IsAttributes as closed cs) (hname : Token.IsName name.toList)
    (quote : Quote) {body : List Char} (hbody : Token.Escaped quote.char body) :
    IsAttributes (⟨name, .literal (String.ofList body)⟩ :: as) closed
      (' ' :: name.toList ++ '=' :: quote.char :: body ++ [quote.char] ++ cs) := by
  have hcons := h.cons hname (v := .literal (String.ofList body))
    ('=' :: (quote.char :: body ++ [quote.char])) ⟨_, _, rfl, by decide⟩ fun c rest hc => ?_
  · simpa using hcons
  refine valueAfterName_of_equals hc fun d hd => ?_
  have hproper : (Token.string quote (String.ofList body)).IsProper := by
    rw [Token.IsProper, String.toList_ofList]
    exact hbody
  have hchars : d.rest = (Token.string quote (String.ofList body)).chars ++ (cs ++ rest) := by
    rw [hd]
    simp [Token.chars]
  obtain ⟨l, hl, ht, hrest⟩ := peek?_of_token [] hproper trivial rfl hchars
  exact ⟨l.next, attributeValue_string hl ht, hrest⟩

theorem skipSpace_of_group {c : Cursor} {g rest : List Char} (hg : IsGroup g)
    (hc : c.rest = g ++ rest) : c.skipSpace = c := by
  cases g with
  | nil => cases hg.1
  | cons x r =>
    cases hg.1
    have htake : c.rest.takeWhile Token.isSpace = [] := by
      rw [hc]
      rfl
    rw [skipSpace, htake]
    exact advance_zero c

theorem IsAttributes.group (h : IsAttributes as closed cs) (hname : Token.IsName name.toList)
    {g : List Char} (hg : IsGroup g) :
    IsAttributes (⟨name, .expression (String.ofList g)⟩ :: as) closed
      (' ' :: name.toList ++ '=' :: g ++ cs) := by
  refine h.cons hname ('=' :: g) ⟨_, _, rfl, by decide⟩ fun c rest hc => ?_
  refine valueAfterName_of_equals hc fun d hd => ?_
  have hskip := skipSpace_of_group hg hd
  have hvalue := attributeValue_group hg (hskip.symm ▸ hd)
  exact ⟨_, hvalue, by rw [hskip, advance_rest_append hd]⟩

theorem IsAttributes.flag (h : IsAttributes as closed cs) (hname : Token.IsName name.toList) :
    IsAttributes (⟨name, .flag⟩ :: as) closed (' ' :: name.toList ++ cs) := by
  have hcons := h.cons hname [] h.head (v := .flag) fun c rest hc => ?_
  · simpa using hcons
  obtain ⟨l, hl, hne, _⟩ := next_of_attributes (h.reads c rest hc)
  exact ⟨c, valueAfterName_flag (peek?_eq_some.2 (next_eq_ok.1 hl)) hne, hc⟩

end

/-! ## Open tags -/

namespace Fields

variable {f : Fields} {as : List Attribute} {closed : Bool} {cs : List Char}

theorem isName_className : Token.IsName "className".toList := ⟨_, _, rfl, by decide, by decide⟩

theorem isName_style : Token.IsName "style".toList := ⟨_, _, rfl, by decide, by decide⟩

theorem isName_animation : Token.IsName animationAttribute.toList :=
  ⟨_, _, rfl, by decide, by decide⟩

theorem isAttributes_quote {name value : String} (h : IsAttributes as closed cs)
    (hname : Token.IsName name.toList) (hvalue : Value.IsQuotable value) :
    IsAttributes (⟨name, Value.writtenString value⟩ :: as) closed
      (' ' :: name.toList ++ '=' :: Value.quoteAttribute value ++ cs) := by
  unfold Value.quoteAttribute Value.writtenString
  split
  · have hgroup := h.group hname (Value.isGroup_quoted value)
    rwa [String.ofList_toList] at hgroup
  · rename_i hno
    have hescaped := hvalue.resolve_left (by simpa using hno)
    have hstring := h.string hname .double hescaped
    simpa [Quote.char] using hstring

theorem isAttributes_class (hf : f.IsRead) (h : IsAttributes as closed cs) :
    IsAttributes (f.writtenClass ++ as) closed (f.classText ++ cs) := by
  unfold classText writtenClass
  split
  · exact h
  · exact isAttributes_quote h isName_className hf.className

theorem isAttributes_style (hf : f.Closes) (h : IsAttributes as closed cs) :
    IsAttributes (f.writtenStyle ++ as) closed (f.styleText ++ cs) := by
  unfold styleText writtenStyle
  split
  · exact h
  · rename_i hempty
    have hgroup := h.group isName_style (hf.style.resolve_left hempty)
    have hopen : " style=\x7b\x7b ".toList = ' ' :: "style".toList ++ '=' :: "\x7b\x7b ".toList := rfl
    rw [hopen]
    simp only [styleGroup, List.append_assoc, List.cons_append] at hgroup ⊢
    exact hgroup

theorem isAttributes_attribute (hread : f.IsRead) (hf : f.Closes) {e : String × String}
    (he : e ∈ f.attributes.entries) (h : IsAttributes as closed cs) :
    IsAttributes (⟨e.1, Value.written e.2⟩ :: as) closed
      (' ' :: e.1.toList ++ Value.attributeText e.2 ++ cs) := by
  have hname := hread.names e he
  unfold Value.attributeText Value.written
  by_cases hflag : e.2 = Value.flag
  · rw [if_pos hflag, if_pos hflag, List.append_nil]
    exact h.flag hname
  rw [if_neg hflag, if_neg hflag]
  cases hexpression : Value.isExpression e.2 with
  | false => exact isAttributes_quote h hname (hread.strings e he hexpression)
  | true =>
    have hclosed : IsGroup e.2.toList := by
      by_cases hanimation : e.1 = animationAttribute
      · exact hf.animation e he hanimation hexpression
      · exact hread.groups e he hanimation hexpression
    have hgroup := h.group hname hclosed
    rwa [String.ofList_toList] at hgroup

theorem isAttributes_attributes (hread : f.IsRead) (hf : f.Closes) (h : IsAttributes as closed cs) :
    IsAttributes (f.writtenAttributes ++ as) closed (f.attributesText ++ cs) := by
  suffices hall : ∀ es : List (String × String), (∀ e ∈ es, e ∈ f.attributes.entries) →
      IsAttributes (es.map (fun e => ⟨e.1, Value.written e.2⟩) ++ as) closed
        (es.flatMap (fun e => ' ' :: e.1.toList ++ Value.attributeText e.2) ++ cs) from
    hall _ fun e he => (List.mem_filter.1 he).1
  intro es
  induction es with
  | nil => exact fun _ => h
  | cons e es ih =>
    intro hes
    rw [List.flatMap_cons, List.append_assoc]
    exact isAttributes_attribute hread hf (hes e List.mem_cons_self)
      (ih fun x hx => hes x (List.mem_cons_of_mem e hx))

theorem isAttributes_animation (f : Fields) (h : IsAttributes as closed cs) :
    IsAttributes (f.writtenAnimation ++ as) closed (f.animationText ++ cs) := by
  unfold animationText writtenAnimation
  cases f.animation with
  | none => exact h
  | some a =>
    have hstring := h.string isName_animation .single (escaped_compact a.toJson)
    have hopen : "='".toList = ['=', '\''] := rfl
    have hclose : "'".toList = ['\''] := rfl
    simp only [hopen, hclose]
    simp only [numberApostrophes, Quote.char, List.append_assoc, List.cons_append,
      List.nil_append] at hstring ⊢
    exact hstring

theorem isAttributes_end (closed : Bool) :
    IsAttributes [] closed (if closed then " />".toList else ">".toList) := by
  cases closed with
  | false => exact isAttributes_greater
  | true => exact isAttributes_selfClose

theorem isOpenTag_of_isAttributes {name : String} (hname : Token.IsName name.toList)
    (h : IsAttributes as closed cs) :
    IsOpenTag ⟨name, as, closed⟩ ('<' :: name.toList ++ cs) := by
  refine ⟨⟨_, rfl⟩, ?_⟩
  intro c rest hc
  have hless : Token.less.Ends (name.toList ++ (cs ++ rest)) := by
    obtain ⟨x, r, hxr, hx, _⟩ := hname
    rw [hxr]
    exact fun hslash => Token.isIdentStart_ne hx (by decide) (Option.some.inj hslash)
  have hends : (Token.ident name).Ends (cs ++ rest) := by
    obtain ⟨x, r, rfl, hx⟩ := h.head
    intro y hy
    cases hy
    exact hx
  obtain ⟨l, hl, ht, hrest⟩ := next_of_token (t := .less) .less [] trivial hless rfl
    (by rw [hc]; simp [Token.chars])
  obtain ⟨n, hn, hnt, hnrest⟩ := next_of_token (t := .ident name) .tagName [] hname
    hends rfl hrest
  have htag : c.openTag = .ok (⟨name, as, closed⟩, n.next.advance cs.length) :=
    openTag_eq_ok.2 ⟨l, n.next, expect_eq_ok.2 ⟨hl, ht⟩, ident_eq_ok.2 ⟨n, hn, hnt, rfl⟩,
      h.reads n.next rest hnrest⟩
  rw [htag, (leads_of_openTag htag).eq_advance]
  rw [advance_rest_append hnrest, hc]

/-- A printed open tag is read as one, with all its attributes. -/
theorem isOpenTag_openTag (hread : f.IsRead) (hf : f.Closes) (closed : Bool) :
    IsOpenTag ⟨f.type, f.written, closed⟩ (f.openTag closed) := by
  have hanimation := isAttributes_animation f (isAttributes_end closed)
  have hattributes := isAttributes_class hread
    (isAttributes_style hf (isAttributes_attributes hread hf hanimation))
  have htag := isOpenTag_of_isAttributes hread.name hattributes
  rw [List.append_nil] at htag
  simpa [openTag, written] using htag

theorem isCloseTag_closeTag (hname : Token.IsName f.type.toList) :
    IsCloseTag f.type f.closeTag := by
  refine ⟨⟨_, rfl⟩, ?_⟩
  intro c rest hc
  have hends : (Token.ident f.type).Ends ('>' :: rest) := by
    intro x hx
    cases hx
    decide
  obtain ⟨l, hl, ht, hrest⟩ := next_of_token (t := .closeTagOpen) .less [] trivial
    trivial rfl hc
  obtain ⟨n, hn, hnt, hnrest⟩ := next_of_token (t := .ident f.type) .closingTagName []
    hname hends rfl (by rw [hrest]; simp [Token.chars])
  obtain ⟨g, hg, hgt, hgrest⟩ := next_of_token (t := .greater) .greater [] trivial
    trivial rfl hnrest
  have hclose := closeTag_eq_ok.2 ⟨l, n, g, expect_eq_ok.2 ⟨hl, ht⟩, hn, hnt,
    expect_eq_ok.2 ⟨hg, hgt⟩, rfl⟩
  rw [hclose, (leads_of_closeTag hclose).eq_advance]
  rw [hgrest, hc]

end Fields

end PageEditor
