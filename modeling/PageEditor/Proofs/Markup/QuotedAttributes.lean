import PageEditor.Proofs.Markup.ExactTags
import PageEditor.Proofs.Markup.Reprinted

/-!
# Quoted attributes

How an open tag is spelled, token by token, and what becomes of a string that it gives to an attribute.
The last attribute of a name counts. When it is a string between quotes, the element keeps a value that
means this string, and so does what is printed of the value. One attribute is kept as it is, though it
may look like an expression: an animation that is none.
-/
set_option autoImplicit false

namespace PageEditor

open Cursor

/-! ## Spelling -/

/-- The token stands there behind blanks. -/
def Token.Spelled (t : Token) (cs : List Char) : Prop :=
  t.IsProper ∧ ∃ blanks, blanks.all Token.isSpace = true ∧ cs = blanks ++ t.chars

/-- What stands behind the name of an attribute: nothing, or an equals sign and a string between two
quotes of one kind or a group. -/
inductive AttributeValue.Spelled : AttributeValue → List Char → Prop
  | flag : Spelled .flag []
  | literal {quote : Quote} {body : String} {equals string : List Char}
      (hequals : Token.equals.Spelled equals) (hstring : (Token.string quote body).Spelled string) :
      Spelled (.literal body) (equals ++ string)
  | expression {equals blanks group : List Char} (hequals : Token.equals.Spelled equals)
      (hblanks : blanks.all Token.isSpace = true) (hgroup : IsGroup group) :
      Spelled (.expression (String.ofList group)) (equals ++ (blanks ++ group))

/-- What stands between the name of a tag and its end. -/
inductive SpelledAttributes : List Attribute → List Char → Prop
  | nil : SpelledAttributes [] []
  | cons {a : Attribute} {as : List Attribute} {name value more : List Char}
      (hname : (Token.ident a.name).Spelled name) (hvalue : a.value.Spelled value)
      (hmore : SpelledAttributes as more) : SpelledAttributes (a :: as) (name ++ (value ++ more))

/-- The text is the tag, from its bracket to what ends it. -/
def OpenTag.Spelled (tag : OpenTag) (cs : List Char) : Prop :=
  ∃ less name attributes last, cs = less ++ (name ++ (attributes ++ last)) ∧
    Token.less.Spelled less ∧ (Token.ident tag.name).Spelled name ∧
    SpelledAttributes tag.attributes attributes ∧
    (if tag.closed then Token.selfClose else Token.greater).Spelled last

section Spelling

variable {c d : Cursor} {l : Lexeme}

theorem spelled_of_lex {t : Token} {s : Span} (h : c.lex = .token t s d)
    (hn : ∀ ds, t ≠ .number ds) : t.Spelled (c.upTo d) := by
  obtain ⟨hproper, _, hblanks⟩ := isProper_of_lex h hn
  exact ⟨hproper, hblanks⟩

theorem spelled_of_next {e : Expectation} {t : Token} (h : c.next e = .ok l) (ht : l.token = t)
    (hn : ∀ ds, t ≠ .number ds) : t.Spelled (c.upTo l.next) := by
  subst ht
  exact spelled_of_lex (next_eq_ok.1 h) hn

theorem spelled_of_attributeValue {v : AttributeValue} {equals : List Char}
    (hequals : Token.equals.Spelled equals) (h : c.attributeValue = .ok (v, d)) :
    v.Spelled (equals ++ c.upTo d) := by
  simp only [attributeValue] at h
  split at h
  · cases h
  rename_i l hl
  have hlex := peek?_eq_some.1 hl
  split at h
  · rename_i quote body ht
    cases h
    rw [ht] at hlex
    exact .literal hequals (spelled_of_lex hlex (by rintro _ ⟨⟩))
  · rename_i ht
    obtain ⟨_, hbraced, h⟩ := bind_eq_ok.1 h
    cases h
    rw [ht] at hlex
    have hgroup := isGroup_of_braced (skipSpace_of_lex hlex (by rintro _ ⟨⟩)) hbraced
    rw [← (leads_skipSpace c).upTo_append (leads_of_braced hbraced)]
    have hblanks : (c.upTo c.skipSpace).all Token.isSpace = true := by
      rw [skipSpace, upTo_advance_takeWhile]
      exact List.all_takeWhile
    exact .expression hequals hblanks hgroup
  · cases h

theorem spelled_of_valueAfterName {v : AttributeValue} (h : c.valueAfterName = .ok (v, d)) :
    v.Spelled (c.upTo d) := by
  simp only [valueAfterName] at h
  split at h
  · rename_i l hl
    split at h
    · rename_i ht
      have hlex := peek?_eq_some.1 hl
      rw [ht] at hlex
      rw [← (leads_of_peek? hl).upTo_append (leads_of_attributeValue h)]
      exact spelled_of_attributeValue (spelled_of_lex hlex (by rintro _ ⟨⟩)) h
    · cases h
      rw [upTo_self]
      exact .flag
  · cases h
    rw [upTo_self]
    exact .flag

theorem spelled_of_attributes {as : List Attribute} {closed : Bool}
    (h : c.attributes = .ok (as, closed, d)) :
    ∃ attributes last, c.upTo d = attributes ++ last ∧ SpelledAttributes as attributes ∧
      (if closed then Token.selfClose else Token.greater).Spelled last := by
  fun_induction attributes c generalizing as closed d with
  | case1 => cases h
  | case2 c l hl ht =>
    cases h
    exact ⟨[], _, rfl, .nil, spelled_of_next hl ht (by rintro _ ⟨⟩)⟩
  | case3 c l hl ht =>
    cases h
    exact ⟨[], _, rfl, .nil, spelled_of_next hl ht (by rintro _ ⟨⟩)⟩
  | case4 => cases h
  | case5 => cases h
  | case6 c l hl name ht v e hv more closed' f hd ih =>
    cases h
    obtain ⟨attributes, last, hup, hmore, hlast⟩ := ih hd
    refine ⟨_, last, ?_, .cons (a := ⟨name, v⟩) (spelled_of_next hl ht (by rintro _ ⟨⟩))
      (spelled_of_valueAfterName hv) hmore, hlast⟩
    rw [← (leads_of_next hl).upTo_append ((leads_of_valueAfterName hv).trans (leads_of_attributes hd)),
      ← (leads_of_valueAfterName hv).upTo_append (leads_of_attributes hd), hup]
    simp only [List.append_assoc]
  | case7 => cases h
  | case8 => cases h

theorem spelled_of_openTag {tag : OpenTag} (h : c.openTag = .ok (tag, d)) :
    tag.Spelled (c.upTo d) := by
  obtain ⟨l, e, hl, hname, has⟩ := openTag_eq_ok.1 h
  obtain ⟨hless, ht⟩ := expect_eq_ok.1 hl
  obtain ⟨n, hn, hident, rfl⟩ := ident_eq_ok.1 hname
  obtain ⟨attributes, last, hup, hattributes, hlast⟩ := spelled_of_attributes has
  refine ⟨_, _, attributes, last, ?_, spelled_of_next hless ht (by rintro _ ⟨⟩),
    spelled_of_next hn hident (by rintro _ ⟨⟩), hattributes, hlast⟩
  rw [← hup, (leads_of_next hn).upTo_append (leads_of_attributes has),
    (leads_of_next hless).upTo_append ((leads_of_next hn).trans (leads_of_attributes has))]

end Spelling

/-! ## Tags of elements -/

/-- The last attribute of that name. -/
def OpenTag.last? (tag : OpenTag) (name : String) : Option AttributeValue :=
  (tag.attributes.reverse.find? fun a => a.name == name).map Attribute.value

theorem OpenTag.exists_last {tag : OpenTag} {name : String} {value : AttributeValue}
    (h : tag.last? name = some value) :
    ∃ front back, tag.attributes = front ++ ⟨name, value⟩ :: back ∧ ∀ a ∈ back, a.name ≠ name := by
  obtain ⟨⟨name', value'⟩, hfind, rfl⟩ := Option.map_eq_some_iff.1 h
  obtain ⟨hname, back, front, hsplit, hback⟩ := List.find?_eq_some_iff_append.1 hfind
  obtain rfl : name' = name := beq_iff_eq.1 hname
  refine ⟨front.reverse, back.reverse, ?_, fun a ha hname => ?_⟩
  · rw [← List.reverse_reverse tag.attributes, hsplit]
    simp
  · have hno := hback a (List.mem_reverse.1 ha)
    simp [hname] at hno

/-- The text of the element starts with the tag, which is read and spelled there. -/
structure Node.OpensWith (n : Node) (tag : OpenTag) (cs : List Char) : Prop where
  reads : IsOpenTag tag cs
  spelled : tag.Spelled cs
  stands : ∃ o rest, n.origin = some o ∧ o.place.fragment.toList = cs ++ rest

/-- The tag at the start of the element's text. -/
def Node.readTag? (n : Node) : Option OpenTag :=
  n.origin.bind fun o =>
    (ofText o.place.fragment.toList).openTag.toOption.map Prod.fst

/-- Every element of a page starts with the tag that gave it its fields. -/
theorem opensWith_of_read {source key : String} {p : Page} {n : Node}
    (hp : Page.read source key = .ok p) (hn : n ∈ Node.nodesAll p.tree.root.children)
    (hleaf : n.isLeaf = false) :
    ∃ tag cs, n.OpensWith tag cs ∧ n.fields.IsRead ∧
      Fields.ofTag tag.name tag.attributes = { n.fields with text := none } := by
  obtain ⟨g, m, s, e, rfl, hm⟩ := isMade_of_read hp n hn
  cases hm with
  | text => cases hleaf
  | expression => cases hleaf
  | element _ hr hm =>
    obtain ⟨tag, d, text, htag, hbehind, _, _, hfields⟩ := tag_of_readsElement hm p.imports g
    have hfragment : m.place.fragment = String.ofList (s.upTo e) := by cases hm <;> rfl
    refine ⟨tag, s.upTo d, ⟨isOpenTag_of_openTag hr htag, spelled_of_openTag htag,
      _, d.upTo e, isFresh_ofMarkup p.imports g m, ?_⟩, ?_, ?_⟩
    · rw [hfragment, String.toList_ofList, (leads_of_openTag htag).upTo_append hbehind]
    · rw [hfields]
      exact (Fields.isRead_ofTag htag).withText text
    · rw [hfields, ← Fields.ofTag_text tag.name tag.attributes]

theorem Node.OpensWith.readTag? {n : Node} {tag : OpenTag} {cs : List Char}
    (h : n.OpensWith tag cs) : n.readTag? = some tag := by
  obtain ⟨o, rest, ho, hfragment⟩ := h.stands
  rw [Node.readTag?, ho, Option.bind_some, hfragment, h.reads.reads (ofText (cs ++ rest)) rest rfl]
  rfl

/-! ## Strings between quotes -/

namespace Fields

/-- The last attribute of a name counts. -/
theorem literal?_ofTag_last {tag : OpenTag} {name body : String}
    (hlast : tag.last? name = some (.literal body)) (hname : name ∉ fieldNames)
    (hsettings : name = animationAttribute → Animation.ofText? body = none) :
    (ofTag tag.name tag.attributes).attributes.get? name =
      some (if name = animationAttribute then body else Value.ofLiteral body) := by
  obtain ⟨front, back, hattributes, hback⟩ := OpenTag.exists_last hlast
  rw [ofTag, hattributes, List.foldl_append, List.foldl_cons, get?_foldl_take hback,
    take_literal hname hsettings, setAttribute, OrderedMap.get?_insert, if_pos rfl]

end Fields

/-- In every page that was read, the last attribute of a name that is a string between quotes means
this string, but for a class and a style, which are no attributes, and for settings. Only a string in
the place of settings can mean something else: one whose braces hold a JSON string, a number or a truth
value. What an attribute means is what it means when it is read from the printed tag, as far as the
braces of the tag close and its settings are read as settings. -/
theorem literal?_of_read {source key : String} {p : Page} {n : Node}
    (hp : Page.read source key = .ok p) (hn : n ∈ Node.nodesAll p.tree.root.children)
    (hleaf : n.isLeaf = false) :
    ∃ tag cs, n.OpensWith tag cs ∧ ∀ name body, tag.last? name = some (.literal body) →
      name ∉ Fields.fieldNames → (name = animationAttribute → Animation.ofText? body = none) →
      (n.fields.literal? name = some body ↔
        ¬ (name = animationAttribute ∧ Value.IsBracedScalar body)) ∧
      (n.fields.Closes → (name = animationAttribute → n.fields.KeepsSettings) → ∀ closed key',
        ∃ q m, Page.read (String.ofList (n.fields.tagAlone closed)) key' = .ok q ∧
          q.tree.root.children = [m] ∧ m.fields.literal? name = n.fields.literal? name) := by
  obtain ⟨tag, cs, hopens, hread, hfields⟩ := opensWith_of_read hp hn hleaf
  refine ⟨tag, cs, hopens, fun name body hlast hname hsettings => ?_⟩
  have hvalue : n.fields.attributes.get? name =
      some (if name = animationAttribute then body else Value.ofLiteral body) := by
    rw [← Fields.literal?_ofTag_last hlast hname hsettings, hfields]
  refine ⟨?_, fun hcloses hkeeps closed key' => ?_⟩
  · rw [Fields.literal?, hvalue, Option.map_some, Option.some.injEq]
    split
    · rename_i hanimation
      simp only [hanimation, true_and]
      exact Value.literal_eq_self_iff
    · rename_i hanimation
      simp only [hanimation, false_and, not_false_eq_true, iff_true]
      exact Value.literal_ofLiteral body
  · obtain ⟨q, m, hq, hroot, hm⟩ := Fields.read_tagAlone hread hcloses closed key'
    refine ⟨q, m, hq, hroot, ?_⟩
    have hprinted := Fields.literal?_ofTag_written hname hvalue fun hanimation =>
      ⟨hkeeps hanimation, fun _ => by rw [if_pos hanimation]; exact hsettings hanimation⟩
    calc m.fields.literal? name
        = (Fields.ofTag n.fields.type n.fields.written).literal? name := by rw [hm]; rfl
      _ = n.fields.literal? name := by rw [hprinted, Fields.literal?, hvalue, Option.map_some]

/-- A name that is given twice, a string with quotes, strings that look like expressions. -/
def quotedPage : String :=
  "<main><p title='\x7b\"a\"\x7d' alt='say \"hi\"' title='\x7buser\x7d' data-animation='\x7b1 + 2\x7d'/></main>"

def quotedStrings : List (String × String) :=
  [("title", "\x7buser\x7d"), ("alt", "say \"hi\""), ("data-animation", "\x7b1 + 2\x7d")]

/-- What the theorem asks of an element and a string that it gives to an attribute. -/
def Node.GivesString (n : Node) (name body : String) : Prop :=
  n.isLeaf = false ∧ n.readTag?.any (fun tag => tag.last? name == some (.literal body)) = true ∧
    name ∉ Fields.fieldNames ∧ (name = animationAttribute → Animation.ofText? body = none)

instance (n : Node) (name body : String) : Decidable (n.GivesString name body) :=
  inferInstanceAs (Decidable (_ ∧ _))

theorem Node.GivesString.last? {n : Node} {name body : String} (h : n.GivesString name body)
    {tag : OpenTag} {cs : List Char} (hopens : n.OpensWith tag cs) :
    tag.last? name = some (.literal body) := by
  have hany := h.2.1
  rw [hopens.readTag?] at hany
  exact beq_iff_eq.1 hany

theorem literal?_quotedPage : ∃ p n, Page.read quotedPage = .ok p ∧
    n ∈ Node.nodesAll p.tree.root.children ∧ ∀ x ∈ quotedStrings, n.GivesString x.1 x.2 ∧
      n.fields.literal? x.1 = some x.2 ∧ ∀ closed, ∃ q m,
        Page.read (String.ofList (n.fields.tagAlone closed)) = .ok q ∧
          q.tree.root.children = [m] ∧ m.fields.literal? x.1 = some x.2 := by
  have hpage : (Page.read quotedPage).toOption.any (fun p =>
      (Node.nodesAll p.tree.root.children).any fun n =>
        decide (n.fields.Closes ∧ n.fields.KeepsSettings ∧ ∀ x ∈ quotedStrings,
          n.GivesString x.1 x.2 ∧ ¬ Value.IsBracedScalar x.2)) = true := by decide +kernel
  obtain ⟨p, n, hp, hn, hall⟩ := Page.exists_of_any hpage
  obtain ⟨hcloses, hkeeps, hstrings⟩ := of_decide_eq_true hall
  refine ⟨p, n, hp, hn, fun x hx => ?_⟩
  obtain ⟨hgives, hscalar⟩ := hstrings x hx
  obtain ⟨tag, cs, hopens, hmeans⟩ := literal?_of_read hp hn hgives.1
  obtain ⟨hliteral, hprinted⟩ := hmeans x.1 x.2 (hgives.last? hopens) hgives.2.2.1 hgives.2.2.2
  have hself := hliteral.2 fun h => hscalar h.2
  exact ⟨hgives, hself, fun closed =>
    hself ▸ hprinted hcloses (fun _ => hkeeps) closed Tree.defaultKey⟩

/-- Pages with one element, the name of an attribute and the string it is given: two strings in the place
of settings that mean something else, and a string beside a key with a quote in it and beside braces
that do not close, with which the printed tag is no tag. -/
def spoiled : List (String × String × String) :=
  [("<p data-animation='\x7b\"a\"\x7d'/>", "data-animation", "\x7b\"a\"\x7d"),
    ("<p data-animation='\x7b 24 \x7d'/>", "data-animation", "\x7b 24 \x7d"),
    ("<p style=\x7b\x7b'a\"b': 1\x7d\x7d title=\"x\"/>", "title", "x"),
    ("<p title=\"x\" data-animation='\x7b\"\x7d'/>", "title", "x")]

theorem not_literal?_spoiled :
    spoiled ≠ [] ∧ ∀ x ∈ spoiled, ∃ p n tag cs, Page.read x.1 = .ok p ∧
      n ∈ Node.nodesAll p.tree.root.children ∧ n.isLeaf = false ∧ n.OpensWith tag cs ∧
      tag.last? x.2.1 = some (.literal x.2.2) ∧ x.2.1 ∉ Fields.fieldNames ∧
      (x.2.1 = animationAttribute → Animation.ofText? x.2.2 = none) ∧
      (n.fields.literal? x.2.1 ≠ some x.2.2 ∨
        (Page.read (String.ofList (n.fields.tagAlone true))).isOk = false) := by
  have hlost : ∀ x ∈ spoiled, (Page.read x.1).toOption.any (fun p =>
      (Node.nodesAll p.tree.root.children).any fun n =>
        decide (n.GivesString x.2.1 x.2.2 ∧ (n.fields.literal? x.2.1 ≠ some x.2.2 ∨
          (Page.read (String.ofList (n.fields.tagAlone true))).isOk = false))) = true := by
    decide +kernel
  refine ⟨List.cons_ne_nil _ _, fun x hx => ?_⟩
  obtain ⟨p, n, hp, hn, hno⟩ := Page.exists_of_any (hlost x hx)
  obtain ⟨hgives, hother⟩ := of_decide_eq_true hno
  obtain ⟨tag, cs, hopens, _⟩ := opensWith_of_read hp hn hgives.1
  exact ⟨p, n, tag, cs, hp, hn, hgives.1, hopens, hgives.last? hopens, hgives.2.2.1, hgives.2.2.2,
    hother⟩

end PageEditor
