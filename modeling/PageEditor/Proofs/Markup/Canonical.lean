import PageEditor.Proofs.Markup.Layout
import PageEditor.Proofs.Markup.Styles
import PageEditor.Proofs.Markup.Written

/-!
# Canonical trees

Trees that are printed in such a way that nothing about them is lost. Of the fields of an element it
is asked that the class and the strings can stand between quotes as they are, that every attribute is
read under the name that it is written with, and that the style has keys and values of one token each.
Texts are trimmed and need no quoting, two texts are no neighbours, and a text that is all an element
holds is the element's own.
-/
set_option autoImplicit false

namespace PageEditor

/-! ## Fields -/

/-- A string that is printed between quotes as it is and read back as the same string. -/
structure Value.IsUnescaped (s : String) : Prop where
  quote : '"' ∉ s.toList
  escaped : Token.Escaped '"' s.toList

namespace Fields

/-- The names of attributes that are read as something else. -/
def reservedNames : List String := ["class", "className", "style", animationAttribute]

/-- Fields that are read as they are when they are printed in an open tag. -/
structure IsCanonical (f : Fields) : Prop where
  name : Token.IsName f.type.toList
  className : Value.IsUnescaped f.className
  style : Value.AreStyle f.style.entries
  names : ∀ e ∈ f.attributes.entries, Token.IsName e.1.toList ∧ e.1 ∉ reservedNames
  strings : ∀ e ∈ f.attributes.entries, Value.isExpression e.2 = false → Value.IsUnescaped e.2
  groups : ∀ e ∈ f.attributes.entries, Value.isExpression e.2 = true → IsGroup e.2.toList
  animation : f.animation = none

variable {f : Fields}

theorem IsCanonical.isRead (h : f.IsCanonical) : f.IsRead :=
  ⟨h.name, .inr h.className.escaped, fun e he => (h.names e he).1,
    fun e he hstring => .inr (h.strings e he hstring).escaped, fun e he _ => h.groups e he⟩

theorem IsCanonical.closes (h : f.IsCanonical) : f.Closes :=
  ⟨.inr (isGroup_styleGroup h.style), fun e he _ => h.groups e he⟩

/-! ## Reading them back -/

theorem writtenString_of_unescaped {s : String} (h : Value.IsUnescaped s) :
    Value.writtenString s = .literal s := by
  rw [Value.writtenString, if_neg (by simpa using h.quote)]

theorem take_written {name value : String} (hname : name ∉ reservedNames)
    (hstring : Value.isExpression value = false → Value.IsUnescaped value) (g : Fields) :
    g.take ⟨name, Value.written value⟩ = g.setAttribute name value := by
  simp only [reservedNames, List.mem_cons, List.not_mem_nil, or_false, not_or] at hname
  obtain ⟨hclass, hclassName, hstyle, hanimation⟩ := hname
  unfold Value.written
  by_cases hflag : value = Value.flag
  · rw [if_pos hflag, hflag]
    rfl
  rw [if_neg hflag]
  cases hexpression : Value.isExpression value with
  | true => simp [take, hstyle]
  | false =>
    have hnot : ¬ (name = "className" ∨ name = "class") := not_or.2 ⟨hclassName, hclass⟩
    simp [writtenString_of_unescaped (hstring hexpression), take, hnot, hanimation,
      Value.ofLiteral, hexpression]

theorem foldl_take_written {es : List (String × String)}
    (hnames : ∀ e ∈ es, e.1 ∉ reservedNames)
    (hstrings : ∀ e ∈ es, Value.isExpression e.2 = false → Value.IsUnescaped e.2) :
    ∀ g : Fields, (es.map fun e => (⟨e.1, Value.written e.2⟩ : Attribute)).foldl take g =
      { g with attributes := g.attributes.insertAll es } := by
  induction es with
  | nil => exact fun _ => rfl
  | cons e es ih =>
    intro g
    rw [List.map_cons, List.foldl_cons, take_written (hnames e List.mem_cons_self)
      (hstrings e List.mem_cons_self),
      ih (fun x hx => hnames x (List.mem_cons_of_mem e hx))
        fun x hx => hstrings x (List.mem_cons_of_mem e hx)]
    rfl

theorem isSuperseded_of_notMem {name : String} (h : name ∉ reservedNames) :
    f.isSuperseded name = false := by
  simp only [reservedNames, List.mem_cons, List.not_mem_nil, or_false, not_or] at h
  rw [isSuperseded, if_neg (not_or.2 ⟨h.2.1, h.1⟩), if_neg h.2.2.1]

theorem writtenAttributes_of_canonical (h : f.IsCanonical) :
    f.writtenAttributes = f.attributes.entries.map fun e => ⟨e.1, Value.written e.2⟩ := by
  rw [writtenAttributes, List.filter_eq_self.2]
  intro e he
  rw [isSuperseded_of_notMem (h.names e he).2]
  rfl

theorem foldl_writtenClass (h : f.IsCanonical) (g : Fields) (hg : g.className = "") :
    f.writtenClass.foldl take g = { g with className := f.className } := by
  unfold writtenClass
  split
  · rename_i hempty
    rw [hempty, ← hg]
    rfl
  · rw [writtenString_of_unescaped h.className]
    rfl

theorem foldl_writtenStyle (h : f.IsCanonical) (g : Fields) (hg : g.style = .empty) :
    f.writtenStyle.foldl take g = { g with style := f.style } := by
  unfold writtenStyle
  cases hempty : f.style.isEmpty with
  | true =>
    have hstyle : f.style = .empty := OrderedMap.ext (List.isEmpty_iff.1 hempty)
    rw [hstyle, ← hg]
    rfl
  | false =>
    have hstyle := styleObject?_styleGroup hempty h.style
    rw [OrderedMap.ofList_entries] at hstyle
    simp only [Bool.false_eq_true, if_false, List.foldl_cons, List.foldl_nil, take, if_true, hstyle]

/-- Canonical fields but for the text are what the printed open tag gives an element. -/
theorem ofTag_written (h : f.IsCanonical) : ofTag f.type f.written = { f with text := none } := by
  have hanimation : f.writtenAnimation = [] := by
    rw [writtenAnimation, h.animation]
    rfl
  rw [ofTag, written, hanimation, List.append_nil, List.foldl_append, List.foldl_append,
    foldl_writtenClass h _ rfl, foldl_writtenStyle h _ rfl, writtenAttributes_of_canonical h,
    foldl_take_written (fun e he => (h.names e he).2) h.strings]
  have hattributes : OrderedMap.insertAll .empty f.attributes.entries = f.attributes :=
    OrderedMap.ofList_entries f.attributes
  simp only [hattributes, ← h.animation]

end Fields

/-! ## Canonical trees -/

/-- A text that is printed as it is and read as it is between blanks. -/
structure Value.IsRun (s : String) : Prop where
  nonempty : s ≠ ""
  trimmed : Text.trim s.toList = s.toList
  plain : (s.toList.any fun c => c == '<' || c == '>' || c == '\x7b' || c == '\x7d') = false

theorem isPlain_of_unmarked {s : String}
    (h : (s.toList.any fun c => c == '<' || c == '>' || c == '\x7b' || c == '\x7d') = false) :
    IsPlain s.toList := by
  intro c hc
  have hchar := List.any_eq_false.1 h c hc
  simp only [Bool.or_eq_true, not_or, beq_iff_eq] at hchar
  simp [endsText, hchar]

theorem Value.IsRun.isPlain {s : String} (h : IsRun s) : IsPlain s.toList :=
  isPlain_of_unmarked h.plain

theorem Value.IsRun.trimmed? {s : String} (h : IsRun s) : Text.trimmed? s.toList = some s := by
  have hne : s.toList.isEmpty = false := by
    simpa using h.nonempty
  rw [Text.trimmed?, h.trimmed, hne, String.ofList_toList]
  rfl

theorem Value.IsRun.escapeText {s : String} (h : IsRun s) : escapeText s = s.toList := by
  rw [Value.escapeText, h.plain, if_neg (by decide)]

namespace Node

/-- No two texts are neighbours. -/
def Alternate : List Node → Prop
  | n :: m :: ns => ¬ (n.isText = true ∧ m.isText = true) ∧ Alternate (m :: ns)
  | _ => True

theorem Alternate.tail {n : Node} {ns : List Node} (h : Alternate (n :: ns)) : Alternate ns := by
  cases ns with
  | nil => trivial
  | cons => exact h.2

theorem Alternate.of_text {P : Prop} {n : Node} {ns : List Node} (h : Alternate (n :: ns))
    (hn : n.isText = true) : ∀ m ∈ ns.head?, m.isText = true → P := by
  intro m hm htext
  obtain ⟨more, rfl⟩ := List.head?_eq_some_iff.1 hm
  exact absurd ⟨hn, htext⟩ h.1

/-- What is asked of a node that is read back. An element has a text or children or neither, and its
only child is no text. -/
inductive IsCanonical (n : Node) : Prop
  | text (t : String) (hfields : n.fields = { type := textType, text := some t })
      (hchildren : n.children = []) (hrun : Value.IsRun t)
  | expression (e : String) (hfields : n.fields = { type := expressionType, text := some e })
      (hchildren : n.children = []) (hgroup : IsGroup n.group)
  | element (hfields : n.fields.IsCanonical)
      (htext : ∀ t, n.fields.text = some t → n.children = [] ∧ Value.IsRun t)
      (hlone : ∀ c, n.children = [c] → c.isText = false) (halternate : Alternate n.children)

mutual

/-- The node without its id, its place in a text and what its tag stands for. -/
def bare : Node → Node
  | ⟨_, fields, _, _, children⟩ => ⟨"", fields, none, none, bareAll children⟩

def bareAll : List Node → List Node
  | [] => []
  | n :: ns => n.bare :: bareAll ns

end

theorem bare_eq (n : Node) : n.bare = ⟨"", n.fields, none, none, bareAll n.children⟩ := by
  obtain ⟨id, fields, component, origin, children⟩ := n
  rw [bare]

theorem bareAll_eq_map (ns : List Node) : bareAll ns = ns.map bare := by
  induction ns with
  | nil => rfl
  | cons n ns ih => rw [bareAll, ih, List.map_cons]

end Node

/-- The root holds elements, and all nodes below it are canonical. -/
structure Tree.IsCanonical (t : Tree) : Prop where
  type : t.root.type = rootType
  elements : ∀ n ∈ t.root.children, n.isLeaf = false
  nodes : ∀ n ∈ Node.nodesAll t.root.children, n.IsCanonical

end PageEditor
