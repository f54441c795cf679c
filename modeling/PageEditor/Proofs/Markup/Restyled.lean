import PageEditor.Proofs.Markup.ExactStyles
import PageEditor.Proofs.Markup.ReadPages
import PageEditor.Proofs.Markup.RoundTrip

/-!
# Styles of reprinted tags

The open tag of an element that was read is printed anew and closed, by itself or by a close tag with
nothing in front of it. When its braces close it is a page with this one element, and the element has
the same style just if every key and every value of the style is printed as one token. The braces of
such a style close.
-/
set_option autoImplicit false

namespace PageEditor

open Cursor

/-! ## Tags alone -/

namespace Fields

/-- The open tag by itself, or with the close tag right behind it. -/
def tagAlone (f : Fields) (closed : Bool) : List Char :=
  f.openTag closed ++ if closed then [] else f.closeTag

/-- What the printed open tag gives an element. -/
def reprinted (f : Fields) : Fields := { ofTag f.type f.written with text := none }

variable {f : Fields}

theorem gives_reprinted (place : Place) {ms : List Markup} (hms : GivesAll ms []) :
    (Markup.element place f.type f.written ms).Gives { id := "", fields := f.reprinted } := by
  have hsame : f.reprinted = ofTag f.type f.written := by
    rw [reprinted, ← ofTag_text f.type f.written]
  rw [hsame]
  exact gives_held place f.type f.written (by rintro _ ⟨⟩) hms

theorem isElementOf_tagAlone (hread : f.IsRead) (hcloses : f.Closes) (closed : Bool) :
    IsElementOf { id := "", fields := f.reprinted } (f.tagAlone closed) := by
  have htag := isOpenTag_openTag hread hcloses closed
  refine ⟨?_, fun c rest hc => ?_⟩
  · obtain ⟨r, hr⟩ := htag.head
    exact ⟨_, by rw [tagAlone, hr]; rfl⟩
  cases closed with
  | true =>
    have hall : f.tagAlone true = f.openTag true := List.append_nil _
    rw [hall] at hc ⊢
    exact ⟨_, .closed (htag.reads c rest hc) rfl, gives_reprinted _ givesAll_nil⟩
  | false =>
    have hclose := isCloseTag_closeTag hread.name
    have hall : f.tagAlone false = f.openTag false ++ [] ++ f.closeTag := by simp [tagAlone]
    have hparts : c.rest = f.openTag false ++ ([] ++ (f.closeTag ++ rest)) := by
      rw [hc, hall]
      simp
    obtain ⟨r, hr⟩ := hclose.head
    have hinner := advance_rest_append hparts
    rw [hr] at hinner
    have hnothing : Holds [] [] := holds_plain (by rintro _ ⟨⟩)
    obtain ⟨ms, hheld, hms⟩ := hnothing _ _ hinner
    have hopen := htag.reads c _ hparts
    obtain ⟨place, helement⟩ := readsElement_of_parts hparts hopen rfl hheld hclose
    rw [hall]
    exact ⟨_, helement, gives_reprinted place hms⟩

theorem read_tagAlone (hread : f.IsRead) (hcloses : f.Closes) (closed : Bool) (key : String) :
    ∃ q m, Page.read (String.ofList (f.tagAlone closed)) key = .ok q ∧
      q.tree.root.children = [m] ∧ m.fields = f.reprinted := by
  obtain ⟨q, m, hq, hroot, hbare⟩ :=
    read_of_isElementOf (isElementOf_tagAlone hread hcloses closed) key
  rw [Node.bare_eq, Node.bare_eq] at hbare
  exact ⟨q, m, hq, hroot, congrArg Node.fields hbare⟩

/-! ## Styles -/

theorem style_take {a : Attribute} (h : a.name ≠ "style") (g : Fields) :
    (g.take a).style = g.style := by
  unfold take
  split
  · split
    · rfl
    · split
      · split <;> rfl
      · rfl
  · rw [if_neg h]
    rfl
  · rfl

theorem style_foldl_take {as : List Attribute} (has : ∀ a ∈ as, a.name ≠ "style") :
    ∀ g : Fields, (as.foldl take g).style = g.style := by
  induction as with
  | nil => exact fun _ => rfl
  | cons a as ih =>
    intro g
    rw [List.foldl_cons, ih (fun b hb => has b (List.mem_cons_of_mem a hb)),
      style_take (has a List.mem_cons_self)]

theorem name_of_writtenClass {a : Attribute} (ha : a ∈ f.writtenClass) : a.name ≠ "style" := by
  unfold writtenClass at ha
  split at ha
  · cases ha
  · obtain rfl := List.mem_singleton.1 ha
    exact (by decide : "className" ≠ "style")

theorem name_of_writtenBehind (hstyle : f.style.isEmpty = false) {a : Attribute}
    (ha : a ∈ f.writtenAttributes ++ f.writtenAnimation) : a.name ≠ "style" := by
  rcases List.mem_append.1 ha with ha | ha
  · obtain ⟨e, he, rfl⟩ := List.mem_map.1 ha
    have hkept := (List.mem_filter.1 he).2
    intro hname
    simp only at hname
    rw [hname, isSuperseded, if_neg (by decide), if_pos rfl, hstyle] at hkept
    cases hkept
  · obtain ⟨_, _, rfl⟩ := List.mem_map.1 ha
    exact (by decide : animationAttribute ≠ "style")

/-- The style of a reprinted tag is what its style object is read as. -/
theorem style_reprinted (hstyle : f.style.isEmpty = false) :
    f.reprinted.style = (Value.styleObject? (String.ofList f.styleGroup)).getD .empty := by
  have hwritten : f.writtenStyle = [⟨"style", .expression (String.ofList f.styleGroup)⟩] := by
    rw [writtenStyle, hstyle]
    rfl
  have hclass := style_foldl_take (fun _ => name_of_writtenClass (f := f)) { type := f.type }
  rw [reprinted, ofTag, written, hwritten, List.foldl_append, List.singleton_append, List.foldl_cons]
  simp only
  rw [style_foldl_take fun _ => name_of_writtenBehind hstyle, take]
  simp only [if_true]
  cases Value.styleObject? (String.ofList f.styleGroup) with
  | some style => rfl
  | none => exact hclass

end Fields

/-! ## Pages -/

/-- The elements of a page that have a style. -/
def Page.styled (p : Page) : List Node :=
  (Node.nodesAll p.tree.root.children).filter fun n => !n.isLeaf && !n.fields.style.isEmpty

/-- The style of the only element of a page. -/
def Page.style? (p : Page) : Option (OrderedMap String) :=
  match p.tree.root.children with
  | [n] => some n.fields.style
  | _ => none

/-- The tag alone is read again, as one element with the same style. -/
def Fields.KeepsStyle (f : Fields) (closed : Bool) : Prop :=
  (Page.read (String.ofList (f.tagAlone closed))).toOption.bind Page.style? = some f.style

instance (f : Fields) (closed : Bool) : Decidable (f.KeepsStyle closed) :=
  inferInstanceAs (Decidable (_ = _))

variable {source key : String} {p : Page} {n : Node}

theorem isRead_of_styled (hp : Page.read source key = .ok p) (hn : n ∈ p.styled) :
    n.fields.IsRead := by
  obtain ⟨hmem, hstyled⟩ := List.mem_filter.1 hn
  have hleaf : n.isLeaf = false := by
    rw [Bool.and_eq_true, Bool.not_eq_true'] at hstyled
    exact hstyled.1
  cases (isMade_of_read hp n hmem).stands with
  | text _ htype => simp [Node.isLeaf, Node.isText, htype] at hleaf
  | expression _ htype => simp [Node.isLeaf, Node.isExpression, htype] at hleaf
  | closed _ hread => exact hread
  | element _ hread => exact hread

/-- In every page that was read, an element whose tag closes its braces is read again from its tag
alone, and it has the same style just if each key and each value is printed as one token. The style
objects that are printed so close their braces. -/
theorem keepsStyle_of_read (hp : Page.read source key = .ok p) (hn : n ∈ p.styled) :
    (Value.AreStyle n.fields.style.entries → IsGroup n.fields.styleGroup) ∧
      (n.fields.Closes → ∀ closed,
        (Page.read (String.ofList (n.fields.tagAlone closed))).isOk = true ∧
          (n.fields.KeepsStyle closed ↔ Value.AreStyle n.fields.style.entries)) := by
  have hread := isRead_of_styled hp hn
  have hstyle : n.fields.style.isEmpty = false := by
    have hstyled := (List.mem_filter.1 hn).2
    rw [Bool.and_eq_true, Bool.not_eq_true', Bool.not_eq_true'] at hstyled
    exact hstyled.2
  refine ⟨Fields.isGroup_styleGroup, fun hcloses closed => ?_⟩
  obtain ⟨q, m, hq, hroot, hfields⟩ := Fields.read_tagAlone hread hcloses closed Tree.defaultKey
  refine ⟨by rw [hq]; rfl, ?_⟩
  rw [← Fields.styleObject?_styleGroup_iff hstyle, Fields.KeepsStyle, hq]
  have hsame : q.style? = some n.fields.reprinted.style := by
    rw [Page.style?, hroot, ← hfields]
  rw [Except.toOption, Option.bind_some, hsame, Fields.style_reprinted hstyle]
  -- a style that is not read back would have to be empty
  cases hobject : Value.styleObject? (String.ofList n.fields.styleGroup) with
  | some style => rfl
  | none =>
    refine ⟨fun hempty => ?_, by rintro ⟨⟩⟩
    rw [← Option.some.inj hempty] at hstyle
    cases hstyle

/-- A number, a name, a number that keeps its quotes and a string, one of them under a key that is no
plain name. -/
def cardPage : String :=
  "<main><div style=\x7b\x7bwidth: -1.5, color: accent, '--gap': \"2\", font: '1 em'\x7d\x7d>a</div></main>"

theorem keepsStyle_cardPage : ∃ p n, Page.read cardPage = .ok p ∧ n ∈ p.styled ∧
    n.fields.style = card.fields.style ∧ ∀ closed, n.fields.KeepsStyle closed := by
  have hpage : (Page.read cardPage).toOption.any (fun p => p.styled.any fun n =>
      decide (n.fields.style = card.fields.style ∧ n.fields.Closes)) = true := by decide +kernel
  obtain ⟨p, n, hp, hn, hfields⟩ := Page.exists_of_any hpage
  obtain ⟨hstyle, hcloses⟩ := of_decide_eq_true hfields
  obtain ⟨_, hkeeps⟩ := keepsStyle_of_read hp hn
  exact ⟨p, n, hp, hn, hstyle, fun closed => (hkeeps hcloses closed).2.2 (hstyle ▸ areStyle_card)⟩

/-- Pages with one element, and its tag as it is printed: a quote in a key, a key that begins with a
digit, a quote and a backslash in a string, strings in braces that become a number or nothing, and an
animation whose braces do not close. -/
def lossy : List (String × String) :=
  [("<p style=\x7b\x7b'a\"b': 1\x7d\x7d/>", "<p style=\x7b\x7b \"a\"b\": 1 \x7d\x7d />"),
    ("<p style=\x7b\x7b'2x': 1\x7d\x7d/>", "<p style=\x7b\x7b 2x: 1 \x7d\x7d />"),
    ("<p style=\x7b\x7bcolor: 'say \"hi\"'\x7d\x7d/>",
      "<p style=\x7b\x7b color: \"say \\\"hi\\\"\" \x7d\x7d />"),
    ("<p style=\x7b\x7bcontent: '\\201C'\x7d\x7d/>", "<p style=\x7b\x7b content: \"\\\\201C\" \x7d\x7d />"),
    ("<p style=\x7b\x7border: '\x7b1\x7d'\x7d\x7d/>", "<p style=\x7b\x7b order: 1 \x7d\x7d />"),
    ("<p style=\x7b\x7border: '\x7b\x7d'\x7d\x7d/>", "<p style=\x7b\x7b order:  \x7d\x7d />"),
    ("<p style=\x7b\x7border: 1\x7d\x7d data-animation='\x7b\"\x7d'/>",
      "<p style=\x7b\x7b order: 1 \x7d\x7d data-animation=\x7b\"\x7d />")]

theorem not_keepsStyle_lossy :
    lossy ≠ [] ∧ ∀ x ∈ lossy, ∃ p n, Page.read x.1 = .ok p ∧ n ∈ p.styled ∧
      String.ofList (n.fields.tagAlone true) = x.2 ∧ ¬ n.fields.KeepsStyle true := by
  have hlost : ∀ x ∈ lossy, (Page.read x.1).toOption.any (fun p => p.styled.any fun n =>
      decide (String.ofList (n.fields.tagAlone true) = x.2 ∧
        (Page.read x.2).toOption.bind Page.style? ≠ some n.fields.style)) = true := by
    decide +kernel
  refine ⟨List.cons_ne_nil _ _, fun x hx => ?_⟩
  obtain ⟨p, n, hp, hn, hno⟩ := Page.exists_of_any (hlost x hx)
  obtain ⟨hprinted, hstyle⟩ := of_decide_eq_true hno
  refine ⟨p, n, hp, hn, hprinted, ?_⟩
  rw [Fields.KeepsStyle, hprinted]
  exact hstyle

/-- Where the braces of a tag do not close, a style can be kept by accident: here the reader of braces
gets out of step, and what was a part of another attribute is read as the style. -/
def outOfStep : String :=
  "<p style=\x7b\x7bc: \"\x7b'\x7d\"\x7d\x7d x=\x7b\x60' \x7d\x7d style=\x7b\x7bc: \"\x7b'\x7d\"\x7d\x7d y=\x7b\\\x601\x60\x7d/>"

example : (Page.read outOfStep).toOption.any (fun p => p.styled.any fun n =>
    decide (n.fields.KeepsStyle true ∧ ¬ n.fields.Closes)) = true := by
  decide +kernel

end PageEditor
