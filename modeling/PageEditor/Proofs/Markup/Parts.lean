import PageEditor.Proofs.Markup.AddedImports
import PageEditor.Proofs.Markup.Standing

/-!
# Words between tags

What a page says, however its blanks fall: elements and expressions in their order, each with what its
tag or its braces say, and the words between them. A run of text that is cut in two between two words
says the same, and so does one with a line feed in place of a blank. So what is said between two tags
is told piece by piece, as long as no word goes on behind the end of a piece.
-/
set_option autoImplicit false

namespace PageEditor

open Cursor

/-! ## Words -/

namespace Text

theorem wordsFrom_append {b : List Char} (hb : ∀ x, b.head? = some x → isBlank x = true)
    (a : List Char) : ∀ word, wordsFrom word (a ++ b) = wordsFrom word a ++ wordsFrom [] b := by
  induction a with
  | nil =>
    intro word
    cases b with
    | nil => simp [wordsFrom]
    | cons x b => simp [wordsFrom, hb x rfl]
  | cons y a ih =>
    intro word
    rw [List.cons_append, wordsFrom, wordsFrom]
    split
    · rw [ih, List.append_assoc]
    · exact ih (y :: word)

theorem wordsFrom_blank_append {a : List Char} (ha : IsBlank a) (b : List Char) :
    wordsFrom [] (a ++ b) = wordsFrom [] b := by
  induction a with
  | nil => rfl
  | cons x a ih =>
    rw [IsBlank, List.all_cons, Bool.and_eq_true] at ha
    rw [List.cons_append, wordsFrom, if_pos ha.1]
    exact ih ha.2

end Text

/-- What a text says: a word, or an expression or an element with what is said between its tags. -/
inductive Part
  | word (w : String)
  | node (fields : Fields) (component : Option ComponentInfo) (inner : List Part)

namespace Part

/-- The words of a text. -/
def ofText (s : String) : List Part := (Text.words s).map word

def ofChars (cs : List Char) : List Part := ofText (String.ofList cs)

theorem ofChars_eq (cs : List Char) :
    ofChars cs = (Text.wordsFrom [] cs).map fun w => word (String.ofList w) := by
  rw [ofChars, ofText, Text.words, String.toList_ofList, List.map_map]
  rfl

theorem ofChars_append (a : List Char) {b : List Char}
    (hb : ∀ x, b.head? = some x → Text.isBlank x = true) :
    ofChars (a ++ b) = ofChars a ++ ofChars b := by
  rw [ofChars_eq, ofChars_eq, ofChars_eq, Text.wordsFrom_append hb, List.map_append]

theorem ofChars_blank_append {a : List Char} (ha : IsBlank a) (b : List Char) :
    ofChars (a ++ b) = ofChars b := by
  rw [ofChars_eq, ofChars_eq, Text.wordsFrom_blank_append ha]

theorem ofChars_blank {a : List Char} (ha : IsBlank a) : ofChars a = [] := by
  have hnil := ofChars_blank_append ha []
  rw [List.append_nil] at hnil
  exact hnil

theorem ofChars_trim (cs : List Char) : ofChars (Text.trim cs) = ofChars cs := by
  obtain ⟨back, hcs, hback⟩ := exists_trim_append cs
  have hlead : IsBlank (Text.leading cs) := List.all_takeWhile
  have hends : ∀ x, back.head? = some x → Text.isBlank x = true := fun x hx =>
    List.all_eq_true.1 hback x (List.mem_of_mem_head? hx)
  have hsplit := ofChars_append (Text.trim cs) hends
  rw [ofChars_blank hback, List.append_nil] at hsplit
  rw [← hsplit, ← ofChars_blank_append hlead, hcs]

theorem ofText_trimmed? (cs : List Char) : ofText ((Text.trimmed? cs).getD "") = ofChars cs := by
  rw [← ofChars_trim, Text.trimmed?]
  cases htrim : Text.trim cs with
  | nil => rfl
  | cons x r => rfl

end Part

/-! ## Parts of nodes -/

namespace Node

mutual

/-- What a node says. -/
def parts : Node → List Part
  | ⟨_, fields, component, _, children⟩ =>
    let own := Part.ofText (fields.text.getD "")
    if fields.type = textType then own
    else if fields.type = expressionType then [.node fields component []]
    else [.node { fields with text := none } component (own ++ partsAll children)]

def partsAll : List Node → List Part
  | [] => []
  | n :: ns => n.parts ++ partsAll ns

end

variable {n : Node}

theorem parts_text (h : n.isText = true) : n.parts = Part.ofText (n.fields.text.getD "") := by
  obtain ⟨id, fields, component, origin, children⟩ := n
  have htype : fields.type = textType := beq_iff_eq.1 h
  rw [parts, if_pos htype]

theorem parts_expression (h : n.isExpression = true) :
    n.parts = [.node n.fields n.component []] := by
  obtain ⟨id, fields, component, origin, children⟩ := n
  have htype : fields.type = expressionType := beq_iff_eq.1 h
  have hne : fields.type ≠ textType := by
    rw [htype]
    decide
  rw [parts, if_neg hne, if_pos htype]

theorem parts_element (h : n.isLeaf = false) :
    n.parts = [.node { n.fields with text := none } n.component
      (Part.ofText (n.fields.text.getD "") ++ partsAll n.children)] := by
  obtain ⟨id, fields, component, origin, children⟩ := n
  obtain ⟨htext, hexpression⟩ := Bool.or_eq_false_iff.1 h
  have hne : fields.type ≠ textType := beq_eq_false_iff_ne.1 htext
  have hne' : fields.type ≠ expressionType := beq_eq_false_iff_ne.1 hexpression
  rw [parts, if_neg hne, if_neg hne']

end Node

/-! ## Parts of markup -/

/-- What a piece of markup says, whichever ids are given out and as long as the imports bind the same
names. -/
def Markup.HasParts (imports : List Import) (m : Markup) (ps : List Part) : Prop :=
  ∀ (is : List Import) (g : IdSource), is.map Import.names = imports.map Import.names →
    (Node.ofMarkup is g m).1.parts = ps

def HaveParts (imports : List Import) (ms : List Markup) (ps : List Part) : Prop :=
  ∀ (is : List Import) (g : IdSource), is.map Import.names = imports.map Import.names →
    Node.partsAll (Node.allOfMarkup is g ms).1 = ps

variable {imports : List Import} {m : Markup} {ms held : List Markup} {ps qs : List Part}

theorem haveParts_nil : HaveParts imports [] [] := fun _ _ _ => rfl

theorem Markup.HasParts.cons (hm : m.HasParts imports ps) (hms : HaveParts imports ms qs) :
    HaveParts imports (m :: ms) (ps ++ qs) := by
  intro is g hnames
  rw [allOfMarkup_cons, Node.partsAll, hm is g hnames, hms is _ hnames]

theorem haveParts_textRuns (c : Cursor) (h : HaveParts imports ms qs) :
    HaveParts imports (c.textRuns ++ ms) (Part.ofChars (c.upTo c.skipText) ++ qs) := by
  rw [← Part.ofChars_trim, textRuns, textRun?]
  by_cases hempty : (Text.trim (c.upTo c.skipText)).isEmpty = true
  · simp only [if_pos hempty]
    rw [List.isEmpty_iff.1 hempty]
    exact h
  · simp only [if_neg hempty]
    exact Markup.HasParts.cons (fun _ _ _ => rfl) h

theorem hasParts_expression (imports : List Import) (c d : Cursor) :
    (c.expression d).HasParts imports
      [.node { type := expressionType, text := some (String.ofList (c.upTo d).tail.dropLast) }
        none []] := fun _ _ _ => rfl

theorem hasParts_element (place : Place) {tag : String} (htag : Token.IsName tag.toList)
    (as : List Attribute) (h : HaveParts imports held ps) :
    (Markup.element place tag as held).HasParts imports
      [.node (Fields.ofTag tag as) (ComponentInfo.ofTag? imports tag) ps] := by
  intro is g hnames
  have hnone : { Fields.ofTag tag as with text := none } = Fields.ofTag tag as := by
    rw [← Fields.ofTag_text tag as]
  have hcomponent : ComponentInfo.ofTag? is tag = ComponentInfo.ofTag? imports tag :=
    ComponentInfo.ofTag?_congr (Import.resolve?_congr hnames _)
  have hparts : ∀ text nodes, (elementNode is g.next.1 place tag as text nodes).parts =
      [.node (Fields.ofTag tag as) (ComponentInfo.ofTag? imports tag)
        (Part.ofText (text.getD "") ++ Node.partsAll nodes)] := by
    intro text nodes
    have hleaf : (elementNode is g.next.1 place tag as text nodes).isLeaf = false :=
      isLeaf_elementNode htag
    rw [Node.parts_element hleaf, ← hnone, ← hcomponent]
    rfl
  have hheld := h is g.next.2 hnames
  rcases ofMarkup_element is g place tag as held with ⟨p, t, rfl, hn⟩ | hn
  · rw [hn, hparts, ← hheld]
    rfl
  · rw [hn, hparts, ← hheld]
    rfl

/-! ## Between two tags -/

/-- What is said between an open tag and a close tag: words, and what stands behind them. -/
def HoldsParts (imports : List Import) (ps : List Part) (cs : List Char) : Prop :=
  ∀ (c : Cursor) (r : List Char), c.rest = cs ++ '<' :: '/' :: r →
    ∃ ms qs, Reads c (c.textRuns ++ ms) (c.advance cs.length) ∧ HaveParts imports ms qs ∧
      ps = Part.ofChars (c.upTo c.skipText) ++ qs

theorem HoldsParts.reads {cs : List Char} (h : HoldsParts imports ps cs) {c : Cursor} {r : List Char}
    (hc : c.rest = cs ++ '<' :: '/' :: r) :
    ∃ ms, Reads c ms (c.advance cs.length) ∧ HaveParts imports ms ps := by
  obtain ⟨ms, qs, hreads, hms, hps⟩ := h c r hc
  refine ⟨_, hreads, ?_⟩
  rw [hps]
  exact haveParts_textRuns c hms

/-- A word that stands in front of this text goes on no further. -/
def EndsWord (cs : List Char) : Prop :=
  ∀ x, cs.head? = some x → Text.isBlank x = true ∨ endsText x = true

theorem IsBlank.endsWord_append {a b : List Char} (ha : IsBlank a) (hb : EndsWord b) :
    EndsWord (a ++ b) := by
  cases a with
  | nil => exact hb
  | cons x a =>
    intro y hy
    cases hy
    exact .inl (List.all_eq_true.1 ha x List.mem_cons_self)

theorem endsWord_of_endsText {x : Char} (hx : endsText x = true) (r : List Char) :
    EndsWord (x :: r) := by
  intro y hy
  cases hy
  exact .inr hx

theorem endsWord_nil : EndsWord [] := by rintro _ ⟨⟩

section

variable {a cs : List Char}

theorem holdsParts_nil : HoldsParts imports [] [] := by
  intro c r hc
  have hplain : IsPlain [] := by rintro _ ⟨⟩
  obtain ⟨hreads, hup⟩ := reads_plain hplain hc
  refine ⟨[], [], by rwa [List.append_nil], haveParts_nil, ?_⟩
  rw [hup]
  rfl

theorem HoldsParts.plain (ha : IsPlain a) {w : List Part}
    (hwords : Part.ofChars (a ++ cs.takeWhile fun x => !endsText x) =
      w ++ Part.ofChars (cs.takeWhile fun x => !endsText x))
    (h : HoldsParts imports ps cs) : HoldsParts imports (w ++ ps) (a ++ cs) := by
  intro c r hc
  rw [List.append_assoc] at hc
  have hrest := advance_rest_append hc
  obtain ⟨ms, qs, hreads, hms, hps⟩ := h (c.advance a.length) r hrest
  rw [advance_add hc] at hreads
  have hskip := ha.skipText_advance hc
  obtain ⟨tail, htail, hreads'⟩ := reads_of_skipText_eq hskip hreads
  obtain rfl := List.append_cancel_left htail
  -- The run goes on up to the mark that ended it before.
  have hrun : (c.advance a.length).upTo (c.advance a.length).skipText =
      cs.takeWhile fun x => !endsText x := by
    have hup : (c.advance a.length).upTo (c.advance a.length).skipText =
        (c.advance a.length).rest.takeWhile fun x => !endsText x := upTo_advance_takeWhile _ _
    rw [hup, hrest, List.takeWhile_append, List.takeWhile_cons_of_neg (by decide), List.append_nil]
    split
    · rename_i hall
      exact ((List.takeWhile_prefix _).eq_of_length hall).symm
    · rfl
  refine ⟨ms, qs, hreads', hms, ?_⟩
  rw [← (leads_advance c a.length).upTo_append (hskip ▸ leads_skipText _), upTo_advance_append hc,
    ← hskip, hrun, hwords, hps, hrun, List.append_assoc]

theorem HoldsParts.blank (ha : IsBlank a) (h : HoldsParts imports ps cs) :
    HoldsParts imports ps (a ++ cs) :=
  h.plain (w := []) ha.isPlain (Part.ofChars_blank_append ha _)

theorem HoldsParts.text (ha : IsPlain a) (hcs : EndsWord cs) (h : HoldsParts imports ps cs) :
    HoldsParts imports (Part.ofChars a ++ ps) (a ++ cs) := by
  refine h.plain ha (Part.ofChars_append a fun x hx => ?_)
  cases cs with
  | nil => cases hx
  | cons y r =>
    rw [List.takeWhile_cons] at hx
    split at hx
    · rename_i hy
      cases hx
      exact (hcs x rfl).resolve_right (by simpa using hy)
    · cases hx

theorem holdsParts_plain (ha : IsPlain a) : HoldsParts imports (Part.ofChars a) a := by
  have hholds : HoldsParts imports (Part.ofChars a ++ []) (a ++ []) :=
    holdsParts_nil.text ha endsWord_nil
  rwa [List.append_nil, List.append_nil] at hholds

theorem holdsParts_blank (ha : IsBlank a) : HoldsParts imports [] a := by
  have hholds : HoldsParts imports [] (a ++ []) := holdsParts_nil.blank ha
  rwa [List.append_nil] at hholds

theorem HoldsParts.element (ha : IsElementWith (·.HasParts imports qs) a)
    (h : HoldsParts imports ps cs) : HoldsParts imports (qs ++ ps) (a ++ cs) := by
  intro c r hc
  rw [List.append_assoc] at hc
  obtain ⟨x, hx⟩ := ha.head
  obtain ⟨m, hm, hparts⟩ := ha.reads c _ hc
  obtain ⟨ms, hms, hall⟩ := h.reads (advance_rest_append hc)
  have hhead : c.rest = '<' :: (x ++ (cs ++ '<' :: '/' :: r)) := by
    rw [hc, hx]
    rfl
  have hskip : c.skipText = c := skipText_of_endsText hhead (by decide)
  have hhere : ReadsElement c.skipText m (c.advance a.length) := by rwa [hskip]
  rw [advance_add hc] at hms
  refine ⟨m :: ms, qs ++ ps, hhere.reads (hskip.symm ▸ hhead) hms, hparts.cons hall, ?_⟩
  rw [hskip, upTo_self]
  rfl

theorem HoldsParts.group (ha : IsGroup a) (h : HoldsParts imports ps cs) :
    HoldsParts imports
      (.node { type := expressionType, text := some (String.ofList a.tail.dropLast) } none [] :: ps)
      (a ++ cs) := by
  intro c r hc
  rw [List.append_assoc] at hc
  obtain ⟨inner, hinner⟩ := ha.exists_inside
  have hhead : c.rest = '\x7b' :: (inner ++ ['\x7d'] ++ (cs ++ '<' :: '/' :: r)) := by
    rw [hc, hinner]
    rfl
  have hskip : c.skipText = c := skipText_of_endsText hhead (by decide)
  have hbraced := braced_of_isGroup ha hc
  have hparts := upTo_advance_append hc ▸ hasParts_expression imports c (c.advance a.length)
  obtain ⟨ms, hms, hall⟩ := h.reads (advance_rest_append hc)
  rw [advance_add hc] at hms
  have hreads := Reads.expression (hskip.symm ▸ hhead) (hskip.symm ▸ hbraced) hms
  rw [hskip] at hreads
  refine ⟨_, _, hreads, hparts.cons hall, ?_⟩
  rw [hskip, upTo_self]
  rfl

end

/-! ## Elements -/

section

variable {name : String} {as : List Attribute} {tag body close : List Char}

theorem hasParts_closed (hname : Token.IsName name.toList) (htag : IsOpenTag ⟨name, as, true⟩ tag) :
    IsElementWith (·.HasParts imports
      [.node (Fields.ofTag name as) (ComponentInfo.ofTag? imports name) []]) tag :=
  isElementWith_closed htag fun place => hasParts_element place hname as haveParts_nil

theorem hasParts_opened (hname : Token.IsName name.toList)
    (htag : IsOpenTag ⟨name, as, false⟩ tag) (hbody : HoldsParts imports ps body)
    (hclose : IsCloseTag name close) :
    IsElementWith (·.HasParts imports
      [.node (Fields.ofTag name as) (ComponentInfo.ofTag? imports name) ps])
      (tag ++ body ++ close) := by
  refine isElementWith_opened htag (fun c r hc => ?_) hclose
  obtain ⟨ms, hms, hall⟩ := hbody.reads hc
  exact ⟨ms, hms, fun place => hasParts_element place hname as hall⟩

end

end PageEditor
