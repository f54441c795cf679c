import PageEditor.Proofs.Markup.Canonical
import PageEditor.Proofs.Markup.Lossless

/-!
# Lines that are read back

Each line that is printed of a canonical tree is read as the node that it was printed for. The blanks
of the indentation and the line feeds belong to the texts beside them and are trimmed off again, so a
line is looked at together with what stands in front of it up to the last tag or brace.
-/
set_option autoImplicit false

namespace PageEditor

open Cursor

/-! ## Runs of text -/

namespace Node

/-- The run of text in a text, as a list of at most one node. -/
def ofRun (cs : List Char) : List Node :=
  (Text.trimmed? cs).toList.map fun t => { id := "", fields := { type := textType, text := some t } }

theorem ofRun_append_blank (a : List Char) {b : List Char} (h : IsBlank b) :
    ofRun (a ++ b) = ofRun a := by
  rw [ofRun, Text.trimmed?, trim_append_blank a h, ofRun, Text.trimmed?]

theorem ofRun_blank {cs : List Char} (h : IsBlank cs) : ofRun cs = [] := by
  rw [ofRun, (trimmed?_eq_none cs).2 h]
  rfl

end Node

/-! ## Pieces and their nodes -/

/-- The node of a piece, whatever is imported and whichever ids are given out. -/
def Markup.Gives (m : Markup) (n : Node) : Prop :=
  ∀ (imports : List Import) (g : IdSource), (Node.ofMarkup imports g m).1.bare = n.bare

/-- The nodes of some pieces. -/
def GivesAll (ms : List Markup) (ns : List Node) : Prop :=
  ∀ (imports : List Import) (g : IdSource),
    Node.bareAll (Node.allOfMarkup imports g ms).1 = Node.bareAll ns

theorem givesAll_nil : GivesAll [] [] := fun _ _ => rfl

theorem Markup.Gives.cons {m : Markup} {n : Node} {ms : List Markup} {ns : List Node}
    (hm : m.Gives n) (hms : GivesAll ms ns) : GivesAll (m :: ms) (n :: ns) := by
  intro imports g
  rw [allOfMarkup_cons, Node.bareAll, Node.bareAll, hm, hms]

variable {c : Cursor} {n : Node} {ms : List Markup} {ns : List Node}

theorem givesAll_textRuns (c : Cursor) (h : GivesAll ms ns) :
    GivesAll (c.textRuns ++ ms) (Node.ofRun (c.upTo c.skipText) ++ ns) := by
  rw [textRuns, textRun?, Node.ofRun, Text.trimmed?]
  by_cases hempty : (Text.trim (c.upTo c.skipText)).isEmpty = true
  · simp only [if_pos hempty]
    exact h
  · simp only [if_neg hempty]
    exact Markup.Gives.cons (fun _ _ => rfl) h

theorem gives_expression {d : Cursor} {e : String} (hup : c.upTo d = n.group)
    (hfields : n.fields = { type := expressionType, text := some e }) (hchildren : n.children = []) :
    (c.expression d).Gives n := by
  intro imports g
  have hinner : n.group.tail.dropLast = e.toList := by
    rw [Node.group, Node.textChars, hfields, List.cons_append, List.tail_cons, List.dropLast_concat]
    rfl
  rw [Node.bare_eq, Node.bare_eq, hfields, hchildren, Cursor.expression, hup, hinner,
    String.ofList_toList]
  rfl

theorem bare_elementNode (imports : List Import) (id : String) (place : Place) (tag : String)
    (attributes : List Attribute) (text : Option String) (nodes : List Node) :
    (elementNode imports id place tag attributes text nodes).bare =
      ⟨"", { Fields.ofTag tag attributes with text }, none, none, Node.bareAll nodes⟩ :=
  Node.bare_eq _

theorem gives_held (place : Place) (tag : String) (as : List Attribute)
    (hlone : ∀ c, ns = [c] → c.isText = false) (hms : GivesAll ms ns) :
    (Markup.element place tag as ms).Gives
      { id := "", fields := Fields.ofTag tag as, children := ns } := by
  intro imports g
  rcases ofMarkup_element imports g place tag as ms with ⟨p, u, rfl, _⟩ | hnode
  · -- a text alone would be a child that is one
    have hbare := hms imports g
    have hlength := congrArg List.length hbare
    rw [Node.bareAll_eq_map ns, List.length_map] at hlength
    obtain ⟨child, rfl⟩ := List.length_eq_one_iff.1 hlength.symm
    have htype : child.bare.fields.type = textType := by
      rw [← (List.cons.inj hbare).1]
      rfl
    rw [Node.bare_eq] at htype
    have hno := hlone child rfl
    rw [Node.isText, Node.type, htype] at hno
    cases hno
  · rw [hnode, bare_elementNode, hms, ← Fields.ofTag_text tag as, Node.bare_eq]

theorem gives_element (place : Place) (hfields : n.fields.IsCanonical) (htext : n.fields.text = none)
    (hlone : ∀ c, n.children = [c] → c.isText = false) (hms : GivesAll ms n.children) :
    (Markup.element place n.type n.fields.written ms).Gives n := by
  intro imports g
  have hsame : Fields.ofTag n.type n.fields.written = n.fields := by
    rw [Node.type, Fields.ofTag_written hfields, ← htext]
  rw [gives_held place _ _ hlone hms, hsame, Node.bare_eq, Node.bare_eq]

theorem gives_textElement (place p : Place) {t : String} (hfields : n.fields.IsCanonical)
    (htext : n.fields.text = some t) (hchildren : n.children = []) :
    (Markup.element place n.type n.fields.written [.text p t]).Gives n := by
  intro imports g
  have hsame : { Fields.ofTag n.type n.fields.written with text := some t } = n.fields := by
    rw [Node.type, Fields.ofTag_written hfields, ← htext]
  have hnode : (Node.ofMarkup imports g (.element place n.type n.fields.written [.text p t])).1 =
      elementNode imports g.next.1 place n.type n.fields.written (some t) [] := rfl
  rw [hnode, bare_elementNode, hsame, Node.bare_eq, hchildren]

/-! ## What elements hold -/

/-- A text that is read as an element with that node wherever it stands. -/
structure IsElementOf (n : Node) (cs : List Char) : Prop where
  head : ∃ r, cs = '<' :: r
  reads : ∀ (c : Cursor) (rest : List Char), c.rest = cs ++ rest →
    ∃ m, ReadsElement c m (c.advance cs.length) ∧ m.Gives n

/-- A text that is read as these nodes between an open tag and a close tag. -/
def Holds (ns : List Node) (cs : List Char) : Prop :=
  ∀ (c : Cursor) (r : List Char), c.rest = cs ++ '<' :: '/' :: r →
    ∃ ms, Reads c ms (c.advance cs.length) ∧ GivesAll ms ns

section Holds

variable {pre cs : List Char} (hpre : IsPlain pre)

include hpre

theorem holds_plain : Holds (Node.ofRun pre) pre := by
  intro c r hc
  obtain ⟨hread, hup⟩ := reads_plain hpre hc
  have hgives := givesAll_textRuns c givesAll_nil
  rw [hup, List.append_nil, List.append_nil] at hgives
  exact ⟨_, hread, hgives⟩

theorem IsElementOf.holds {e : List Char} (he : IsElementOf n e) (hcs : Holds ns cs) :
    Holds (Node.ofRun pre ++ n :: ns) (pre ++ (e ++ cs)) := by
  intro c r hc
  simp only [List.append_assoc] at hc
  obtain ⟨x, hx⟩ := he.head
  have hskip := skipText_of_plain hpre (by rw [hx]; rintro _ ⟨⟩; rfl) hc
  have hrest := advance_rest_append hc
  obtain ⟨m, hm, hgives⟩ := he.reads _ _ hrest
  obtain ⟨ms, hms, hall⟩ := hcs _ r (advance_rest_append hrest)
  have hnodes := givesAll_textRuns c (hgives.cons hall)
  rw [hskip, upTo_advance_append hc] at hnodes
  rw [advance_add_add hc] at hms
  rw [← hskip] at hm hrest hms
  exact ⟨_, hm.reads (by rw [hrest, hx]; rfl) hms, hnodes⟩

theorem holds_expression {e : String} (hgroup : IsGroup n.group)
    (hfields : n.fields = { type := expressionType, text := some e }) (hchildren : n.children = [])
    (hcs : Holds ns cs) : Holds (Node.ofRun pre ++ n :: ns) (pre ++ (n.group ++ cs)) := by
  intro c r hc
  simp only [List.append_assoc] at hc
  have hskip := skipText_of_plain hpre (by rintro _ ⟨⟩; rfl) hc
  have hrest := advance_rest_append hc
  have hbraced := braced_of_isGroup hgroup hrest
  have hgives := gives_expression (upTo_advance_append hrest) hfields hchildren
  obtain ⟨ms, hms, hall⟩ := hcs _ r (advance_rest_append hrest)
  have hnodes := givesAll_textRuns c (hgives.cons hall)
  rw [hskip, upTo_advance_append hc] at hnodes
  rw [advance_add_add hc] at hms
  rw [← hskip] at hbraced hrest hnodes hms
  exact ⟨_, .expression hrest hbraced hms, hnodes⟩

end Holds

/-! ## Elements -/

section Elements

variable {tag body close : List Char}

theorem isElementOf_closed (hfields : n.fields.IsCanonical) (htext : n.fields.text = none)
    (hchildren : n.children = []) (htag : IsOpenTag ⟨n.type, n.fields.written, true⟩ tag) :
    IsElementOf n tag := by
  have helement := isElementWith_closed (P := (·.Gives n)) htag fun place => by
    refine gives_element place hfields htext (by rw [hchildren]; rintro _ ⟨⟩) ?_
    rw [hchildren]
    exact givesAll_nil
  exact ⟨helement.head, helement.reads⟩

theorem isElementOf_text {t : String} (hfields : n.fields.IsCanonical)
    (htext : n.fields.text = some t) (hchildren : n.children = []) (hrun : Value.IsRun t)
    (htag : IsOpenTag ⟨n.type, n.fields.written, false⟩ tag) (hclose : IsCloseTag n.type close) :
    IsElementOf n (tag ++ t.toList ++ close) := by
  have helement := isElementWith_opened (P := (·.Gives n)) htag (fun c r hc => by
    obtain ⟨hread, hup⟩ := reads_plain hrun.isPlain hc
    obtain ⟨p, hruns⟩ := exists_textRuns (hup ▸ hrun.trimmed?)
    rw [hruns] at hread
    exact ⟨_, hread, fun place => gives_textElement place p hfields htext hchildren⟩) hclose
  exact ⟨helement.head, helement.reads⟩

theorem isElementOf_held (hfields : n.fields.IsCanonical) (htext : n.fields.text = none)
    (hlone : ∀ c, n.children = [c] → c.isText = false) (hbody : Holds n.children body)
    (htag : IsOpenTag ⟨n.type, n.fields.written, false⟩ tag) (hclose : IsCloseTag n.type close) :
    IsElementOf n (tag ++ body ++ close) := by
  have helement := isElementWith_opened (P := (·.Gives n)) htag (fun c r hc => by
    obtain ⟨ms, hread, hgives⟩ := hbody c r hc
    exact ⟨ms, hread, fun place => gives_element place hfields htext hlone hgives⟩) hclose
  exact ⟨helement.head, helement.reads⟩

end Elements

/-! ## Lines -/

theorem isBlank_indentation (depth : Nat) : IsBlank (indentation defaultIndent depth) := by
  refine List.all_eq_true.2 fun x hx => ?_
  obtain ⟨l, hl, hxl⟩ := List.mem_flatten.1 hx
  rw [List.eq_of_mem_replicate hl] at hxl
  exact List.all_eq_true.1 (show IsBlank defaultIndent by decide) x hxl

theorem Holds.congr {ns' : List Node} {cs : List Char} (h : Holds ns cs)
    (hbare : Node.bareAll ns = Node.bareAll ns') : Holds ns' cs := by
  intro c r hc
  obtain ⟨ms, hms, hgives⟩ := h c r hc
  exact ⟨ms, hms, fun imports g => (hgives imports g).trans hbare⟩

namespace Node

/-- An element, when the lines of its children are read as them. -/
theorem isElementOf_of_lines {depth : Nat} (hfields : n.fields.IsCanonical)
    (htext : ∀ t, n.fields.text = some t → n.children = [] ∧ Value.IsRun t)
    (hlone : ∀ c, n.children = [c] → c.isText = false)
    (hlines : Holds n.children
      ('\n' :: (lines defaultIndent (depth + 1) n.children ++ indentation defaultIndent depth))) :
    IsElementOf n (n.markup defaultIndent depth) := by
  have hname : Token.IsName n.type.toList := hfields.name
  have hopen := fun closed => Fields.isOpenTag_openTag hfields.isRead hfields.closes closed
  have hclose := Fields.isCloseTag_closeTag hfields.name
  cases hown : n.fields.text with
  | none =>
    have hnone : n.text? = none := by
      rw [text?, hown]
      rfl
    by_cases hchildren : n.children = []
    · rw [markup_closed hname _ _ hchildren hnone]
      exact isElementOf_closed hfields hown hchildren (hopen true)
    · have hbody : n.contentMarkup defaultIndent depth = '\n' ::
          (lines defaultIndent (depth + 1) n.children ++ indentation defaultIndent depth) := by
        rw [contentMarkup, hnone]
        rfl
      rw [markup_held hname _ _ hchildren, hbody]
      exact isElementOf_held hfields hown hlone hlines (hopen false) hclose
  | some t =>
    obtain ⟨hchildren, hrun⟩ := htext t hown
    have hsome : n.text? = some t := by
      rw [text?, hown, Option.filter_some, if_pos (by simpa using hrun.nonempty)]
    rw [markup_own hname _ _ hchildren hsome, hrun.escapeText]
    exact isElementOf_text hfields hown hchildren hrun (hopen false) hclose

/-- The first of some lines is a text, which is read together with what stands in front of it. -/
theorem holds_textLine {t : String} {depth : Nat} {pre cs : List Char} (hblank : IsBlank pre)
    (hfields : n.fields = { type := textType, text := some t }) (hchildren : n.children = [])
    (hrun : Value.IsRun t)
    (hcs : Holds (ofRun (pre ++ indentation defaultIndent depth ++ t.toList ++ ['\n']) ++ ns)
      (pre ++ indentation defaultIndent depth ++ t.toList ++ ['\n'] ++ cs)) :
    Holds (ofRun pre ++ n :: ns)
      (pre ++ (indentation defaultIndent depth ++ n.markup defaultIndent depth ++ '\n' :: cs)) := by
  have hmarkup : n.markup defaultIndent depth = t.toList := by
    have htype : n.type = textType := by rw [type, hfields]
    rw [markup_text htype, hfields]
    exact hrun.escapeText
  have hfront : IsBlank (pre ++ indentation defaultIndent depth) :=
    joins_isBlank.append hblank (isBlank_indentation depth)
  have htrim : Text.trimmed? (pre ++ indentation defaultIndent depth ++ t.toList ++ ['\n']) =
      some t := by
    rw [Text.trimmed?, trim_append_blank _ (by decide), trim_blank_append hfront, ← Text.trimmed?]
    exact hrun.trimmed?
  have hbare : bareAll (ofRun (pre ++ indentation defaultIndent depth ++ t.toList ++ ['\n']) ++ ns) =
      bareAll (ofRun pre ++ n :: ns) := by
    rw [ofRun, htrim, ofRun_blank hblank, List.nil_append, bareAll, n.bare_eq, hfields, hchildren]
    rfl
  have hholds := hcs.congr hbare
  rw [hmarkup]
  simp only [List.append_assoc, List.singleton_append] at hholds ⊢
  exact hholds

mutual

theorem isElementOf_markup (depth : Nat) : (n : Node) → (∀ m ∈ n.nodes, m.IsCanonical) →
    n.isLeaf = false → IsElementOf n (n.markup defaultIndent depth)
  | ⟨id, fields, component, origin, children⟩, h, hleaf => by
    have hbelow : ∀ m ∈ nodesAll children, m.IsCanonical := fun m hm =>
      h m (mem_nodes_of_below hm)
    cases h _ (mem_nodes_self _) with
    | text t hfields =>
      obtain rfl : fields = _ := hfields
      cases hleaf
    | expression e hfields =>
      obtain rfl : fields = _ := hfields
      cases hleaf
    | element hfields htext hlone halternate =>
      refine isElementOf_of_lines hfields htext hlone ?_
      exact holds_lines (depth + 1) children hbelow halternate isPlain_lineFeed
        (fun _ _ _ => by decide) (isPlain_indentation depth) (isBlank_indentation depth)

/-- The lines of some nodes behind a run of text, which is blank when the first node is a text. -/
theorem holds_lines (depth : Nat) : (ns : List Node) → (∀ m ∈ nodesAll ns, m.IsCanonical) →
    Alternate ns → {pre back : List Char} → IsPlain pre →
    (∀ n ∈ ns.head?, n.isText = true → IsBlank pre) → IsPlain back → IsBlank back →
    Holds (ofRun pre ++ ns) (pre ++ (lines defaultIndent depth ns ++ back))
  | [], _, _, pre, back, hpre, _, hback, hblank => by
    have hholds := holds_plain (hpre.append hback)
    rw [ofRun_append_blank pre hblank] at hholds
    rwa [List.append_nil]
  | n :: ns, h, halternate, pre, back, hpre, hhead, hback, hblank => by
    have hself := h n (List.mem_append_left _ (mem_nodes_self n))
    have hbelow : ∀ m ∈ nodesAll ns, m.IsCanonical := fun m hm => h m (List.mem_append_right _ hm)
    have hfront := hpre.append (isPlain_indentation depth)
    -- Behind all but a text the next lines start anew with a line feed.
    have hmore := holds_lines depth ns hbelow halternate.tail isPlain_lineFeed
      (fun _ _ _ => by decide) hback hblank
    rw [ofRun_blank (by decide), List.nil_append] at hmore
    cases hleaf : n.isLeaf with
    | false =>
      have helement := isElementOf_markup depth n
        (fun m hm => h m (List.mem_append_left _ hm)) hleaf
      have hholds := helement.holds hfront hmore
      rw [ofRun_append_blank pre (isBlank_indentation depth)] at hholds
      rw [lines]
      simp only [List.append_assoc, List.cons_append, List.nil_append] at hholds ⊢
      exact hholds
    | true =>
      cases hself with
      | text t hfields hchildren hrun =>
        have htext : n.isText = true := by rw [isText, type, hfields]; rfl
        have hblankPre := hhead n rfl htext
        have hnext := holds_lines depth ns hbelow halternate.tail
          ((hfront.append hrun.isPlain).append isPlain_lineFeed)
          (halternate.of_text htext) hback hblank
        rw [lines]
        have hline := holds_textLine hblankPre hfields hchildren hrun hnext
        simpa using hline
      | expression e hfields hchildren hgroup =>
        have htype : n.type = expressionType := by rw [type, hfields]
        have hholds := holds_expression hfront hgroup hfields hchildren hmore
        rw [ofRun_append_blank pre (isBlank_indentation depth)] at hholds
        rw [lines, markup_expression htype]
        simp only [List.append_assoc, List.cons_append, List.nil_append] at hholds ⊢
        exact hholds
      | element hfields =>
        rw [isLeaf_of_isName hfields.name] at hleaf
        cases hleaf

end

end Node

end PageEditor
