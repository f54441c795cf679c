import PageEditor.Proofs.Markup.Canonical
import PageEditor.Proofs.Markup.Standing

/-!
# Markup that mirrors nodes

What is read back where nodes were written. The elements and the expressions come in the order of the
nodes and each below its own parent. A run of text between two tags is not told apart from the blanks
and the texts beside it, but what an element without children holds is its own text alone.
-/
set_option autoImplicit false

namespace PageEditor

open Cursor

/-! ## Mirrors -/

namespace Node

/-- A run of text. -/
def textRun (t : String) : Node := { id := "", fields := { type := textType, text := some t } }

/-- What stands between the tags of an element: its own text and its children. -/
def inner (n : Node) : List Node := n.text?.toList.map textRun ++ n.children

/-- The attributes in the tag of an element: the ones that its fields are written as, or, while its
props are the same, those that it was read from. -/
inductive ShowsTag (n : Node) (as : List Attribute) : Prop
  | written (h : as = n.fields.written)
  | kept {o : Origin} (ho : n.origin = some o) (hsame : n.propsChanged = false)
      (hread : ∀ a ∈ as, a.IsRead)
      (hfields : Fields.ofTag n.type as = { o.fields with text := none })

/-- The text `t` of an element without children is all that the element holds: as a run of text, or
quoted in an expression if it has a character that would not be read as text. A text that has not
changed stays as it was read. -/
inductive ShowsOwn (n : Node) (t : String) (held : List Markup) : Prop
  | run {p : Place} (hheld : held = [.text p t]) (h : Value.IsRun t ∨ n.textChanged = false)
  | quoted {p : Place} (hheld : held = [.expression p (String.ofList (Json.quote t.toList))])
      (h : ¬Value.IsRun t)

/-- An element without children shows its text, if there are no blanks at its ends. -/
def ShowsText (n : Node) (held : List Markup) : Prop :=
  n.children = [] → ∀ t, n.fields.text = some t → t ≠ "" → Text.trim t.toList = t.toList →
    n.ShowsOwn t held

end Node

/-- The pieces are what is read where the nodes were written. -/
inductive Mirrors : List Markup → List Node → Prop
  | nil : Mirrors [] []
  | text {p : Place} {t : String} {ms : List Markup} {ns : List Node} (h : Mirrors ms ns) :
      Mirrors (.text p t :: ms) ns
  | run {n : Node} {ms : List Markup} {ns : List Node} (hn : n.isText = true)
      (h : Mirrors ms ns) : Mirrors ms (n :: ns)
  | quoted {p : Place} {e : String} {n : Node} {ms : List Markup} {ns : List Node}
      (hn : n.isText = true) (h : Mirrors ms ns) : Mirrors (.expression p e :: ms) (n :: ns)
  | expression {p : Place} {e : String} {n : Node} {ms : List Markup} {ns : List Node}
      (hn : n.isExpression = true) (he : e.toList = n.textChars) (h : Mirrors ms ns) :
      Mirrors (.expression p e :: ms) (n :: ns)
  | element {p : Place} {as : List Attribute} {held : List Markup} {n : Node} {ms : List Markup}
      {ns : List Node} (hleaf : n.isLeaf = false) (htag : n.ShowsTag as)
      (hown : n.ShowsText held) (hheld : Mirrors held n.inner) (h : Mirrors ms ns) :
      Mirrors (.element p n.type as held :: ms) (n :: ns)

theorem Mirrors.of_text {p : Place} {t : String} {ms : List Markup} {ns : List Node}
    (h : Mirrors (.text p t :: ms) ns) : Mirrors ms ns := by
  generalize hms : Markup.text p t :: ms = ms' at h
  induction h with
  | nil => cases hms
  | text h =>
    cases hms
    exact h
  | run hn _ ih => exact .run hn (ih hms)
  | quoted => cases hms
  | expression => cases hms
  | element => cases hms

theorem mirrors_textRuns {c : Cursor} {ms : List Markup} {ns : List Node} :
    Mirrors (c.textRuns ++ ms) ns ↔ Mirrors ms ns := by
  rw [textRuns]
  cases hrun : c.textRun? c.skipText with
  | none => exact Iff.rfl
  | some m =>
    obtain ⟨s, e, _, _, _, _, rfl⟩ := textRun?_eq_some (leads_skipText c) hrun
    exact ⟨Mirrors.of_text, Mirrors.text⟩

/-! ## Texts that spell nodes -/

/-- A text that is read as these nodes in front of whatever an element holds. -/
def Spells (ns : List Node) (cs : List Char) : Prop :=
  ∀ (c : Cursor) (rest : List Char), c.rest = cs ++ rest →
    ∀ (ms : List Markup) (stop : Cursor), Reads (c.advance cs.length) ms stop →
      ∃ ms', Reads c ms' stop ∧ ∀ ks, Mirrors ms ks → Mirrors ms' (ns ++ ks)

/-- The piece is what is read where the element was written. -/
def Node.MirroredBy (n : Node) (m : Markup) : Prop :=
  ∀ ms ns, Mirrors ms ns → Mirrors (m :: ms) (n :: ns)

/-- A text that is read as this element wherever it stands. -/
structure SpellsElement (n : Node) (cs : List Char) : Prop where
  head : ∃ r, cs = '<' :: r
  reads : ∀ (c : Cursor) (rest : List Char), c.rest = cs ++ rest →
    ∃ m, ReadsElement c m (c.advance cs.length) ∧
      ∀ ms ns, Mirrors ms ns → Mirrors (m :: ms) (n :: ns)

variable {n : Node} {ns ks : List Node} {a b cs : List Char}

theorem SpellsElement.isElement (h : SpellsElement n cs) : IsElement cs := by
  refine ⟨h.head, fun c rest hc => ?_⟩
  obtain ⟨m, hm, _⟩ := h.reads c rest hc
  exact ⟨m, hm⟩

theorem SpellsElement.isElementWith (h : SpellsElement n cs) : IsElementWith n.MirroredBy cs :=
  ⟨h.head, h.reads⟩

theorem Spells.append (ha : Spells ns a) (hb : Spells ks b) : Spells (ns ++ ks) (a ++ b) := by
  intro c rest hc ms stop h
  rw [List.append_assoc] at hc
  rw [← advance_add hc] at h
  obtain ⟨ms₂, h₂, hall₂⟩ := hb _ rest (advance_rest_append hc) ms stop h
  obtain ⟨ms₁, h₁, hall₁⟩ := ha c _ hc ms₂ stop h₂
  refine ⟨ms₁, h₁, fun ls hls => ?_⟩
  rw [List.append_assoc]
  exact hall₁ _ (hall₂ ls hls)

theorem IsPlain.spells (h : IsPlain cs) : Spells [] cs := by
  intro c rest hc ms stop hreads
  obtain ⟨tail, rfl, hreads'⟩ := reads_of_skipText_eq (h.skipText_advance hc) hreads
  exact ⟨_, hreads', fun ks hks => mirrors_textRuns.2 (mirrors_textRuns.1 hks)⟩

theorem spells_nil : Spells [] [] := IsPlain.spells (by rintro _ ⟨⟩)

theorem Spells.lineFeed (h : Spells ns cs) : Spells ns ('\n' :: cs) :=
  isPlain_lineFeed.spells.append h

/-- A run of text is among the texts beside it. -/
theorem IsPlain.spells_text (h : IsPlain cs) (hn : n.isText = true) : Spells [n] cs := by
  intro c rest hc ms stop hreads
  obtain ⟨ms', hreads', hall⟩ := h.spells c rest hc ms stop hreads
  exact ⟨ms', hreads', fun ks hks => .run hn (hall ks hks)⟩

theorem IsGroup.spells {inner : List Char} (h : IsGroup ('\x7b' :: inner ++ ['\x7d']))
    (hn : ∀ p ms ns, Mirrors ms ns →
      Mirrors (.expression p (String.ofList inner) :: ms) (n :: ns)) :
    Spells [n] ('\x7b' :: inner ++ ['\x7d']) := by
  intro c rest hc ms stop hmore
  have hskip : c.skipText = c := skipText_of_endsText hc (by decide)
  have hbraced := braced_of_isGroup h hc
  have hup := upTo_advance_append hc
  have hreads : Reads c (c.textRuns ++ c.skipText.expression (c.advance _) :: ms) stop :=
    .expression (hskip.symm ▸ hc) (hskip.symm ▸ hbraced) hmore
  refine ⟨_, hreads, fun ks hks => mirrors_textRuns.2 ?_⟩
  have hinner : ('\x7b' :: inner ++ ['\x7d']).tail.dropLast = inner := by
    rw [List.cons_append, List.tail_cons, List.dropLast_concat]
  rw [hskip, Cursor.expression, hup, hinner]
  exact hn _ _ _ hks

theorem SpellsElement.spells (h : SpellsElement n cs) : Spells [n] cs := by
  intro c rest hc ms stop hmore
  obtain ⟨r, hr⟩ := h.head
  obtain ⟨m, hm, hall⟩ := h.reads c rest hc
  rw [hr] at hc
  have hskip : c.skipText = c := skipText_of_endsText hc (by decide)
  have hhead : c.skipText.rest = '<' :: (r ++ rest) := by rw [hskip, hc, List.cons_append]
  have hhere : ReadsElement c.skipText m (c.advance cs.length) := by rwa [hskip]
  exact ⟨_, hhere.reads hhead hmore, fun ks hks => mirrors_textRuns.2 (hall ms ks hks)⟩

/-! ## What elements hold -/

/-- A text that is read between the tags of an element as what the element holds. -/
def HeldBy (n : Node) (cs : List Char) : Prop :=
  ∀ (c : Cursor) (r : List Char), c.rest = cs ++ '<' :: '/' :: r →
    ∃ ms, Reads c ms (c.advance cs.length) ∧ Mirrors ms n.inner ∧ n.ShowsText ms

theorem mirrors_inner (hchildren : n.children = []) : Mirrors [] n.inner := by
  rw [Node.inner, hchildren, List.append_nil]
  cases n.text? with
  | none => exact .nil
  | some t => exact .run rfl .nil

theorem Node.text?_eq_some {t : String} (h : n.fields.text.getD "" = t) (ht : t ≠ "") :
    n.text? = some t := by
  rw [Node.text?]
  cases htext : n.fields.text with
  | none =>
    rw [htext] at h
    exact absurd h.symm ht
  | some u =>
    rw [htext, Option.getD_some] at h
    rw [h, Option.filter_some, if_pos (by simpa using ht)]

theorem Node.text?_getD (n : Node) : n.text?.getD "" = n.fields.text.getD "" := by
  rw [Node.text?]
  cases n.fields.text with
  | none => rfl
  | some t =>
    by_cases ht : t = ""
    · rw [ht]
      rfl
    · rw [Option.filter_some, if_pos (by simpa using ht)]

theorem Spells.heldBy (hchildren : n.children ≠ []) (h : Spells n.inner cs) : HeldBy n cs := by
  intro c r hc
  have hempty : IsPlain [] := by rintro _ ⟨⟩
  have hend := (reads_plain hempty (advance_rest_append hc)).1
  rw [List.length_nil, advance_zero] at hend
  obtain ⟨ms, hms, hall⟩ := h c _ hc _ _ hend
  refine ⟨ms, hms, ?_, fun hnil => absurd hnil hchildren⟩
  have hnil := mirrors_textRuns (c := c.advance cs.length).2 Mirrors.nil
  rw [List.append_nil] at hnil
  have hinner := hall [] hnil
  rwa [List.append_nil] at hinner

theorem heldBy_kept (hplain : IsPlain cs) (hchildren : n.children = [])
    (htext : n.fields.text = Text.trimmed? cs) (hsame : n.textChanged = false) : HeldBy n cs := by
  intro c r hc
  obtain ⟨hreads, hup⟩ := reads_plain hplain hc
  have hmirrors := mirrors_textRuns (c := c).2 (mirrors_inner hchildren)
  rw [List.append_nil] at hmirrors
  refine ⟨_, hreads, hmirrors, fun _ t ht _ _ => ?_⟩
  obtain ⟨p, hruns⟩ := exists_textRuns (hup.symm ▸ htext.symm.trans ht)
  exact .run hruns (.inr hsame)

theorem textRuns_of_blank {c : Cursor} (h : IsBlank (c.upTo c.skipText)) : c.textRuns = [] := by
  rw [textRuns, textRun?_eq_none.2 h]
  rfl

section Written

variable {t : String} {front back : List Char}

theorem heldBy_unmarked (hfront : IsBlank front) (hback : IsBlank back) (hchildren : n.children = [])
    (htext : n.fields.text.getD "" = t)
    (hmarked : (t.toList.any fun c => c == '<' || c == '>' || c == '\x7b' || c == '\x7d') = false) :
    HeldBy n (front ++ (t.toList ++ back)) := by
  intro c r hc
  have hplain := hfront.isPlain.append ((isPlain_of_unmarked hmarked).append hback.isPlain)
  obtain ⟨hreads, hup⟩ := reads_plain hplain hc
  have hmirrors := mirrors_textRuns (c := c).2 (mirrors_inner hchildren)
  rw [List.append_nil] at hmirrors
  refine ⟨_, hreads, hmirrors, fun _ u hu hne htrim => ?_⟩
  rw [hu, Option.getD_some] at htext
  subst htext
  have hrun : Value.IsRun u := ⟨hne, htrim, hmarked⟩
  have htrimmed : Text.trimmed? (c.upTo c.skipText) = some u := by
    rw [hup, ← hrun.trimmed?, Text.trimmed?, trim_blank_append hfront,
      trim_append_blank _ hback, Text.trimmed?]
  obtain ⟨p, hruns⟩ := exists_textRuns htrimmed
  exact .run hruns (.inl hrun)

theorem heldBy_quoted (hfront : IsBlank front) (hback : IsBlank back) (hchildren : n.children = [])
    (htext : n.fields.text.getD "" = t)
    (hmarked : (t.toList.any fun c => c == '<' || c == '>' || c == '\x7b' || c == '\x7d') = true) :
    HeldBy n (front ++ ((Value.quoted t).toList ++ back)) := by
  intro c r hc
  have hgroup := Value.isGroup_quoted t
  have hquoted : (Value.quoted t).toList = '\x7b' :: Json.quote t.toList ++ ['\x7d'] :=
    String.toList_ofList
  rw [List.append_assoc, List.append_assoc] at hc
  rw [hquoted] at hgroup hc ⊢
  have hne : t ≠ "" := by
    rintro rfl
    cases hmarked
  have hrest := advance_rest_append hc
  have hskip : c.skipText = c.advance front.length :=
    skipText_of_plain hfront.isPlain (by rintro _ ⟨⟩; rfl) hc
  have hbraced := braced_of_isGroup hgroup hrest
  obtain ⟨hend, hup⟩ := reads_plain hback.isPlain (advance_rest_append hrest)
  rw [textRuns_of_blank (hup.symm ▸ hback), advance_add_add hc] at hend
  have hreads := Reads.expression (hskip.symm ▸ hrest) (hskip.symm ▸ hbraced) hend
  have hblank : IsBlank (c.upTo c.skipText) := by
    rw [hskip, upTo_advance_append hc]
    exact hfront
  rw [textRuns_of_blank hblank, hskip, List.nil_append, Cursor.expression,
    upTo_advance_append hrest, List.cons_append, List.tail_cons, List.dropLast_concat] at hreads
  refine ⟨_, hreads, ?_, fun _ u hu _ _ => ?_⟩
  · rw [Node.inner, hchildren, Node.text?_eq_some htext hne]
    exact .quoted rfl .nil
  · rw [hu, Option.getD_some] at htext
    subst htext
    refine .quoted rfl fun hrun => ?_
    rw [hrun.plain] at hmarked
    cases hmarked

theorem heldBy_escapeText (hfront : IsBlank front) (hback : IsBlank back)
    (hchildren : n.children = []) :
    HeldBy n (front ++ (Value.escapeText (n.fields.text.getD "") ++ back)) := by
  generalize htext : n.fields.text.getD "" = t
  rw [Value.escapeText]
  split
  · rename_i hmarked
    exact heldBy_quoted hfront hback hchildren htext hmarked
  · rename_i hmarked
    exact heldBy_unmarked hfront hback hchildren htext (Bool.eq_false_iff.2 hmarked)

end Written

/-! ## Elements -/

section Elements

variable {as : List Attribute} {tag body close : List Char}

theorem spellsElement_closed (hleaf : n.isLeaf = false) (hchildren : n.children = [])
    (htext : n.text? = none) (htag : IsOpenTag ⟨n.type, as, true⟩ tag) (hshows : n.ShowsTag as) :
    SpellsElement n tag := by
  have helement := isElementWith_closed (P := n.MirroredBy) htag fun place ms ns h => by
    refine .element hleaf hshows (fun _ t ht hne _ => ?_) (mirrors_inner hchildren) h
    rw [Node.text?_eq_some (by rw [ht]; rfl) hne] at htext
    cases htext
  exact ⟨helement.head, helement.reads⟩

theorem spellsElement_opened (hleaf : n.isLeaf = false)
    (htag : IsOpenTag ⟨n.type, as, false⟩ tag) (hshows : n.ShowsTag as) (hbody : HeldBy n body)
    (hclose : IsCloseTag n.type close) : SpellsElement n (tag ++ body ++ close) := by
  have helement := isElementWith_opened (P := n.MirroredBy) htag (fun c r hc => by
    obtain ⟨held, hheld, hmirrors, htext⟩ := hbody c r hc
    exact ⟨held, hheld, fun place ms ns h => .element hleaf hshows htext hmirrors h⟩) hclose
  exact ⟨helement.head, helement.reads⟩

end Elements

/-! ## Printed nodes -/

theorem spells_escapeText (hn : n.isText = true) (s : String) : Spells [n] (Value.escapeText s) := by
  unfold Value.escapeText
  split
  · have hquoted : (Value.quoted s).toList = '\x7b' :: Json.quote s.toList ++ ['\x7d'] :=
      String.toList_ofList
    have hgroup := Value.isGroup_quoted s
    rw [hquoted] at hgroup ⊢
    exact hgroup.spells fun _ _ _ h => .quoted hn h
  · rename_i hmarked
    exact (isPlain_of_unmarked (Bool.not_eq_true _ ▸ hmarked)).spells_text hn

theorem spells_group (hn : n.isExpression = true) (h : IsGroup n.group) : Spells [n] n.group :=
  h.spells fun _ _ _ hms => .expression hn String.toList_ofList hms

theorem spells_firstLine (depth : Nat) (text : Option String) :
    Spells (text.toList.map Node.textRun) (Node.firstLine defaultIndent depth text) := by
  cases text with
  | none => exact spells_nil.lineFeed
  | some t =>
    have htext := (isPlain_indentation (depth + 1)).spells.append
      (spells_escapeText (n := Node.textRun t) rfl t)
    exact (htext.append isPlain_lineFeed.spells).lineFeed

namespace Node

theorem spellsElement_markup {depth : Nat} (hread : n.fields.IsRead) (hcloses : n.fields.Closes)
    (hlines : Spells n.children (lines defaultIndent (depth + 1) n.children)) :
    SpellsElement n (n.markup defaultIndent depth) := by
  have hname : Token.IsName n.type.toList := hread.name
  have hleaf := isLeaf_of_isName hname
  have hopen := fun closed => Fields.isOpenTag_openTag hread hcloses closed
  have hclose := Fields.isCloseTag_closeTag hread.name
  by_cases hchildren : n.children = []
  · cases htext : n.text? with
    | none =>
      rw [markup_closed hname _ _ hchildren htext]
      exact spellsElement_closed hleaf hchildren htext (hopen true) (.written rfl)
    | some t =>
      have hnone : IsBlank [] := rfl
      have hbody := heldBy_escapeText (n := n) hnone hnone hchildren
      rw [List.nil_append, List.append_nil, ← text?_getD, htext, Option.getD_some] at hbody
      rw [markup_own hname _ _ hchildren htext]
      exact spellsElement_opened hleaf (hopen false) (.written rfl) hbody hclose
  · have hbody := ((spells_firstLine depth n.text?).append hlines).append
      (isPlain_indentation depth).spells
    rw [List.append_nil] at hbody
    rw [markup_held hname _ _ hchildren]
    exact spellsElement_opened hleaf (hopen false) (.written rfl) (Spells.heldBy hchildren hbody) hclose

mutual

/-- By cases of what the node is; the lines of the children spell them by induction. -/
theorem spells_markup (depth : Nat) : (n : Node) → (∀ m ∈ n.nodes, m.Printable) →
    Spells [n] (n.markup defaultIndent depth) ∧
      (n.isLeaf = false → SpellsElement n (n.markup defaultIndent depth))
  | ⟨id, fields, component, origin, children⟩, h => by
    have hlines := spells_lines (depth + 1) children fun m hm =>
      h m (mem_nodes_of_below hm)
    cases h _ (mem_nodes_self _) with
    | text htype =>
      refine ⟨?_, ?_⟩
      · rw [markup_text htype]
        exact spells_escapeText (beq_iff_eq.2 htype) _
      · intro hleaf
        simp [isLeaf, isText, htype] at hleaf
    | expression htype hgroup =>
      refine ⟨?_, ?_⟩
      · rw [markup_expression htype]
        exact spells_group (beq_iff_eq.2 htype) hgroup
      · intro hleaf
        simp [isLeaf, isExpression, htype] at hleaf
    | element hread hcloses =>
      have helement := spellsElement_markup hread hcloses hlines
      exact ⟨helement.spells, fun _ => helement⟩

theorem spells_lines (depth : Nat) : (ns : List Node) → (∀ m ∈ nodesAll ns, m.Printable) →
    Spells ns (lines defaultIndent depth ns)
  | [], _ => spells_nil
  | n :: ns, h => by
    have hn := spells_markup depth n fun m hm => h m (List.mem_append_left _ hm)
    have hns := spells_lines depth ns fun m hm => h m (List.mem_append_right _ hm)
    rw [lines]
    exact ((isPlain_indentation depth).spells.append hn.1).append hns.lineFeed

end

end Node

end PageEditor
