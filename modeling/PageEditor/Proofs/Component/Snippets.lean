import PageEditor.Proofs.Component.Keys
import PageEditor.Proofs.Component.Plans
import PageEditor.Proofs.Markup.AddedImports
import PageEditor.Proofs.Markup.RoundTrip

/-!
# Snippets

What is read from the snippet that a component is compiled from. Two things go into a snippet that
are in no key: the animation, and whether there are children. A plan can serve another version of the
component that it was compiled from when these two make no difference (`Node.Serves`).
-/
set_option autoImplicit false

namespace PageEditor

open Cursor

/-- The fields but for the animation. -/
def Fields.still (f : Fields) : Fields := { f with animation := none }

/-! ## What is not in the key -/

namespace Node

section

variable {n m : Node}

theorem SameKey.still (h : n.SameKey m) : n.fields.still = m.fields.still := by
  simp only [Fields.still, Fields.mk.injEq, and_true]
  exact ⟨h.type, h.className, h.style, h.attributes, h.text⟩

theorem SameKey.snippetImport (h : n.SameKey m) : n.snippetImport = m.snippetImport := by
  rw [Node.snippetImport, Node.snippetImport, h.component, h.type]

/-- Versions with the same animation that both have children or both have none are compiled from
the same snippet. -/
theorem SameKey.snippet (h : n.SameKey m) (hanimation : n.fields.animation = m.fields.animation)
    (hchildren : n.children = [] ↔ m.children = []) : n.snippet = m.snippet := by
  have hfields : n.fields = m.fields := by
    have hn : n.fields = { n.fields.still with animation := n.fields.animation } := rfl
    rw [hn, h.still, hanimation]
    rfl
  have hempty : n.children.isEmpty = m.children.isEmpty := by
    rw [Bool.eq_iff_iff, List.isEmpty_iff, List.isEmpty_iff]
    exact hchildren
  have htemplate : n.template = m.template := by
    simp only [template, hempty, hfields, h.id, h.component]
  rw [Node.snippet, Node.snippet, h.snippetImport, htemplate]

theorem compile_congr (h : n.snippet = m.snippet) (env : Environment) :
    n.compile env = m.compile env := by
  rw [compile, compile, h]

theorem sameKey_forget (n : Node) : n.forget.SameKey n := by
  obtain ⟨id, fields, component, origin, children⟩ := n
  rw [forget]
  exact ⟨rfl, rfl, rfl, rfl, rfl, rfl, rfl⟩

theorem compile_forget (n : Node) (env : Environment) : n.forget.compile env = n.compile env := by
  refine compile_congr ((sameKey_forget n).snippet ?_ ?_) env
  · obtain ⟨id, fields, component, origin, children⟩ := n
    rw [forget]
  · obtain ⟨id, fields, component, origin, children⟩ := n
    rw [forget]
    cases children <;> simp [forgetAll]

end

/-! ## What a snippet holds -/

def expressionNode (id inner : String) : Node :=
  { id, fields := { type := expressionType, text := some inner } }

/-- The text of a component as what its element holds. -/
def ownLeaves : Option String → List Node
  | none => []
  | some t =>
    if t.toList.any fun c => c == '<' || c == '>' || c == '\x7b' || c == '\x7d' then
      [expressionNode "" (String.ofList (Json.quote t.toList))]
    else ofRun t.toList

/-- What is read between the tags of a snippet. -/
def leaves (n : Node) : List Node := ownLeaves n.text? ++ n.template.children

theorem template_children (n : Node) :
    n.template.children = if n.children = [] then [] else [expressionNode "slot" slotName] := by
  rw [template]
  cases n.children <;> rfl

theorem ofRun_blank_append {a : List Char} (h : IsBlank a) (b : List Char) :
    ofRun (a ++ b) = ofRun b := by
  rw [ofRun, Text.trimmed?, trim_blank_append h, ofRun, Text.trimmed?]

theorem holds_expressionNode {pre cs : List Char} {ns : List Node} (hpre : IsPlain pre)
    (id : String) {e : String} (hgroup : IsGroup ('\x7b' :: e.toList ++ ['\x7d'])) (hcs : Holds ns cs) :
    Holds (ofRun pre ++ expressionNode id e :: ns) (pre ++ ('\x7b' :: e.toList ++ ['\x7d'] ++ cs)) :=
  holds_expression (n := expressionNode id e) hpre hgroup rfl rfl hcs

theorem isGroup_quoteText (t : String) :
    IsGroup ('\x7b' :: (String.ofList (Json.quote t.toList)).toList ++ ['\x7d']) := by
  rw [String.toList_ofList]
  exact isGroup_quote _

theorem quoted_toList (t : String) : (Value.quoted t).toList =
    '\x7b' :: (String.ofList (Json.quote t.toList)).toList ++ ['\x7d'] := by
  rw [Value.quoted, Value.braced, String.toList_ofList, String.toList_ofList]

theorem holds_escapeText (t : String) : Holds (ownLeaves (some t)) (Value.escapeText t) := by
  unfold ownLeaves Value.escapeText
  simp only
  split
  · have hempty : IsPlain [] := by rintro _ ⟨⟩
    have hnil := holds_plain hempty
    rw [ofRun_blank (by decide)] at hnil
    have h := holds_expressionNode hempty "" (isGroup_quoteText t) hnil
    rwa [ofRun_blank (by decide), List.append_nil, ← quoted_toList] at h
  · rename_i hplain
    exact holds_plain (isPlain_of_unmarked (Bool.eq_false_iff.2 hplain))

theorem holds_slotLine {pre : List Char} (hpre : IsPlain pre) :
    Holds (ofRun pre ++ [expressionNode "slot" slotName])
      (pre ++ ('\x7b' :: slotName.toList ++ ['\x7d'] ++ ['\n'])) := by
  have hfeed := holds_plain isPlain_lineFeed
  rw [ofRun_blank (by decide)] at hfeed
  exact holds_expressionNode hpre "slot" (by decide) hfeed

theorem holds_contentMarkup {n : Node} (hchildren : n.children ≠ []) :
    Holds n.leaves (n.template.contentMarkup defaultIndent 0) := by
  have hslot : n.template.children = [expressionNode "slot" slotName] := by
    rw [template_children, if_neg hchildren]
  have hline : lines defaultIndent 1 [expressionNode "slot" slotName] =
      [' ', ' '] ++ ('\x7b' :: slotName.toList ++ ['\x7d'] ++ ['\n']) := rfl
  have hindent : indentation defaultIndent 1 = [' ', ' '] := rfl
  have hnone : indentation defaultIndent 0 = [] := rfl
  have htext : n.template.text? = n.text? := rfl
  have hfront : IsPlain ['\n', ' ', ' '] := isPlain_of_all (by decide)
  rw [leaves, contentMarkup, hslot, hline, htext]
  cases n.text? with
  | none =>
    have h := holds_slotLine hfront
    rwa [ofRun_blank (by decide)] at h
  | some t =>
    unfold ownLeaves firstLine Value.escapeText
    simp only [hindent]
    split
    · have h := holds_expressionNode hfront "" (isGroup_quoteText t) (holds_slotLine hfront)
      rw [ofRun_blank (by decide), ← quoted_toList] at h
      simpa [hnone] using h
    · rename_i hplain
      have hown := isPlain_of_unmarked (Bool.eq_false_iff.2 hplain)
      have h := holds_slotLine ((hfront.append hown).append hfront)
      rw [ofRun_append_blank _ (by decide), ofRun_blank_append (by decide)] at h
      simpa [hnone] using h

end Node

/-! ## Legible components -/

/-- The animation, if there is one, is read as an animation when it is printed. -/
def Fields.KeepsAnimation (f : Fields) : Prop :=
  ∀ a, f.animation = some a →
    (Animation.ofText? (String.ofList (numberApostrophes a.toJson.compact))).isSome = true

/-- The animation touches nothing else that is read from a tag. -/
theorem Fields.still_ofTag_written {f : Fields} (h : f.KeepsAnimation) :
    (ofTag f.type f.written).still = (ofTag f.type f.still.written).still := by
  have hsteady : f.still.written = f.writtenClass ++ (f.writtenStyle ++ f.writtenAttributes) := by
    rw [written, writtenAnimation]
    simp only [still, Option.toList_none, List.map_nil, List.append_nil]
    rfl
  have hwritten : f.written = f.still.written ++ f.writtenAnimation := by
    rw [hsteady, written]
    simp only [List.append_assoc]
  rw [hwritten, ofTag, List.foldl_append, ofTag]
  generalize f.still.written.foldl take { type := f.type } = g
  unfold writtenAnimation
  cases hanimation : f.animation with
  | none => rfl
  | some a =>
    have hread := h a hanimation
    obtain ⟨b, hb⟩ := Option.isSome_iff_exists.1 hread
    have hname : ¬ (animationAttribute = "className" ∨ animationAttribute = "class") := by decide
    simp only [Option.toList_some, List.map_cons, List.map_nil, List.foldl_cons, List.foldl_nil, take,
      if_neg hname, if_true, hb]
    rfl

namespace Node

/-- A component whose tag can be read from its markup, with nothing but its import in front of it. -/
structure IsLegible (n : Node) : Prop where
  read : n.fields.IsRead
  closes : n.fields.Closes
  imports : ∃ is d, (ofText (n.snippetImport ++ ['<'])).prelude = .ok (is, d) ∧ d.rest = ['<']

variable {n m : Node}

theorem IsLegible.of_sameKey (h : n.IsLegible) (hkey : n.SameKey m) : m.IsLegible := by
  have hstill := hkey.still
  have hread : ∀ f : Fields, f.IsRead ↔ f.still.IsRead := fun f =>
    ⟨fun ⟨h1, h2, h3, h4, h5⟩ => ⟨h1, h2, h3, h4, h5⟩,
      fun ⟨h1, h2, h3, h4, h5⟩ => ⟨h1, h2, h3, h4, h5⟩⟩
  have hcloses : ∀ f : Fields, f.Closes ↔ f.still.Closes := fun f =>
    ⟨fun ⟨h1, h2⟩ => ⟨h1, h2⟩, fun ⟨h1, h2⟩ => ⟨h1, h2⟩⟩
  refine ⟨(hread _).2 ?_, (hcloses _).2 ?_, ?_⟩
  · rw [← hstill]
    exact (hread _).1 h.read
  · rw [← hstill]
    exact (hcloses _).1 h.closes
  · rw [← hkey.snippetImport]
    exact h.imports

/-- The imports that are read from a snippet. -/
def snippetImports (n : Node) : List Import :=
  match (ofText (n.snippetImport ++ ['<'])).prelude with
  | .ok (is, _) => is
  | .error _ => []

/-- The element that is read from a snippet, without what it holds. -/
def frame (n : Node) : Node where
  id := ""
  fields := (Fields.ofTag n.type n.fields.still.written).still
  component := ComponentInfo.ofTag? n.snippetImports n.type

theorem SameKey.frame (h : n.SameKey m) : n.frame = m.frame := by
  rw [Node.frame, Node.frame, snippetImports, snippetImports, h.snippetImport, h.still, h.type]

/-! ## Tags of snippets -/

/-- The import of a component is read, and its open tag is read in both forms, each with some
attributes. -/
structure HasTags (n : Node) (attributes : Bool → List Attribute) : Prop where
  name : Token.IsName n.type.toList
  imports : IsImportBlock n.snippetImport
  opens : ∀ closed, IsOpenTag ⟨n.type, attributes closed, closed⟩ (n.fields.openTag closed)

theorem IsLegible.hasTags (h : n.IsLegible) : n.HasTags fun _ => n.fields.written :=
  ⟨h.read.name, h.imports, Fields.isOpenTag_openTag h.read h.closes⟩

section HasTags

variable {attributes : Bool → List Attribute}

theorem HasTags.prelude (h : n.HasTags attributes) {new : List Char} (hnew : ∃ r, new = '<' :: r) :
    ∃ is c, (ofText (n.snippetImport ++ new)).prelude = .ok (is, c) ∧ c.rest = new ∧
      is.map Import.names = n.snippetImports.map Import.names := by
  obtain ⟨r, rfl⟩ := hnew
  have hends : EndsImports ('<' :: r) := endsImports_of_head (opens_of_trivia isTrivia_nil).head
  have hrest : (ofText (n.snippetImport ++ '<' :: r)).rest = _ := rfl
  obtain ⟨is, e, hprelude, hnames, he⟩ := IsImportBlock.prelude h.imports hends hrest
  rw [skipTrivia_of_less he] at hprelude
  exact ⟨is, e, hprelude, he, hnames⟩

theorem HasTags.readsElement (h : n.HasTags attributes) {c : Cursor} (rest : List Char)
    (hc : c.rest = n.template.markup defaultIndent 0 ++ rest) :
    ∃ closed place ms, ReadsElement c (.element place n.type (attributes closed) ms)
      (c.advance (n.template.markup defaultIndent 0).length) ∧ GivesAll ms n.leaves := by
  have hclose := Fields.isCloseTag_closeTag h.name
  have hname : Token.IsName n.template.type.toList := h.name
  have hheld : ∀ body : List Char, Holds n.leaves body →
      c.rest = n.fields.openTag false ++ (body ++ (n.fields.closeTag ++ rest)) →
      ∃ closed place ms, ReadsElement c (.element place n.type (attributes closed) ms)
        (c.advance (n.fields.openTag false ++ body ++ n.fields.closeTag).length) ∧
        GivesAll ms n.leaves := by
    intro body hbody hc
    obtain ⟨r, hr⟩ := hclose.head
    have hinner := advance_rest_append hc
    rw [hr] at hinner
    obtain ⟨ms, hread, hgives⟩ := hbody _ _ hinner
    obtain ⟨place, helement⟩ :=
      readsElement_of_parts hc ((h.opens false).reads c _ hc) rfl hread hclose
    exact ⟨false, place, ms, helement, hgives⟩
  by_cases hchildren : n.children = []
  · have hempty : n.template.children = [] := by rw [template_children, if_pos hchildren]
    cases htext : n.text? with
    | none =>
      rw [markup_closed hname _ _ hempty htext] at hc ⊢
      refine ⟨true, _, _, .closed ((h.opens true).reads c rest hc) rfl, ?_⟩
      rw [leaves, htext, hempty]
      exact givesAll_nil
    | some t =>
      rw [markup_own hname _ _ hempty htext] at hc ⊢
      refine hheld _ ?_ (by rw [hc]; simp only [List.append_assoc]; rfl)
      rw [leaves, htext, hempty, List.append_nil]
      exact holds_escapeText t
  · have hslot : n.template.children ≠ [] := by rw [template_children, if_neg hchildren]; simp
    rw [markup_held hname _ _ hslot] at hc ⊢
    exact hheld _ (holds_contentMarkup hchildren) (by rw [hc]; simp only [List.append_assoc]; rfl)

theorem HasTags.markup_head (h : n.HasTags attributes) :
    ∃ r, n.template.markup defaultIndent 0 = '<' :: r := by
  have hname : Token.IsName n.template.type.toList := h.name
  by_cases hchildren : n.template.children = []
  · cases htext : n.template.text? with
    | none => exact ⟨_, markup_closed hname _ _ hchildren htext⟩
    | some t => exact ⟨_, markup_own hname _ _ hchildren htext⟩
  · exact ⟨_, markup_held hname _ _ hchildren⟩

end HasTags

/-! ## Plans of snippets -/

theorem fields_of_bareAll {ns ms : List Node} (h : bareAll ns = bareAll ms) :
    ns.map fields = ms.map fields := by
  have hfields : ∀ ks : List Node, (bareAll ks).map fields = ks.map fields := by
    intro ks
    rw [bareAll_eq_map, List.map_map]
    refine List.map_congr_left fun k _ => ?_
    rw [Function.comp, bare_eq]
  rw [← hfields, h, hfields]

theorem map_ofLeaf_congr {ns ms : List Node} (h : ns.map fields = ms.map fields) :
    ns.map Plan.ofLeaf = ms.map Plan.ofLeaf := by
  have hleaf : ∀ ks : List Node, ks.map Plan.ofLeaf =
      (ks.map fields).map fun f => Plan.ofLeaf { id := "", fields := f } := by
    intro ks
    rw [List.map_map]
    exact List.map_congr_left fun k _ => Plan.ofLeaf_congr rfl
  rw [hleaf, h, hleaf]

theorem ofList_ne_empty {cs : List Char} (h : cs ≠ []) : some (String.ofList cs) ≠ some "" := by
  intro hempty
  have hlist := congrArg String.toList (Option.some.inj hempty)
  rw [String.toList_ofList] at hlist
  exact h hlist

theorem leaf_of_mem_ofRun {cs : List Char} {l : Node} (h : l ∈ ofRun cs) :
    l.isLeaf = true ∧ l.fields.text ≠ some "" := by
  obtain ⟨s, hs, rfl⟩ := List.mem_map.1 h
  rw [Option.mem_toList, Text.trimmed?] at hs
  split at hs
  · cases hs
  · rename_i hne
    cases hs
    exact ⟨rfl, ofList_ne_empty (mt List.isEmpty_iff.2 hne)⟩

theorem leaf_of_mem_ownLeaves {text : Option String} {l : Node} (h : l ∈ ownLeaves text) :
    l.isLeaf = true ∧ l.fields.text ≠ some "" := by
  cases text with
  | none => cases h
  | some t =>
    rw [ownLeaves] at h
    split at h
    · rw [List.mem_singleton.1 h]
      exact ⟨rfl, ofList_ne_empty (List.cons_ne_nil _ _)⟩
    · exact leaf_of_mem_ofRun h

theorem leaf_of_mem_leaves {l : Node} (h : l ∈ n.leaves) :
    l.isLeaf = true ∧ l.fields.text ≠ some "" := by
  rcases List.mem_append.1 h with hown | hslot
  · exact leaf_of_mem_ownLeaves hown
  · rw [template_children] at hslot
    split at hslot
    · cases hslot
    · rw [List.mem_singleton.1 hslot]
      exact ⟨by decide, by decide⟩

/-- It makes no difference whether a text is the element's own or the only leaf in it. -/
theorem inner_ownText (k l : Node) {t : String} (hk : k.fields.text = some t) (ht : t ≠ "")
    (hl : l.fields = { type := textType, text := some t }) (id : String) (vs : List VNode) :
    Plan.inner k [] id vs = (Plan.runAll id vs [Plan.ofLeaf l]).1 := by
  have hown : (Props.ofNode k).textNodes = [.text t] := by
    show ((k.fields.text.filter (· != "")).map VNode.text).toList = _
    rw [hk, Option.filter_some, if_pos (by simpa using ht)]
    rfl
  have hplan : Plan.ofLeaf l = .text t := by
    rw [Plan.ofLeaf, type, hl]
    rfl
  rw [Plan.inner, hown, hplan, Plan.runAll_text, Plan.runAll_nil]
  rfl

theorem ofNode_element (hname : Token.IsName n.type.toList) {ms : List Markup}
    (hgives : GivesAll ms n.leaves) (imports : List Import) (g : IdSource) (place : Place)
    (attributes : List Attribute) (env : Environment) :
    ∃ text nodes plans,
      Plan.ofNode env (ofMarkup imports g (.element place n.type attributes ms)).1 =
        Plan.around env (elementNode imports g.next.1 place n.type attributes text nodes) plans ∧
      ∀ id vs, Plan.inner (elementNode imports g.next.1 place n.type attributes text nodes) plans
        id vs = (Plan.runAll id vs (n.leaves.map Plan.ofLeaf)).1 := by
  have htype : ∀ text nodes, Token.IsName
      (elementNode imports g.next.1 place n.type attributes text nodes).type.toList := by
    intro text nodes
    rw [type, elementNode_type]
    exact hname
  rcases ofMarkup_element imports g place n.type attributes ms with ⟨p, t, rfl, hm⟩ | hm
  · -- the only leaf is a text, which has become the element's own
    have hfields := fields_of_bareAll (hgives imports g)
    obtain ⟨l, hl⟩ := List.length_eq_one_iff.1
      (by rw [← List.length_map fields, ← hfields]; rfl : n.leaves.length = 1)
    rw [hl] at hfields
    have hleaf : l.fields = { type := textType, text := some t } := (List.cons.inj hfields).1.symm
    have hne : t ≠ "" := by
      have hl' := (leaf_of_mem_leaves (hl ▸ List.mem_singleton_self l : l ∈ n.leaves)).2
      rw [hleaf] at hl'
      exact fun ht => hl' (congrArg some ht)
    refine ⟨some t, [], [], ?_, fun id vs => ?_⟩
    · rw [hm]
      exact Plan.ofNode_eq_around (htype _ _) (by rw [elementNode]; rfl)
    · rw [hl]
      exact inner_ownText _ l rfl hne hleaf id vs
  · have hfields := fields_of_bareAll (hgives imports g.next.2)
    have hleaves : ∀ k ∈ (allOfMarkup imports g.next.2 ms).1, k.isLeaf = true := by
      intro k hk
      have hmem : k.fields ∈ n.leaves.map fields := hfields ▸ List.mem_map_of_mem hk
      obtain ⟨l, hl, hsame⟩ := List.mem_map.1 hmem
      have hleaf := (leaf_of_mem_leaves hl).1
      rw [isLeaf, isText, isExpression, type] at hleaf ⊢
      rwa [hsame] at hleaf
    refine ⟨none, (allOfMarkup imports g.next.2 ms).1, n.leaves.map Plan.ofLeaf, ?_,
      fun id vs => rfl⟩
    rw [hm]
    refine Plan.ofNode_eq_around (htype _ _) ?_
    rw [← map_ofLeaf_congr hfields]
    exact Plan.ofNodes_of_isLeaf hleaves

/-- What the tag and the import of a snippet make of an element. -/
def ofAttributes (n : Node) (attributes : List Attribute) : Node where
  id := ""
  fields := Fields.ofTag n.type attributes
  component := ComponentInfo.ofTag? n.snippetImports n.type

/-- A component is compiled to the frame that its tag is read as, around its text and, if it has
children, the slot. -/
theorem HasTags.compile {attributes : Bool → List Attribute} (h : n.HasTags attributes)
    (env : Environment) : ∃ closed m plans, n.compile env = Plan.around env m plans ∧
      Plan.SameFrame m (n.ofAttributes (attributes closed)) ∧
      ∀ id vs, Plan.inner m plans id vs = (Plan.runAll id vs (n.leaves.map Plan.ofLeaf)).1 := by
  obtain ⟨is, c, hprelude, hc, hnames⟩ := h.prelude h.markup_head
  obtain ⟨r, hr⟩ := h.markup_head
  have hrest : c.rest = n.template.markup defaultIndent 0 ++ [] := by rw [hc, List.append_nil]
  obtain ⟨closed, place, ms, helement, hgives⟩ := h.readsElement [] hrest
  obtain ⟨text, nodes, plans, hplan, hinner⟩ := ofNode_element h.name hgives is
    (.ofKey Tree.defaultKey) place (attributes closed) env
  have hend : (c.advance (n.template.markup defaultIndent 0).length).elements false = .ok [] := by
    refine elements_of_notMem ?_
    rw [advance_rest_append hrest]
    exact List.not_mem_nil
  have helements : c.elements true = .ok [_] := elements_cons (hc.trans hr) helement hend
  refine ⟨closed, _, plans, ?_, ?_, hinner⟩
  · rw [← hplan, Node.compile, Page.read, snippet, String.toList_ofList, hprelude]
    simp only [bind, Except.bind, helements]
    rfl
  · refine ⟨rfl, rfl, rfl, rfl, ?_⟩
    show ComponentInfo.ofTag? is n.type = ComponentInfo.ofTag? n.snippetImports n.type
    exact ComponentInfo.ofTag?_congr (Import.resolve?_congr hnames _)

theorem IsLegible.compile (h : n.IsLegible) (hanimation : n.fields.KeepsAnimation)
    (env : Environment) : ∃ m plans, n.compile env = Plan.around env m plans ∧
      Plan.SameFrame m n.frame ∧
      ∀ id vs, Plan.inner m plans id vs = (Plan.runAll id vs (n.leaves.map Plan.ofLeaf)).1 := by
  obtain ⟨_, m, plans, hcompile, hframe, hinner⟩ := h.hasTags.compile env
  have hstill := Fields.still_ofTag_written hanimation
  have hsame : Plan.SameFrame (n.ofAttributes n.fields.written) n.frame :=
    ⟨(congrArg Fields.type hstill :), (congrArg Fields.className hstill :),
      (congrArg Fields.style hstill :), (congrArg Fields.attributes hstill :), rfl⟩
  exact ⟨m, plans, hcompile, hframe.trans hsame, hinner⟩

/-! ## Serving -/

theorem ofLeaf_quote (t : String) :
    Plan.ofLeaf (expressionNode "" (String.ofList (Json.quote t.toList))) =
      .expression (String.ofList (Json.quote t.toList)) := by
  have hquote : Json.quote t.toList = '"' :: (t.toList.flatMap Json.escape ++ ['"']) := rfl
  have hslot : Text.trim (String.ofList (Json.quote t.toList)).toList ≠ slotName.toList := by
    rw [String.toList_ofList, trim_quote, hquote]
    exact fun h => absurd (List.cons.inj h).1 (by decide)
  have htype : expressionType ≠ textType := by decide
  rw [Plan.ofLeaf]
  exact (if_neg htype).trans (if_neg hslot)

theorem runAll_ownLeaves (text : Option String) : ∃ shown, ∀ id vs ps,
    (Plan.runAll id vs ((ownLeaves text).map Plan.ofLeaf ++ ps)).1 =
      shown ++ (Plan.runAll id vs ps).1 := by
  cases text with
  | none => exact ⟨[], fun _ _ _ => rfl⟩
  | some t =>
    unfold ownLeaves
    simp only
    split
    · refine ⟨[Plan.shown (String.ofList (Json.quote t.toList))], fun id vs ps => ?_⟩
      rw [List.map_singleton, ofLeaf_quote]
      exact Plan.runAll_expression id vs _ ps
    · unfold ofRun
      cases Text.trimmed? t.toList with
      | none => exact ⟨[], fun _ _ _ => rfl⟩
      | some s => exact ⟨[.text s], fun id vs ps => Plan.runAll_text id vs s ps⟩

/-- The plan of one version of a legible component and a plan of another version show the same just
when the first plan has a place for the children, or when there are no children to be shown. -/
theorem IsLegible.execute_iff {n₀ : Node} (h : n.IsLegible) (hkey : n₀.SameKey n)
    (hanimation₀ : n₀.fields.KeepsAnimation) (hanimation : n.fields.KeepsAnimation)
    {env : Environment} {plan : Plan} (hplan : n₀.compile env = .ok plan) :
    ∃ fresh, n.compile env = .ok fresh ∧ ∀ vs, (vs = [] ↔ n.children = []) →
      (plan.execute n.id vs = fresh.execute n.id vs ↔
        plan.IsIcon ∨ (n₀.children = [] → n.children = [])) := by
  obtain ⟨m₀, plans₀, hcompile₀, hframe₀, hinner₀⟩ :=
    (h.of_sameKey hkey.symm).compile hanimation₀ env
  obtain ⟨m, plans, hcompile, hframe, hinner⟩ := h.compile hanimation env
  have hframes : Plan.SameFrame m₀ m := by
    rw [hkey.frame] at hframe₀
    exact hframe₀.trans hframe.symm
  obtain ⟨fresh, hfresh, hexecute⟩ := Plan.around_congr hframes (hcompile₀ ▸ hplan) plans
  refine ⟨fresh, hcompile.trans hfresh, fun vs hvs => (hexecute _ _ _).trans (or_congr_right ?_)⟩
  obtain ⟨shown, hshown⟩ := runAll_ownLeaves n.text?
  have htext : n₀.text? = n.text? := by rw [text?, text?, hkey.text]
  have hslot : ∀ k : Node, (Plan.runAll n.id vs (k.template.children.map Plan.ofLeaf)).1 =
      if k.children = [] then [] else vs := by
    intro k
    rw [template_children]
    split
    · rw [List.map_nil, Plan.runAll_nil]
    · exact Plan.runAll_slot n.id vs
  rw [hinner₀, hinner, leaves, leaves, htext, List.map_append, List.map_append, hshown, hshown,
    List.append_cancel_left_eq, hslot, hslot]
  by_cases hnone₀ : n₀.children = [] <;> by_cases hnone : n.children = []
  · simp [hnone₀, hnone]
  · simpa [hnone₀, hnone] using fun hempty => hnone (hvs.1 hempty)
  · simpa [hnone₀, hnone] using hvs.2 hnone
  · simp [hnone₀, hnone]

/-- Whether the plan of one version of a component serves another version. Either both are compiled
from the same snippet, or they are legible and the plan has a place for the children if there are any
to be shown. -/
inductive Serves (n₀ : Node) (plan : Plan) (n : Node) : Prop
  | same (hanimation : n₀.fields.animation = n.fields.animation)
      (hchildren : n₀.children = [] ↔ n.children = [])
  | slotted (hlegible : n.IsLegible) (hanimation₀ : n₀.fields.KeepsAnimation)
      (hanimation : n.fields.KeepsAnimation)
      (hchildren : plan.IsIcon ∨ (n₀.children = [] → n.children = []))

/-- A plan shows what a plan of the version that it serves would show. -/
theorem Serves.execute {n₀ : Node} {plan : Plan} (h : n₀.Serves plan n) (hkey : n₀.SameKey n)
    {env : Environment} (hplan : n₀.compile env = .ok plan) :
    ∃ fresh, n.compile env = .ok fresh ∧ ∀ vs, (vs = [] ↔ n.children = []) →
      plan.execute n.id vs = fresh.execute n.id vs := by
  cases h with
  | same hanimation hchildren =>
    rw [compile_congr (hkey.snippet hanimation hchildren)] at hplan
    exact ⟨plan, hplan, fun _ _ => rfl⟩
  | slotted hlegible hanimation₀ hanimation hchildren =>
    obtain ⟨fresh, hfresh, hexecute⟩ := hlegible.execute_iff hkey hanimation₀ hanimation hplan
    exact ⟨fresh, hfresh, fun vs hvs => (hexecute vs hvs).2 hchildren⟩

end Node

end PageEditor
