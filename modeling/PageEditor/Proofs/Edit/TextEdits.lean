import PageEditor.Proofs.Edit.Reloading

/-!
# Saved texts

What a committed text is shown as when the page is saved and loaded again. A text with a character
that could be taken for markup is printed as an expression that quotes it. An expression is shown as
it is written, so such a text comes back with braces and quotes around it; every other text comes back
as it is.
-/
set_option autoImplicit false

namespace PageEditor

/-! ## Tags of components -/

/-- Whether a tag is the name of a component: it begins with a capital letter or has a dot. -/
def namesComponent (tag : String) : Bool :=
  tag.toList.head?.any Char.isUpper || tag.toList.contains '.'

theorem contains_dot (cs : List Char) :
    cs.contains '.' = !(cs.dropWhile (· != '.')).isEmpty := by
  induction cs with
  | nil => rfl
  | cons c cs ih =>
    by_cases hc : c = '.'
    · subst hc
      rfl
    · rw [List.dropWhile_cons_of_pos (by simpa using hc), ← ih, List.contains_cons,
        beq_false_of_ne (Ne.symm hc), Bool.false_or]

theorem ComponentInfo.ofTag?_eq_none_iff {imports : List Import} {tag : String} :
    ofTag? imports tag = none ↔ namesComponent tag = false := by
  rw [namesComponent, contains_dot]
  simp only [ofTag?]
  cases tag.toList.dropWhile (· != '.') with
  | nil =>
    cases tag.toList.head?.any Char.isUpper with
    | false => simp
    | true =>
      simp only [true_or, if_true]
      split <;> simp
  | cons c r =>
    simp only [Option.isSome_some, or_true, if_true]
    split <;> simp

theorem ComponentInfo.isComponent_of_ofTag? {imports : List Import} {tag : String}
    {c : ComponentInfo} (h : ofTag? imports tag = some c) : c.isComponent = true := by
  simp only [ofTag?, Option.ite_none_right_eq_some] at h
  obtain ⟨_, h⟩ := h
  split at h <;> cases h <;> rfl

/-! ## What an element shows -/

namespace Resolver

variable {n : Node} (r : Resolver) (previews : Previews) (s : RenderState)

theorem children_animated (n : Node) (v : VNode) : (n.animated previews v).children = v.children := by
  unfold Node.animated
  split
  · cases v <;> rfl
  · rfl

theorem node_of_element (hleaf : n.isLeaf = false) :
    (r.node previews s n).1 = n.animated previews
      (if n.isComponent then
        r.resolve (r.nodes previews s n.children).2 n (r.nodes previews s n.children).1
      else (n.primitive (r.nodes previews s n.children).1,
        (r.nodes previews s n.children).2)).1 := by
  obtain ⟨id, fields, component, origin, children⟩ := n
  simp only [Node.isLeaf, Node.isText, Node.isExpression, Node.type, Bool.or_eq_false_iff,
    beq_eq_false_iff_ne] at hleaf
  rw [node]
  simp only [if_neg hleaf.1, if_neg hleaf.2]

theorem children_node (hleaf : n.isLeaf = false) (hcomponent : n.component? = none) :
    (r.node previews s n).1.children =
      (n.text?.map VNode.text).toList ++ (r.nodes previews s n.children).1 := by
  have hno : n.isComponent = false := by rw [Node.isComponent, hcomponent]; rfl
  rw [node_of_element r previews s hleaf, hno, if_neg Bool.false_ne_true, children_animated]
  rfl

theorem node_of_expression {e : String} (hn : n.fields = { type := expressionType, text := some e }) :
    (r.node previews s n).1 = Plan.shown e := by
  have htext : expressionType ≠ textType := by decide
  obtain ⟨id, fields, component, origin, children⟩ := n
  simp only at hn
  subst hn
  rw [node]
  simp only [if_neg htext, if_true, Option.getD_some]

/-- With no component at hand and nothing compiled, a component shows nothing of what it holds. -/
theorem children_node_of_bare (hleaf : n.isLeaf = false) (hcomponent : n.isComponent = true) :
    ((⟨⟨{}, {}⟩, {}⟩ : Resolver).node previews s n).1.children = [] := by
  rw [node_of_element _ previews s hleaf, hcomponent, if_pos rfl, children_animated]
  obtain ⟨c, hc⟩ := Option.isSome_iff_exists.1 hcomponent
  have hdirect : (⟨{}, {}⟩ : Environment).direct? c = none := by
    rw [Environment.direct?]
    split <;> rfl
  rw [resolve, hc]
  simp only [hdirect]
  split <;> rfl

end Resolver

namespace Node

variable {imports : List Import} {n m : Node} {t : String}

/-- Every resolver shows the text as all that the element holds. -/
def Shows (n : Node) (t : String) : Prop :=
  ∀ (r : Resolver) (previews : Previews) (s : RenderState),
    (r.node previews s n).1.children = [.text t]

theorem shows_of_text (hleaf : n.isLeaf = false) (hcomponent : n.component? = none)
    (hchildren : n.children = []) (htext : n.fields.text = some t) (ht : t ≠ "") : n.Shows t := by
  intro r previews s
  rw [Resolver.children_node r previews s hleaf hcomponent, hchildren,
    text?_eq_some (by rw [htext, Option.getD_some]) ht]
  rfl

/-- The element that is read where an element with a text was written shows the text if its tag is no
component's and the text is a run of text; a text that has changed is shown only then. -/
theorem ReadsAs.shows (h : n.ReadsAs imports m) (hchildren : n.children = [])
    (htext : n.fields.text = some t) (ht : t ≠ "") (htrim : Text.trim t.toList = t.toList) :
    (namesComponent n.type = false ∧ Value.IsRun t → m.Shows t) ∧
      (n.textChanged = true → m.Shows t → namesComponent n.type = false ∧ Value.IsRun t) := by
  have hleaf := h.isLeaf
  have hcomponent := h.component
  have hretains := h.retains hchildren htext ht htrim
  cases htag : namesComponent n.type with
  | true =>
    refine ⟨fun hno => absurd hno.1 (by simp), fun _ hshows => ?_⟩
    cases hc : ComponentInfo.ofTag? imports n.type with
    | none =>
      rw [ComponentInfo.ofTag?_eq_none_iff.1 hc] at htag
      cases htag
    | some c =>
      have hisComponent : m.isComponent = true := by
        rw [isComponent, component?, hcomponent, hc, Option.filter_some,
          ComponentInfo.isComponent_of_ofTag? hc]
        rfl
      have hview := hshows ⟨⟨{}, {}⟩, {}⟩ .empty ⟨{}, {}⟩
      rw [Resolver.children_node_of_bare _ _ hleaf hisComponent] at hview
      cases hview
  | false =>
    rw [ComponentInfo.ofTag?_eq_none_iff.2 htag] at hcomponent
    have hnone : m.component? = none := by rw [component?, hcomponent]; rfl
    cases hretains with
    | run hown hheld hrun =>
      refine ⟨fun _ => shows_of_text hleaf hnone hheld hown ht, fun hchanged _ => ⟨rfl, ?_⟩⟩
      exact hrun.resolve_right (by rw [hchanged]; decide)
    | @quoted c hown hheld hc hno =>
      refine ⟨fun hrun => absurd hrun.2 hno, fun _ hshows => ?_⟩
      have hview := hshows ⟨⟨{}, {}⟩, {}⟩ .empty ⟨{}, {}⟩
      rw [Resolver.children_node _ _ _ hleaf hnone, hheld, text?, hown] at hview
      have hquoted := (List.cons.inj hview).1
      rw [Resolver.node_of_expression _ _ _ hc, Plan.shown, String.toList_ofList] at hquoted
      exact absurd (VNode.text.inj hquoted) (Value.quoted_ne t)

end Node

namespace Session

variable {s : Session}

/-- In every page of a session that one can get to, a text without blanks at its ends is committed for
an element that is no component and holds no children. Before the page is saved the text is what the
element shows. If what has been edited can be read at all, the element is there at its place when the
page is saved and loaded again. It shows the text if the text is a run of text and the tag is no
component's, and if the edit has changed anything then only if this is so. -/
theorem shows_reloaded (hs : s.Reachable) {t : Tree} (hmode : s.mode = .page t) {k : Nat}
    {ks : List Nat} {n : Node} (hn : t.root.elementAt? (k :: ks) = some n)
    (hchildren : n.children = []) (hprimitive : n.component? = none) {text : String}
    (htext : text ≠ "") (htrim : Text.trim text.toList = text.toList) :
    ∃ t' n', (s.commit [⟨⟨n.id, .text⟩, text⟩]).2.mode = .page t' ∧
      t'.root.elementAt? (k :: ks) = some n' ∧ n'.Shows text ∧
      (t'.Legible s.source → ∀ defaults undoLevels, ∃ u m,
        (load (s.commit [⟨⟨n.id, .text⟩, text⟩]).2.save defaults undoLevels).mode = .page u ∧
        u.root.elementAt? (k :: ks) = some m ∧
        (namesComponent n.type = false ∧ Value.IsRun text → m.Shows text) ∧
        (n'.textChanged = true → m.Shows text →
          namesComponent n.type = false ∧ Value.IsRun text)) := by
  obtain ⟨t', _, hmode', hn', rfl, hreread⟩ := hs.commit_reread hmode hn .text text
  have hleaf := Node.isLeaf_of_elementAt? hn'
  refine ⟨t', _, hmode', hn', Node.shows_of_text hleaf hprimitive hchildren rfl htext,
    fun hlegible defaults undoLevels => ?_⟩
  obtain ⟨q, m, hq, hm, hreads⟩ := hreread hlegible
  exact ⟨q.tree, m, mode_load hq defaults undoLevels, hm,
    hreads.shows hchildren rfl htext htrim⟩

/-- New text for the first item of the list. -/
def itemEdit : PropertyEdit := ⟨⟨pageId 2, .text⟩, "two \"items\""⟩

theorem shows_reloaded_item : ∃ u m,
    (load ((load listPage).commit [itemEdit]).2.save).mode = .page u ∧
      u.root.elementAt? [0, 0] = some m ∧ m.Shows "two \"items\"" := by
  have hok : (Page.read listPage).isOk = true := by decide +kernel
  obtain ⟨p, hp⟩ := isOk_iff.1 hok
  have hload := mode_load hp .standard 100
  have hplace : ((load listPage).tree?.bind (·.root.elementAt? [0, 0])).any
      (fun n => n.id == pageId 2 && n.children.isEmpty && n.component?.isNone
        && !namesComponent n.type) = true := by decide +kernel
  rw [tree?, hload, Option.any_eq_true] at hplace
  obtain ⟨n, hn, hitem⟩ := hplace
  simp only [Bool.and_eq_true, beq_iff_eq, List.isEmpty_iff, Option.isNone_iff_eq_none,
    Bool.not_eq_true'] at hitem
  obtain ⟨⟨⟨hid, hchildren⟩, hprimitive⟩, htag⟩ := hitem
  have hrun : Value.IsRun "two \"items\"" := ⟨by decide, by decide, by decide⟩
  obtain ⟨t, _, hmode, _, _, hreloaded⟩ := shows_reloaded (.load listPage .standard 100) hload hn
    hchildren hprimitive hrun.nonempty hrun.trimmed
  rw [hid] at hmode hreloaded
  have hlegible : ((load listPage).commit [itemEdit]).2.tree?.all
      (fun t => decide (t.Legible listPage)) = true := by decide +kernel
  rw [tree?, itemEdit, hmode] at hlegible
  obtain ⟨u, m, hu, hm, hshows, _⟩ := hreloaded (of_decide_eq_true hlegible) .standard 100
  exact ⟨u, m, hu, hm, hshows ⟨htag, hrun⟩⟩

/-- The texts among what a node shows, as the standard environment shows it. -/
def shownTexts (n : Node) : List String :=
  ((⟨.standard, {}⟩ : Resolver).node .empty ⟨{}, {}⟩ n).1.children.map fun
    | .text t => t
    | _ => ""

/-- Texts that are shown with braces and quotes around them once the page has been loaded again. -/
def markedTexts : List String := ["a < b", "a > b", "\x7ba", "a\x7d"]

theorem not_shows_reloaded_marked :
    markedTexts ≠ [] ∧ ∀ text ∈ markedTexts, text ≠ "" ∧ Text.trim text.toList = text.toList ∧
      ((load "<p>a</p>").tree?.bind (·.root.elementAt? [0])).any
        (fun n => n.id == pageId 1 && n.children.isEmpty && n.component?.isNone) = true ∧
      ∃ m, (load ((load "<p>a</p>").commit [⟨⟨pageId 1, .text⟩, text⟩]).2.save).tree?.bind
        (·.root.elementAt? [0]) = some m ∧ ¬m.Shows text := by
  refine ⟨List.cons_ne_nil _ _, fun text htext => ?_⟩
  have hall : ∀ text ∈ markedTexts, text ≠ "" ∧ Text.trim text.toList = text.toList ∧
      ((load "<p>a</p>").tree?.bind (·.root.elementAt? [0])).any
        (fun n => n.id == pageId 1 && n.children.isEmpty && n.component?.isNone) = true ∧
      ((load ((load "<p>a</p>").commit [⟨⟨pageId 1, .text⟩, text⟩]).2.save).tree?.bind
        (·.root.elementAt? [0])).any (fun m => shownTexts m != [text]) = true := by decide +kernel
  obtain ⟨hne, htrim, hplace, hshown⟩ := hall text htext
  obtain ⟨m, hm, hother⟩ := (Option.any_eq_true _ _).1 hshown
  refine ⟨hne, htrim, hplace, m, hm, fun hshows => ?_⟩
  rw [shownTexts, hshows] at hother
  simp at hother

end Session

end PageEditor
