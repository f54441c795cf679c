import PageEditor.Proofs.Markup.ReadBack
import PageEditor.Proofs.Markup.Reopening

/-!
# Printed pages

A canonical tree is read back from what is printed of it. The elements at the top are printed with
line feeds between them and without imports in front of them.
-/
set_option autoImplicit false

namespace PageEditor

open Cursor

variable {c : Cursor} {n : Node} {ns : List Node}

/-! ## Pages -/

namespace Cursor

theorem prelude_of_head (h : ∀ x, c.rest.head? = some x → x = '<') : c.prelude = .ok ([], c) := by
  have hskip : c.skipTrivia = c := by
    cases hc : c.rest with
    | nil => exact skipTrivia_of_nil hc
    | cons x r =>
      obtain rfl := h x (by rw [hc]; rfl)
      exact skipTrivia_of_less hc
  have hends : EndsImports c.rest := endsImports_of_head fun x hx => by
    rw [skipTrivia_rest (show (ofText c.rest).rest = c.rest from rfl), hskip] at hx
    exact h x hx
  rw [prelude_nil (hends.no_import rfl), hskip]

theorem elements_of_isElementOf {e rest : List Char} {first : Bool} (he : IsElementOf n e)
    (hc : c.rest = e ++ rest)
    (hmore : ∀ d : Cursor, d.rest = rest → ∃ ms, d.elements false = .ok ms ∧ GivesAll ms ns) :
    ∃ ms, c.elements first = .ok ms ∧ GivesAll ms (n :: ns) := by
  obtain ⟨r, hr⟩ := he.head
  obtain ⟨m, hm, hgives⟩ := he.reads c rest hc
  obtain ⟨ms, hms, hall⟩ := hmore _ (advance_rest_append hc)
  exact ⟨m :: ms, elements_cons (by rw [hc, hr]; rfl) hm hms, hgives.cons hall⟩

end Cursor

theorem read_of_isElementOf {e : List Char} (he : IsElementOf n e) (key : String) :
    ∃ p m, Page.read (String.ofList e) key = .ok p ∧ p.tree.root.children = [m] ∧
      m.bare = n.bare := by
  have hprelude := prelude_of_head (c := ofText e) (by
    obtain ⟨r, hr⟩ := he.head
    rw [hr]
    rintro _ ⟨⟩
    rfl)
  have hend : ∀ d : Cursor, d.rest = [] → ∃ ms, d.elements false = .ok ms ∧ GivesAll ms [] :=
    fun d hd => ⟨[], elements_of_notMem (by rw [hd]; exact List.not_mem_nil), givesAll_nil⟩
  obtain ⟨ms, hms, hgives⟩ : ∃ ms, (ofText e).elements true = .ok ms ∧ GivesAll ms [n] :=
    elements_of_isElementOf he (List.append_nil _).symm hend
  have hread : Page.read (String.ofList e) key = .ok (Page.ofParts e [] ms (.ofKey key)) := by
    rw [Page.read, String.toList_ofList, hprelude]
    simp only [bind, Except.bind, hms]
    rfl
  have hchildren : Node.bareAll (Page.ofParts e [] ms (.ofKey key)).tree.root.children =
      Node.bareAll [n] := hgives [] (.ofKey key)
  rw [Node.bareAll_eq_map] at hchildren
  obtain ⟨m, hroot, hbare⟩ := List.map_eq_singleton_iff.1 hchildren
  exact ⟨_, m, hread, hroot, hbare⟩

theorem Page.first_of_read {source key : String} {p : Page} {e : Node} {r : List Char}
    (hsource : source.toList = '<' :: r) (hp : Page.read source key = .ok p)
    (he : p.tree.root.children.head? = some e) :
    ∃ imports g m more after, ReadsElement (ofText source.toList) m after ∧
      after.elements false = .ok more ∧ e = (Node.ofMarkup imports g m).1 := by
  have hrest : (ofText source.toList).rest = '<' :: r := hsource
  have hprelude := prelude_of_head (c := ofText source.toList) (by
    rw [hrest]
    rintro _ ⟨⟩
    rfl)
  simp only [Page.read, hprelude, bind, Except.bind] at hp
  split at hp
  · cases hp
  rename_i top htop
  cases hp
  rcases elements_eq_ok htop with rfl | ⟨m, more, after, _, rfl, _, hm, hmore⟩
  · cases he
  · rw [skipTrivia_of_less hrest] at hm
    exact ⟨_, _, m, more, after, hm, hmore, (Option.some.inj he).symm⟩

namespace Node

theorem isElementOf_top {ns : List Node} (helements : ∀ n ∈ ns, n.isLeaf = false)
    (hcanonical : ∀ m ∈ nodesAll ns, m.IsCanonical) :
    ∀ n ∈ ns, IsElementOf n (n.markup defaultIndent 0) := fun n hn =>
  isElementOf_markup 0 n (fun m hm => hcanonical m (nodesAll_subset ns n (mem_nodesAll hn) m hm))
    (helements n hn)

theorem elements_moreTopLines (ns : List Node)
    (hns : ∀ n ∈ ns, IsElementOf n (n.markup defaultIndent 0)) :
    ∀ c : Cursor, c.rest = moreTopLines defaultIndent 0 ns →
      ∃ ms, c.elements false = .ok ms ∧ GivesAll ms ns := by
  induction ns with
  | nil =>
    intro c hc
    exact ⟨[], elements_of_notMem (by rw [hc]; exact List.not_mem_nil), givesAll_nil⟩
  | cons n ns ih =>
    intro c hc
    have hfeed : IsTrivia ['\n'] := isTrivia_of_blanks (by decide)
    have hrest : c.rest = ['\n'] ++ (n.markup defaultIndent 0 ++ moreTopLines defaultIndent 0 ns) := by
      rw [hc, moreTopLines]
      rfl
    rw [elements_congr (hfeed c _ hrest)]
    exact elements_of_isElementOf (hns n List.mem_cons_self) (advance_rest_append hrest)
      (ih fun m hm => hns m (List.mem_cons_of_mem n hm))

theorem elements_topLines (ns : List Node)
    (hns : ∀ n ∈ ns, IsElementOf n (n.markup defaultIndent 0))
    (hc : c.rest = topLines defaultIndent 0 ns) :
    ∃ ms, c.elements true = .ok ms ∧ GivesAll ms ns := by
  cases ns with
  | nil => exact ⟨[], elements_of_nil (by rw [skipTrivia_of_nil hc]; exact hc), givesAll_nil⟩
  | cons n ns =>
    exact elements_of_isElementOf (hns n List.mem_cons_self) hc
      (elements_moreTopLines ns fun m hm => hns m (List.mem_cons_of_mem n hm))

theorem head_topLines (ns : List Node)
    (hns : ∀ n ∈ ns, IsElementOf n (n.markup defaultIndent 0)) :
    ∀ x, (topLines defaultIndent 0 ns).head? = some x → x = '<' := by
  intro x hx
  cases ns with
  | nil => cases hx
  | cons n ns =>
    obtain ⟨r, hr⟩ := (hns n List.mem_cons_self).head
    rw [topLines, hr] at hx
    cases hx
    rfl

theorem markup_root {n : Node} (htype : n.type = rootType) (indent : List Char) (depth : Nat) :
    n.markup indent depth = topLines indent depth n.children := by
  obtain ⟨id, fields, component, origin, children⟩ := n
  simp only [type] at htype
  rw [markup.eq_def]
  simp only [htype, if_true]

theorem IsMade.component {source : List Char} {imports : List Import} {n : Node}
    (h : n.IsMade source imports) :
    n.component = if n.isLeaf then none else ComponentInfo.ofTag? imports n.type := by
  obtain ⟨g, m, s, e, rfl, hm⟩ := h
  cases hm with
  | text => rfl
  | expression => rfl
  | element _ _ hm =>
    -- an element has the name of its open tag, which is no leaf's
    have helement : ∀ place tag attributes held, Token.IsName tag.toList →
        (ofMarkup imports g (.element place tag attributes held)).1.component =
          if (ofMarkup imports g (.element place tag attributes held)).1.isLeaf then none
          else ComponentInfo.ofTag? imports
            (ofMarkup imports g (.element place tag attributes held)).1.type := by
      intro place tag attributes held hname
      have hleaf : (ofMarkup imports g (.element place tag attributes held)).1.isLeaf = false :=
        isLeaf_of_isName (by rw [type_ofMarkup_element]; exact hname)
      rw [hleaf, type_ofMarkup_element, component_ofMarkup_element]
      rfl
    cases hm with
    | closed htag => exact helement _ _ _ _ (isName_of_openTag htag)
    | element htag => exact helement _ _ _ _ (isName_of_openTag htag)

end Node

theorem isMade_of_read {source key : String} {p : Page} (h : Page.read source key = .ok p) :
    ∀ n ∈ Node.nodesAll p.tree.root.children, n.IsMade source.toList p.imports := by
  obtain ⟨imports, c, ms, hprelude, helements, rfl⟩ := Page.read_eq_ok h
  obtain ⟨s, e, _, _, _, hrow⟩ := row_of_read hprelude helements
  exact isMade_allOfMarkup source.toList imports (.ofKey key) ms hrow

/-- A canonical tree is read back from what is printed of it, but for the ids and the places of its
nodes: the types, classes, styles, attributes and texts are the same ones, and so are the children.
What the tags stand for is what they stand for without imports, since none are printed. -/
theorem read_print {t : Tree} (h : t.IsCanonical) (key : String) :
    ∃ p, Page.read (String.ofList t.print) key = .ok p ∧ p.imports = [] ∧
      p.tree.root.bare = { t.root.bare with fields := { type := rootType } } ∧
      ∀ n ∈ Node.nodesAll p.tree.root.children,
        n.component = if n.isLeaf then none else ComponentInfo.ofTag? [] n.type := by
  have hns := Node.isElementOf_top h.elements h.nodes
  have hprint : t.print = Node.topLines defaultIndent 0 t.root.children :=
    Node.markup_root h.type _ _
  have hprelude := prelude_of_head (c := ofText t.print) (hprint ▸ Node.head_topLines _ hns)
  obtain ⟨ms, hms, hgives⟩ := Node.elements_topLines (c := ofText t.print) _ hns hprint
  have hread : Page.read (String.ofList t.print) key =
      .ok (Page.ofParts t.print [] ms (.ofKey key)) := by
    rw [Page.read, String.toList_ofList, hprelude]
    simp only [bind, Except.bind, hms]
    rfl
  refine ⟨_, hread, rfl, ?_, fun n hn => (isMade_of_read hread n hn).component⟩
  rw [Node.bare_eq, Node.bare_eq]
  have hchildren : Node.bareAll (Page.ofParts t.print [] ms (.ofKey key)).tree.root.children =
      Node.bareAll t.root.children := hgives [] (.ofKey key)
  rw [hchildren]
  rfl

/-! ## A canonical page -/

def cardHeading : Node :=
  { id := "heading", fields := { type := "ui.Title", text := some "Hello & welcome" } }

def cardName : Node :=
  { id := "name", fields := { type := expressionType, text := some "user[\"name\x7d\"]" } }

def cardGreeting : Node :=
  { id := "greeting", fields := { type := textType, text := some "Dear\n  reader" } }

def card : Node where
  id := "card"
  fields :=
    { type := "div", className := "p-4 'card'"
      style := .ofList
        [("width", "-1.5"), ("color", "\x7baccent\x7d"), ("--gap", "\x7b\"2\"\x7d"), ("font", "1 em")]
      attributes := .ofList
        [("hidden", Value.flag), ("on-click", "\x7b() => open(\"\x7d\")\x7d"), ("title", "<b>")] }
  children := [cardHeading, cardGreeting, cardName]

def cardTree : Tree :=
  .around { Node.root with children := [card, { id := "rule", fields := { type := "hr" } }] }
    (.ofKey "k")

theorem isCanonical_of_type {type : String} (hname : Token.IsName type.toList)
    (text : Option String) : ({ type, text } : Fields).IsCanonical := by
  refine ⟨hname, ⟨List.not_mem_nil, .nil⟩, ?_, ?_, ?_, ?_, rfl⟩ <;> rintro _ ⟨⟩

theorem areStyle_card : Value.AreStyle card.fields.style.entries := by
  have hentries : card.fields.style.entries =
      [("width", "-1.5"), ("color", "\x7baccent\x7d"), ("--gap", "\x7b\"2\"\x7d"),
        ("font", "1 em")] := rfl
  rw [Value.AreStyle, hentries]
  simp only [List.forall_mem_cons]
  refine ⟨⟨.name ⟨_, _, rfl, by decide, by decide⟩ (by decide), .number ⟨"1.5".toList, ?_⟩⟩,
    ⟨.name ⟨_, _, rfl, by decide, by decide⟩ (by decide),
      .name "accent" ⟨_, _, rfl, by decide, by decide⟩ (by decide)⟩,
    ⟨.string (by decide) (.of_plain (by decide) (by decide)),
      .numeral "2" ?_ (by decide +kernel) (by decide)⟩,
    ⟨.name ⟨_, _, rfl, by decide, by decide⟩ (by decide), .string ?_ (by decide +kernel) (by decide)⟩,
    List.forall_mem_nil _⟩
  · exact ⟨by decide, by decide, .inr rfl⟩
  · exact Value.isClean_of_all (by decide)
  · exact Value.isClean_of_all (by decide)

theorem isCanonical_card : card.fields.IsCanonical := by
  have hentries : card.fields.attributes.entries =
      [("hidden", Value.flag), ("on-click", "\x7b() => open(\"\x7d\")\x7d"), ("title", "<b>")] := rfl
  refine ⟨⟨_, _, rfl, by decide, by decide⟩, ⟨by decide, .of_plain (by decide) (by decide)⟩,
    areStyle_card, ?_, ?_, ?_, rfl⟩
  all_goals
    rw [hentries]
    simp only [List.forall_mem_cons]
  · exact ⟨⟨⟨_, _, rfl, by decide, by decide⟩, by decide⟩,
      ⟨⟨_, _, rfl, by decide, by decide⟩, by decide⟩,
      ⟨⟨_, _, rfl, by decide, by decide⟩, by decide⟩, List.forall_mem_nil _⟩
  · exact ⟨fun h => absurd h (by decide), fun h => absurd h (by decide),
      fun _ => ⟨by decide, .of_plain (by decide) (by decide)⟩, List.forall_mem_nil _⟩
  · exact ⟨fun _ => by decide, fun _ => by decide, fun h => absurd h (by decide),
      List.forall_mem_nil _⟩

theorem isCanonical_cardTree : cardTree.IsCanonical := by
  refine ⟨rfl, by decide, ?_⟩
  have hnodes : Node.nodesAll cardTree.root.children =
    [card, cardHeading, cardGreeting, cardName, { id := "rule", fields := { type := "hr" } }] := rfl
  rw [hnodes]
  simp only [List.forall_mem_cons]
  refine ⟨?_, ?_, ?_, ?_, ?_, List.forall_mem_nil _⟩
  · refine .element isCanonical_card (by rintro _ ⟨⟩) (by rintro _ ⟨⟩) ?_
    exact ⟨by decide, by decide, trivial⟩
  · refine .element (isCanonical_of_type ⟨_, _, rfl, by decide, by decide⟩ _) ?_ (by rintro _ ⟨⟩)
      trivial
    rintro _ ⟨⟩
    exact ⟨rfl, by decide, by decide, by decide⟩
  · exact .text _ rfl rfl ⟨by decide, by decide, by decide⟩
  · exact .expression _ rfl rfl (by decide)
  · exact .element (isCanonical_of_type ⟨_, _, rfl, by decide, by decide⟩ none) (by rintro _ ⟨⟩)
      (by rintro _ ⟨⟩) trivial

theorem read_print_cardTree : cardTree.IsCanonical ∧ ∃ p,
    Page.read (String.ofList cardTree.print) "k" = .ok p ∧
      p.tree.root.bare = { cardTree.root.bare with fields := { type := rootType } } := by
  obtain ⟨p, hread, _, hbare, _⟩ := read_print isCanonical_cardTree "k"
  exact ⟨isCanonical_cardTree, p, hread, hbare⟩

end PageEditor
