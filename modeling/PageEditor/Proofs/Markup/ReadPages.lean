import PageEditor.Proofs.Markup.Imports
import PageEditor.Proofs.Markup.Rewritten
import PageEditor.Proofs.Markup.Unchanged

/-!
# Pages that were read

The nodes of a page that was read stand in its text, nothing but blanks and comments stands between
the top-level ones, and their ids tell them apart. No import is missing while all nodes stem from
them.
-/
set_option autoImplicit false

namespace PageEditor

open Cursor

variable {source : List Char} {imports : List Import} {ms : List Markup} {c stop : Cursor}

/-! ## Top-level elements -/

theorem joins_isTrivia : Joins IsTrivia := ⟨isTrivia_nil, IsTrivia.append⟩

theorem ReadsTop.head (h : ReadsTop c ms stop) : ∃ r, c.rest = '<' :: r := by
  cases h with
  | one hr => exact ⟨_, hr⟩
  | cons hr => exact ⟨_, hr⟩

theorem ReadsTop.end (h : ReadsTop c ms stop) : stop.elements false = .ok [] := by
  induction h with
  | one _ _ hend => exact hend
  | cons _ _ _ ih => exact ih

theorem ReadsTop.row {P : List Char → Prop} (hP : Joins P)
    (hskip : ∀ d : Cursor, d.skipTrivia.rest ≠ [] → P (d.upTo d.skipTrivia))
    (h : ReadsTop c ms stop) (hc : (ofText source).Leads c) : Row P source c ms stop := by
  induction h with
  | one hr hm _ =>
    exact .cons (Leads.refl _) (hP.upTo_self _) (.element hc hr hm)
      (.nil (Leads.refl _) (hP.upTo_self _))
  | @cons c after _ _ _ _ hr hm hms ih =>
    obtain ⟨r, hnext⟩ := hms.head
    have hafter := hc.trans hm.leads
    have hmore := ih (hafter.trans (leads_skipTrivia after))
    exact .cons (Leads.refl _) (hP.upTo_self _) (.element hc hr hm)
      (hmore.of_leads hP (leads_skipTrivia after) (hskip after (hnext ▸ List.cons_ne_nil _ _)))

theorem isLeaf_ofMarkup_element (imports : List Import) (g : IdSource) (place : Place)
    {tag : String} (htag : Token.IsName tag.toList) (attributes : List Attribute)
    (held : List Markup) :
    (Node.ofMarkup imports g (.element place tag attributes held)).1.isLeaf = false := by
  obtain ⟨_, _, hn⟩ := exists_ofMarkup_element imports place tag attributes g held
  rw [hn]
  exact isLeaf_elementNode htag

theorem isLeaf_of_readsElement {after : Cursor} {m : Markup} (h : ReadsElement c m after)
    (g : IdSource) : (Node.ofMarkup imports g m).1.isLeaf = false := by
  cases h with
  | closed htag => exact isLeaf_ofMarkup_element imports g _ (isName_of_openTag htag) _ _
  | element htag => exact isLeaf_ofMarkup_element imports g _ (isName_of_openTag htag) _ _

theorem ReadsTop.isLeaf (imports : List Import) (h : ReadsTop c ms stop) :
    ∀ g, ∀ n ∈ (Node.allOfMarkup imports g ms).1, n.isLeaf = false := by
  induction h with
  | one hr hm hend =>
    intro g n hn
    obtain rfl := List.mem_singleton.1 hn
    exact isLeaf_of_readsElement hm g
  | cons hr hm hms ih =>
    intro g n hn
    rw [allOfMarkup_cons] at hn
    rcases List.mem_cons.1 hn with rfl | hn
    · exact isLeaf_of_readsElement hm g
    · exact ih _ n hn

/-! ## The nodes of a page -/

theorem allImprinted_ofParts (imports : List Import) (ids : IdSource) (h : ReadsTop c ms stop)
    (hc : (ofText source).Leads c) :
    Node.AllImprinted source (Node.nodesAll (Page.ofParts source imports ms ids).tree.root.children) := by
  have hwell := Page.wellFormed_ofParts source imports ms ids
  have hrow := h.row joins_isTrivia (fun _ hne => isTrivia_upTo_skipTrivia hne) hc
  refine ⟨fun n hn => (isMade_allOfMarkup source imports ids ms hrow n hn).imprint, ?_, ?_⟩
  · intro k hk k' hk' hid
    refine hwell.indexed.eq_of_id ?_ ?_ hid
    · exact Node.mem_nodes_of_below hk
    · exact Node.mem_nodes_of_below hk'
  · intro k hk m hm
    exact Node.nodesAll_subset _ k hk m (Node.mem_nodes_of_child hm)

theorem Page.wellFormed_of_read {source key : String} {p : Page} (h : Page.read source key = .ok p) :
    p.tree.WellFormed := by
  obtain ⟨imports, _, ms, _, _, rfl⟩ := Page.read_eq_ok h
  exact Page.wellFormed_ofParts source.toList imports ms (.ofKey key)

theorem isLeaf_of_read {source key : String} {p : Page} (hp : Page.read source key = .ok p) :
    ∀ n ∈ p.tree.root.children, n.isLeaf = false := by
  obtain ⟨imports, c, ms, _, helements, rfl⟩ := Page.read_eq_ok hp
  by_cases hms : ms = []
  · subst hms
    rintro _ ⟨⟩
  · obtain ⟨e, htop⟩ := readsTop_of_elements _ true c ms (Nat.le_refl _) helements hms
    exact htop.isLeaf imports (.ofKey key)

/-! ## Imports -/

mutual

theorem neededAll_eq_flatMap : (n : Node) →
    n.neededAll = n.nodes.flatMap fun m => m.needed?.toList
  | ⟨id, fields, component, origin, children⟩ => by
    rw [Node.neededAll, Node.nodes, List.flatMap_cons, neededIn_eq_flatMap children]

theorem neededIn_eq_flatMap : (ns : List Node) →
    Node.neededIn ns = (Node.nodesAll ns).flatMap fun m => m.needed?.toList
  | [] => rfl
  | n :: ns => by
    rw [Node.neededIn, Node.nodesAll, List.flatMap_append, neededAll_eq_flatMap n,
      neededIn_eq_flatMap ns]

end

theorem needed?_of_stemsFrom {known : List Node} {n : Node} (h : n.StemsFrom known) :
    ∃ k ∈ known, n.needed? = k.needed? := by
  obtain ⟨k, hk, hfields, hcomponent, _⟩ := h
  refine ⟨k, hk, ?_⟩
  rw [Node.needed?, Node.needed?, Node.component?, Node.component?, Node.type, Node.type, hfields,
    hcomponent]

theorem missing_of_stemsFrom {t : Tree} {ids : IdSource} {is' : List Import}
    (h : (Page.ofParts source imports ms ids).tree.StemsFrom t)
    (hnames : is'.map Import.names = imports.map Import.names) : t.missing is' = [] := by
  refine missing_of_allNamed ?_
  intro x hx
  rw [Import.resolve?_congr hnames]
  rw [neededAll_eq_flatMap, Node.nodes_eq, List.flatMap_cons] at hx
  rcases List.mem_append.1 hx with hx | hx
  · obtain ⟨cs, hroot⟩ := h.root
    rw [hroot] at hx
    cases hx
  · obtain ⟨n, hn, hx⟩ := List.mem_flatMap.1 hx
    obtain ⟨k, hk, hneeded⟩ := needed?_of_stemsFrom (h.below n hn)
    refine allNamed_allOfMarkup imports ids ms x ?_
    rw [neededIn_eq_flatMap]
    exact List.mem_flatMap.2 ⟨k, hk, hneeded ▸ hx⟩

end PageEditor
