import PageEditor.Proofs.Markup.Cutting
import PageEditor.Proofs.Markup.Lossless
import PageEditor.Proofs.Tree.Origins

/-!
# Nodes that fit a text

A node fits a text if the text has its fragment at its place and its children with origins tile its
content. The nodes of a page that was read fit its text, and so does a tree that remembers no more
than such a page. Then all origins are accepted, children are out of order only if one of them has no
origin, and no cut that the patcher makes fails.
-/
set_option autoImplicit false

namespace PageEditor

variable {source : List Char}

/-! ## Nodes that stand where they stood -/

/-- Any text may stand beside the nodes. -/
def Anything (_ : List Char) : Prop := True

/-- The origin of a node fits the text, and its children with origins tile its content. -/
structure Node.Fits (source : List Char) (n : Node) : Prop where
  fragment : ∀ o, n.origin = some o →
    Text.slice source o.place.span = some o.place.fragment.toList
  content : ∀ o content, n.origin = some o → o.place.content = some content →
    (∃ x, Text.slice source o.place.openTag = some x) ∧
    (∃ x, Text.slice source ⟨content.stop, o.place.span.stop⟩ = some x) ∧
    Tiles Anything source content n.placed
  solid : (∀ o, n.origin = some o → o.place.content = none) → n.placed = []

theorem Tiles.origins {P : List Char → Prop} {ns : List Node} : ∀ {region : Span},
    Tiles P source region ns → ∀ n ∈ ns, n.origin.isSome := by
  induction ns with
  | nil => rintro _ _ _ ⟨⟩
  | cons n ns ih =>
    rintro region ⟨o, ho, _, _, hmore⟩ m hm
    rcases List.mem_cons.1 hm with rfl | hm
    · rw [ho]
      rfl
    · exact ih hmore m hm

theorem Tiles.placed {P : List Char → Prop} {n : Node} {region : Span}
    (h : Tiles P source region n.children) : n.placed = n.children :=
  List.filter_eq_self.2 h.origins

theorem Tiles.widen {ns : List Node} {a b c : Nat} {x : List Char}
    (hx : Text.slice source ⟨a, b⟩ = some x) (h : Tiles Anything source ⟨b, c⟩ ns) :
    Tiles Anything source ⟨a, c⟩ ns := by
  cases ns with
  | nil =>
    obtain ⟨gap, hgap, _⟩ := h
    exact ⟨x ++ gap, Text.slice_join hx hgap, trivial⟩
  | cons n ns =>
    obtain ⟨o, ho, hle, ⟨gap, hgap, _⟩, hmore⟩ := h
    exact ⟨o, ho, hle, ⟨x ++ gap, Text.slice_join hx hgap, trivial⟩, hmore⟩

/-- Nodes that are left out count as text beside the others. -/
theorem Tiles.of_sublist {ks : List Node}
    (hks : ∀ k ∈ ks, ∀ o, k.origin = some o → ∃ x, Text.slice source o.place.span = some x) :
    ∀ {ns : List Node} {region : Span}, (ns.map (·.origin)).Sublist (ks.map (·.origin)) →
      Tiles Anything source region ks → Tiles Anything source region ns := by
  induction ks with
  | nil =>
    intro ns region hsublist h
    rw [List.map_nil, List.sublist_nil, List.map_eq_nil_iff] at hsublist
    rw [hsublist]
    exact h
  | cons k ks ih =>
    obtain ⟨hk, hks⟩ := List.forall_mem_cons.1 hks
    rintro ns region hsublist ⟨o, ho, hle, ⟨gap, hgap, _⟩, hmore⟩
    rw [List.map_cons] at hsublist
    rcases List.sublist_cons_iff.1 hsublist with hsublist | ⟨r, hr, hsublist⟩
    · obtain ⟨x, hx⟩ := hk o ho
      exact (ih hks hsublist hmore).widen (Text.slice_join hgap hx)
    · cases ns with
      | nil => cases hr
      | cons n ns =>
        obtain ⟨hn, rfl⟩ := List.cons.inj hr
        exact ⟨o, hn.trans ho, hle, ⟨gap, hgap, trivial⟩, ih hks hsublist hmore⟩

theorem Tiles.start_le {P : List Char → Prop} {ns : List Node} : ∀ {region : Span},
    Tiles P source region ns → ∀ n ∈ ns, ∀ o, n.origin = some o →
      region.start ≤ o.place.span.start := by
  induction ns with
  | nil => rintro _ _ _ ⟨⟩
  | cons n ns ih =>
    rintro region ⟨o, ho, hle, ⟨gap, hgap, _⟩, hmore⟩ m hm o' ho'
    have hstart := Text.le_of_slice hgap
    rcases List.mem_cons.1 hm with rfl | hm
    · cases ho.symm.trans ho'
      exact hstart
    · have hafter := ih hmore m hm o' ho'
      exact hstart.trans (hle.trans hafter)

theorem Tiles.ordered {P : List Char → Prop} {ns : List Node} : ∀ {region : Span},
    Tiles P source region ns → (ns.filterMap (·.origin)).Pairwise fun a b =>
      a.place.span.start ≤ a.place.span.stop ∧ a.place.span.stop ≤ b.place.span.start := by
  induction ns with
  | nil => exact fun _ => .nil
  | cons n ns ih =>
    rintro region ⟨o, ho, hle, _, hmore⟩
    rw [List.filterMap_cons_some ho]
    refine List.pairwise_cons.2 ⟨fun b hb => ?_, ih hmore⟩
    obtain ⟨m, hm, hmo⟩ := List.mem_filterMap.1 hb
    exact ⟨hle, hmore.start_le m hm b hmo⟩

theorem Node.Fits.originIn? {n : Node} (h : n.Fits source) : n.originIn? source = n.origin := by
  rw [Node.originIn?]
  cases ho : n.origin with
  | none => rfl
  | some o => rw [Option.filter_some, h.fragment o ho, beq_self_eq_true, if_pos rfl]

section Children

variable {ns : List Node} (hns : ∀ n ∈ ns, n.Fits source)

include hns

/-- Nodes in their order fail to be in order only when one of them has no origin. -/
theorem inOrder_of_placed : ∀ {region : Span} {start : Nat}, start ≤ region.start →
    Tiles Anything source region (ns.filter (·.origin.isSome)) →
    Node.inOrder source start ns = ns.all (·.origin.isSome) := by
  induction ns with
  | nil => exact fun _ _ => rfl
  | cons n ns ih =>
    obtain ⟨hn, hns⟩ := List.forall_mem_cons.1 hns
    intro region start hstart h
    rw [Node.inOrder, hn.originIn?, List.all_cons]
    cases ho : n.origin with
    | none => rfl
    | some o =>
      rw [List.filter_cons_of_pos (by simp [ho])] at h
      obtain ⟨o', ho', hle, ⟨gap, hgap, _⟩, hmore⟩ := h
      cases ho.symm.trans ho'
      have hfirst := hstart.trans (Text.le_of_slice hgap)
      simp only [hfirst, decide_true, Option.isSome_some, Bool.true_and]
      exact ih hns (Nat.le_refl _) hmore

theorem agreesBetween_of_tiles : ∀ {region : Span},
    Tiles Anything source region (ns.filter (·.origin.isSome)) →
    AgreesBetween (Text.slice source) source region ns := by
  induction ns with
  | nil =>
    rintro region ⟨gap, hgap, _⟩
    exact agrees_of_slice hgap
  | cons n ns ih =>
    obtain ⟨hn, hns⟩ := List.forall_mem_cons.1 hns
    intro region h
    rw [AgreesBetween, hn.originIn?]
    cases ho : n.origin with
    | none =>
      rw [List.filter_cons_of_neg (by simp [ho])] at h
      exact ih hns h
    | some o =>
      rw [List.filter_cons_of_pos (by simp [ho])] at h
      obtain ⟨o', ho', _, ⟨gap, hgap, _⟩, hmore⟩ := h
      cases ho.symm.trans ho'
      exact ⟨agrees_of_slice hgap, ih hns hmore⟩

end Children

namespace Node

theorem Fits.tiles {n : Node} (h : n.Fits source) :
    ∃ region, Tiles Anything source region n.placed := by
  by_cases hcontent : ∃ o content, n.origin = some o ∧ o.place.content = some content
  · obtain ⟨o, content, ho, hcontent⟩ := hcontent
    exact ⟨content, (h.content o content ho hcontent).2.2⟩
  · have hnone : ∀ o, n.origin = some o → o.place.content = none := by
      intro o ho
      refine Option.eq_none_iff_forall_ne_some.2 fun content hsome => ?_
      exact hcontent ⟨o, content, ho, hsome⟩
    rw [h.solid hnone]
    exact ⟨⟨0, 0⟩, [], Text.slice_eq_some.2 ⟨[], source, rfl, rfl, rfl⟩, trivial⟩

theorem Fits.inOrder {n : Node} (h : n.Fits source) (hchildren : ∀ c ∈ n.children, c.Fits source) :
    inOrder source 0 n.children = n.children.all (·.origin.isSome) := by
  obtain ⟨region, htiles⟩ := h.tiles
  exact inOrder_of_placed hchildren (Nat.zero_le _) htiles

theorem Fits.cuttable {n : Node} (h : n.Fits source) (hchildren : ∀ c ∈ n.children, c.Fits source)
    {o : Origin} {content : Span} (ho : n.origin = some o) (hcontent : o.place.content = some content) :
    n.Cuttable (Text.slice source) source o.place content := by
  obtain ⟨⟨tag, htag⟩, ⟨close, hclose⟩, htiles⟩ := h.content o content ho hcontent
  refine ⟨agrees_of_slice htag, agrees_of_slice hclose, fun hnil => ?_, fun _ => ?_⟩
  · rw [Node.placed, hnil] at htiles
    obtain ⟨gap, hgap, _⟩ := htiles
    exact agrees_of_slice hgap
  · exact agreesBetween_of_tiles hchildren htiles

theorem Remembers.fits {known : List Node} {n : Node} (h : n.Remembers known)
    (hknown : ∀ k ∈ known, k.Fits source) (hbelow : ∀ k ∈ known, ∀ c ∈ k.children, c ∈ known) :
    n.Fits source := by
  cases ho : n.origin with
  | none =>
    refine ⟨?_, ?_, fun _ => h.lost ho⟩
    · intro o hsome
      cases ho.symm.trans hsome
    · intro o _ hsome
      cases ho.symm.trans hsome
  | some o =>
    obtain ⟨k, hk, hmark, hsublist⟩ := h.kept (by rw [ho]; exact Option.some_ne_none o)
    have hfits := hknown k hk
    have hko : k.origin = some o := (origin_of_mark hmark).symm.trans ho
    have horigins : (n.placed.map (·.origin)).Sublist (k.placed.map (·.origin)) := by
      have hmap := hsublist.map Prod.snd
      rwa [List.map_map, List.map_map] at hmap
    refine ⟨?_, ?_, ?_⟩
    · intro o' ho'
      exact hfits.fragment o' ((origin_of_mark hmark).symm.trans ho')
    · intro o' content ho' hcontent
      have hko' := (origin_of_mark hmark).symm.trans ho'
      obtain ⟨htag, hclose, htiles⟩ := hfits.content o' content hko' hcontent
      refine ⟨htag, hclose, htiles.of_sublist (fun c hc oc hoc => ?_) horigins⟩
      have hc := hbelow k hk c (List.mem_filter.1 hc).1
      exact ⟨_, (hknown c hc).fragment oc hoc⟩
    · intro hsolid
      rw [hfits.solid fun o' ho' => hsolid o' ((origin_of_mark hmark).trans ho'), List.map_nil,
        List.sublist_nil, List.map_eq_nil_iff] at hsublist
      exact hsublist

end Node

/-! ## Trees that stand where they stood -/

/-- All nodes fit the text, and what the root holds takes all of its place. -/
structure Tree.Fits (source : List Char) (t : Tree) : Prop where
  nodes : ∀ n ∈ t.root.nodes, n.Fits source
  root : ∃ o, t.root.origin = some o ∧ o.place.content = some o.place.span

theorem Tree.Fits.cuttable {t : Tree} (h : t.Fits source) :
    t.Cuttable (Text.slice source) source := by
  have hchildren : ∀ n ∈ t.root.nodes, ∀ c ∈ n.children, c.Fits source := fun n hn c hc =>
    h.nodes c (Node.nodes_subset t.root n hn c (Node.mem_nodes_of_child hc))
  have hroot := h.nodes t.root t.root.mem_nodes_self
  obtain ⟨o, ho, hcontent⟩ := h.root
  refine ⟨?_, ?_, ?_⟩
  · intro n hn o content ho hcontent
    exact (h.nodes n hn).cuttable (hchildren n hn) ho hcontent
  · intro o' ho'
    rw [hroot.originIn?, ho] at ho'
    cases ho'
    obtain ⟨front, hfront⟩ := Text.slice_front (hroot.fragment o ho)
    obtain ⟨back, hback⟩ := Text.slice_back (hroot.fragment o ho)
    refine ⟨agrees_of_slice hfront, agrees_of_slice hback, fun hin => ?_⟩
    exact (hroot.cuttable (hchildren t.root t.root.mem_nodes_self) ho hcontent).between hin
  · intro hnone
    rw [hroot.originIn?, ho] at hnone
    cases hnone

theorem Tree.Remembers.fits {t₀ t : Tree} (h : t₀.Remembers t) (h₀ : t₀.Fits source) :
    t.Fits source := by
  refine ⟨fun n hn => (h.nodes n hn).fits h₀.nodes fun k hk c hc => ?_, ?_⟩
  · exact Node.nodes_subset t₀.root k hk c (Node.mem_nodes_of_child hc)
  · obtain ⟨o, ho, hcontent⟩ := h₀.root
    exact ⟨o, (Node.origin_of_mark h.root).trans ho, hcontent⟩

/-! ## Pages that were read -/

theorem Node.LaidOut.fits {n : Node} {place : Place} (h : n.LaidOut source place) :
    n.Fits source := by
  refine ⟨?_, ?_, ?_⟩
  · intro o ho
    cases h.fresh.symm.trans ho
    exact h.slice
  · intro o content ho hcontent
    cases h.fresh.symm.trans ho
    obtain ⟨_, hheld⟩ := h.content content hcontent
    obtain ⟨tag, htag, _⟩ := hheld.isTag
    obtain ⟨close, hclose, _⟩ := hheld.closeTag
    refine ⟨⟨tag, htag⟩, ⟨close, hclose⟩, ?_⟩
    by_cases hnil : n.children = []
    · obtain ⟨body, hbody, _⟩ := hheld.text hnil
      rw [Node.placed, hnil]
      exact ⟨body, hbody, trivial⟩
    · obtain ⟨_, htiles⟩ := hheld.children hnil
      rw [htiles.placed]
      exact htiles.imp fun _ _ => trivial
  · intro hsolid
    rw [Node.placed, (h.solid (hsolid _ h.fresh)).2]
    rfl

theorem fits_root {n : Node} {region : Span} {fragment : String} {P : List Char → Prop}
    (h : n.IsFresh ⟨region, ⟨region.start, region.start⟩, some region, fragment⟩)
    (hslice : Text.slice source region = some fragment.toList)
    (htiles : Tiles P source region n.children) : n.Fits source := by
  refine ⟨?_, ?_, ?_⟩
  · intro o ho
    cases h.symm.trans ho
    exact hslice
  · intro o content ho hcontent
    cases h.symm.trans ho
    cases hcontent
    refine ⟨⟨[], Text.slice_start hslice⟩, ⟨[], Text.slice_stop hslice⟩, ?_⟩
    rw [htiles.placed]
    exact htiles.imp fun _ _ => trivial
  · intro hsolid
    cases hsolid _ h

theorem fits_of_read {source key : String} {p : Page} (h : Page.read source key = .ok p) :
    p.tree.Fits source.toList ∧ p.tree.Remembers p.tree := by
  obtain ⟨imports, c, ms, hprelude, helements, rfl⟩ := Page.read_eq_ok h
  obtain ⟨s, e, hs, hse, hregion, hrow⟩ := row_of_read hprelude helements
  have htiles := hrow.tiles imports hs (.ofKey key)
  have hmade := isMade_allOfMarkup source.toList imports (.ofKey key) ms hrow
  have hslice := Cursor.slice_of_leads hs hse
  have hfresh := isFresh_root source.toList imports ms (.ofKey key)
  simp only [hregion, hslice, Option.getD_some] at hfresh
  have hall : ∀ n ∈ (Page.ofParts source.toList imports ms (.ofKey key)).tree.root.nodes,
      n.Fits source.toList ∧ n.origin.isSome := by
    intro n hn
    rw [Node.nodes_eq] at hn
    rcases List.mem_cons.1 hn with rfl | hn
    · refine ⟨fits_root hfresh (slice_fragment hs hse) htiles, ?_⟩
      rw [hfresh]
      rfl
    · obtain ⟨place, hlaid⟩ := (hmade n hn).laidOut
      refine ⟨hlaid.fits, ?_⟩
      rw [hlaid.fresh]
      rfl
  exact ⟨⟨fun n hn => (hall n hn).1, _, hfresh, rfl⟩, .refl fun n hn => (hall n hn).2⟩

end PageEditor
