import PageEditor.Proofs.Markup.Resaving
import PageEditor.Proofs.Markup.RoundTrip

/-!
# Updated pages

A page that was read and of which one element has then got other fields and another component is
written as the text it was read from but for the place of that element: there its open tag comes in
place of the old one if its props have changed, and what stands behind the tag is written anew if its
text has. Imports that are missing then are put in front.
-/
set_option autoImplicit false

namespace PageEditor

open Cursor

variable {source : List Char} {imports : List Import}

/-! ## Nodes that were read -/

namespace Node

variable {n : Node}

theorem IsMade.kept (h : n.IsMade source imports) : ∃ s e, Kept source n s e ∧
    (ofText source).Leads s ∧ s.Leads e := by
  obtain ⟨g, m, s, e, rfl, hm⟩ := h
  cases hm with
  | text hs hse _ => exact ⟨s, e, kept_leaf hs hse (isFresh_withPlace _ _) (.inl rfl), hs, hse⟩
  | expression hs hr hbraced =>
    have hse := leads_of_braced hbraced
    exact ⟨s, e, kept_leaf hs hse (isFresh_withPlace _ _) (.inr rfl), hs, hse⟩
  | element hs hr hm => exact ⟨s, e, kept_of_readsElement imports hm hs g, hs, hm.leads⟩

theorem IsMade.slice_patched (h : n.IsMade source imports) (depth : Nat) :
    ∃ o, n.originIn? source = some o ∧
      Text.slice source o.place.span = some (n.patched source depth) := by
  obtain ⟨s, e, ⟨⟨o, ho, hspan⟩, htext⟩, hs, hse⟩ := h.kept
  exact ⟨o, ho, by rw [hspan, htext]; exact slice_of_leads hs hse⟩

theorem slice_patchedBetween {P : List Char → Prop} {ns : List Node} (depth : Nat)
    (hns : ∀ n ∈ ns, n.IsMade source imports) : ∀ {region : Span}, Tiles P source region ns →
    Text.slice source region = some (patchedBetween source depth region ns) := by
  induction ns with
  | nil =>
    rintro region ⟨gap, hgap, _⟩
    rw [patchedBetween, sliceOr, hgap]
    rfl
  | cons n ns ih =>
    obtain ⟨hn, hns⟩ := List.forall_mem_cons.1 hns
    rintro region ⟨o, ho, _, ⟨gap, hgap, _⟩, hmore⟩
    obtain ⟨o', ho', hslice⟩ := hn.slice_patched depth
    obtain rfl := Option.some.inj ((origin_of_originIn? ho').symm.trans ho)
    rw [patchedBetween_cons ho', sliceOr, hgap]
    exact Text.slice_join (Text.slice_join hgap hslice) (ih hns hmore)

theorem inOrder_of_made {P : List Char → Prop} {ns : List Node} {region : Span}
    (hns : ∀ n ∈ ns, n.IsMade source imports) (htiles : Tiles P source region ns) :
    inOrder source 0 ns = true := by
  refine inOrder_of_tiles (fun n hn => ?_) htiles (Nat.zero_le _)
  obtain ⟨place, hk⟩ := (hns n hn).laidOut
  exact ⟨n, place, hk, rfl⟩

theorem inOrder_of_origins {ns ks : List Node} (h : ns.map (·.origin) = ks.map (·.origin)) :
    ∀ start, inOrder source start ns = inOrder source start ks := by
  induction ns generalizing ks with
  | nil =>
    rw [List.map_nil] at h
    rw [List.map_eq_nil_iff.1 h.symm]
    exact fun _ => rfl
  | cons n ns ih =>
    cases ks with
    | nil => cases h
    | cons k ks =>
      obtain ⟨hn, hns⟩ := List.cons.inj h
      intro start
      rw [inOrder, inOrder, originIn?_congr hn]
      cases k.originIn? source with
      | none => rfl
      | some o => simp only [ih hns]

/-! ## One node with other fields -/

section Marks

variable {id : String} {f : Node → Node} (hf : ∀ m, (f m).mark = m.mark) {ns ns' : List Node}
  (h : modifyIn? id f ns = some ns')

include hf h

theorem ids_modifyIn? : ns'.map (·.id) = ns.map (·.id) :=
  map_eq_of_modifyIn? (fun _ _ => rfl) (fun m _ _ => congrArg Prod.fst (hf m)) h

theorem origins_modifyIn? : ns'.map (·.origin) = ns.map (·.origin) :=
  map_eq_of_modifyIn? (fun _ _ => rfl) (fun m _ _ => congrArg Prod.snd (hf m)) h

end Marks

/-- The animation of an element that was read comes from its tag, and so its settings are numbers. -/
theorem IsMade.holdsNumbers (h : n.IsMade source imports) (hleaf : n.isLeaf = false) :
    ∀ m, n.fields.animation = some m → m.HoldsNumbers := by
  have htag : ∀ {as : List Attribute}, Fields.ofTag n.type as = { n.fields with text := none } →
      ∀ m, n.fields.animation = some m → m.HoldsNumbers := fun hfields m hm =>
    Fields.ofTag_animation ((congrArg Fields.animation hfields).trans hm)
  rw [isLeaf, Bool.or_eq_false_iff, isText, isExpression, beq_eq_false_iff_ne,
    beq_eq_false_iff_ne] at hleaf
  cases h.imprint with
  | text _ htype => exact absurd htype hleaf.1
  | expression _ htype => exact absurd htype hleaf.2
  | closed _ _ _ _ _ hfields => exact htag hfields
  | element _ _ _ _ hfields => exact htag hfields

theorem patched_around {place : Place} {content : Span} {cs : List Node}
    (hn : n.IsMade source imports) (hk : n.LaidOut source place)
    (hcontent : place.content = some content) (hids : cs.map (·.id) = n.children.map (·.id))
    (horigins : cs.map (·.origin) = n.children.map (·.origin))
    (hin : inOrder source 0 n.children = true) (depth : Nat) :
    patched source depth { n with children := cs } =
      sliceOr source place.openTag ++ patchedBetween source (depth + 1) content cs
        ++ sliceOr source ⟨content.stop, place.span.stop⟩ := by
  have hleaf := (hk.content content hcontent).1
  have hsame := Fields.sameProps_self (hn.holdsNumbers hleaf)
  rw [isLeaf, Bool.or_eq_false_iff, isText, isExpression, beq_eq_false_iff_ne,
    beq_eq_false_iff_ne] at hleaf
  have hchildIds : n.childIds = childIds { n with children := cs } := hids.symm
  have horigin : originIn? source { n with children := cs } = some ⟨place, n.fields, n.childIds⟩ :=
    hk.originIn? rfl
  rw [patched_element horigin rfl hleaf.1 hleaf.2 hsame hcontent, hchildIds,
    patchedBody_eq ((inOrder_of_origins horigins 0).trans hin)]

section Frame

variable {id : String} {f : Node → Node} {Q : List Replacement → Prop}

mutual

/-- If the changed node replaces something in its place, every node around it replaces the same. -/
theorem replaces_modify? (hf : ∀ m, (f m).mark = m.mark) (depth : Nat) : (n : Node) → {n' : Node} →
    n.modify? id f = some n' → (∀ m ∈ n.nodes, m.IsMade source imports) →
    (∀ m ∈ n.nodes, m.id = id → ∀ o d, m.origin = some o →
      ∃ rs, Q rs ∧ Replaces source o.place.span rs ((f m).patched source d)) →
    ∀ o, n.origin = some o → ∃ rs, Q rs ∧ Replaces source o.place.span rs (n'.patched source depth)
  | ⟨own, fields, component, origin, children⟩, n', h, hmade, hat, o, ho => by
    rw [modify?] at h
    by_cases hown : own = id
    · rw [if_pos hown] at h
      cases h
      exact hat _ (mem_nodes_self _) hown o depth ho
    · rw [if_neg hown] at h
      obtain ⟨cs, hcs, rfl⟩ := Option.map_eq_some_iff.1 h
      have hn := hmade _ (mem_nodes_self _)
      have hbelow : ∀ m ∈ nodesAll children, m.IsMade source imports := fun m hm =>
        hmade m (mem_nodes_of_below hm)
      obtain ⟨place, hk⟩ := hn.laidOut
      obtain rfl := Option.some.inj (ho.symm.trans hk.fresh)
      cases hcontent : place.content with
      | none =>
        obtain rfl : children = [] := (hk.solid hcontent).2
        cases hcs
      | some content =>
        obtain ⟨_, hholds⟩ := hk.content content hcontent
        have hne : children ≠ [] := by
          rintro rfl
          cases hcs
        obtain ⟨_, htiles⟩ := hholds.children hne
        have hin := inOrder_of_made (fun m hm => hbelow m (mem_nodesAll hm)) htiles
        obtain ⟨rs, hQ, hrs⟩ := replaces_modifyIn? hf (depth + 1) children hcs hbelow
          (fun m hm => hat m (mem_nodes_of_below hm)) htiles
        obtain ⟨tag, htag, _⟩ := hholds.isTag
        refine ⟨rs, hQ, ?_⟩
        rw [patched_around hn hk hcontent (ids_modifyIn? hf hcs) (origins_modifyIn? hf hcs) hin, sliceOr,
          htag]
        rw [hholds.openTag] at htag
        exact (Replaces.slice_append htag hrs).append_slice hholds.slice_close

theorem replaces_modifyIn? (hf : ∀ m, (f m).mark = m.mark) (depth : Nat) : (ns : List Node) →
    {ns' : List Node} → modifyIn? id f ns = some ns' → (∀ m ∈ nodesAll ns, m.IsMade source imports) →
    (∀ m ∈ nodesAll ns, m.id = id → ∀ o d, m.origin = some o →
      ∃ rs, Q rs ∧ Replaces source o.place.span rs ((f m).patched source d)) →
    ∀ {P : List Char → Prop} {region : Span}, Tiles P source region ns →
    ∃ rs, Q rs ∧ Replaces source region rs (patchedBetween source depth region ns')
  | [], ns', h, _, _, _, _, _ => by cases h
  | n :: ns, ns', h, hmade, hat, P, region, htiles => by
    rw [nodesAll, List.forall_mem_append] at hmade hat
    obtain ⟨o, ho, _, ⟨gap, hgap, _⟩, hmore⟩ := htiles
    obtain ⟨o', ho', hslice⟩ := (hmade.1 n n.mem_nodes_self).slice_patched depth
    obtain rfl := Option.some.inj ((origin_of_originIn? ho').symm.trans ho)
    rw [modifyIn?] at h
    cases hm : modify? id f n with
    | some n' =>
      rw [hm] at h
      cases h
      have hsame : n'.origin = n.origin :=
        eq_of_modify? (fun _ _ => rfl) (fun _ => origin_of_mark (hf n)) hm
      have horigin : n'.originIn? source = some o' := (originIn?_congr hsame).trans ho'
      have hrest := slice_patchedBetween depth (fun m hm => hmade.2 m (mem_nodesAll hm)) hmore
      obtain ⟨rs, hQ, hrs⟩ := replaces_modify? hf depth n hm hmade.1 hat.1 o' ho
      refine ⟨rs, hQ, ?_⟩
      rw [patchedBetween_cons horigin, sliceOr, hgap]
      exact (Replaces.slice_append hgap hrs).append_slice hrest
    | none =>
      rw [hm] at h
      obtain ⟨ms, hms, rfl⟩ := Option.map_eq_some_iff.1 h
      obtain ⟨rs, hQ, hrs⟩ := replaces_modifyIn? hf depth ns hms hmade.2 hat.2 hmore
      refine ⟨rs, hQ, ?_⟩
      rw [patchedBetween_cons ho', sliceOr, hgap]
      exact Replaces.slice_append (Text.slice_join hgap hslice) hrs

end

end Frame

/-! ## The updated element -/

/-- Whether an element that stood in that place gets another open tag: its props have changed, or it
closed itself and has got a text. -/
def reprintsTag (n : Node) (place : Place) : Bool :=
  n.propsChanged || (place.content.isNone && n.text?.isSome)

/-- What an element replaces whose fields may have changed: its old open tag by its new one, and if its
text has changed, something between that tag and the end of the element. -/
def Retags (k n : Node) (place : Place) (rs : List Replacement) : Prop :=
  ∃ more, rs = (if n.reprintsTag place then
      [⟨place.openTag, n.fields.openTag (place.content.isNone && n.text?.isNone)⟩] else []) ++ more ∧
    (∀ r ∈ more, place.openTag.stop ≤ r.span.start ∧ r.span.stop ≤ place.span.stop) ∧
    (n.fields.text = k.fields.text → more = [])

section Update

variable {k : Node} {place : Place} (hk : k.LaidOut source place) (horigin : n.origin = k.origin)
  (hchildren : n.children = k.children) (htype : n.type = k.type)

include hk horigin hchildren htype

/-- An element that closed itself is closed by a tag of its own once it has got a text. -/
theorem retags_closed (hname : Token.IsName n.type.toList) (hcontent : place.content = none)
    (depth : Nat) : ∃ rs, k.Retags n place rs ∧
      Replaces source place.span rs (n.patched source depth) := by
  have hleaf := isLeaf_of_isName hname
  obtain ⟨hopen, hnone⟩ := hk.solid hcontent
  have hnone := hchildren.trans hnone
  have horigin' := hk.originIn? horigin
  have hpatched := patched_closed horigin' htype.symm hleaf hcontent depth
  rw [hnone] at hpatched
  cases htext : n.text? with
  | none =>
    refine ⟨_, ⟨[], rfl, (by rintro _ ⟨⟩), fun _ => rfl⟩, ?_⟩
    rw [hpatched, reprintsTag, hcontent, htext, hopen]
    cases n.propsChanged with
    | false => exact hk.slice
    | true => exact .whole hk.slice _
  | some t =>
    have hfront := Replaces.whole hk.slice (n.fields.openTag false)
    have hback := Replaces.whole (Text.slice_stop hk.slice) (Value.escapeText t ++ n.fields.closeTag)
    refine ⟨_, ⟨[⟨⟨place.span.stop, place.span.stop⟩,
      Value.escapeText t ++ n.fields.closeTag⟩], rfl, ?_, ?_⟩, ?_⟩
    · rw [hopen, List.forall_mem_singleton]
      exact ⟨Nat.le_refl _, Nat.le_refl _⟩
    · intro hsame
      have hleaf' : k.isLeaf = false := (isLeaf_congr htype).symm.trans hleaf
      rw [text?, hsame, (hk.closed hcontent hleaf').1] at htext
      cases htext
    · have hreprints : n.reprintsTag place = true := by simp [reprintsTag, hcontent, htext]
      rw [hpatched, hreprints, hcontent, htext, hopen, markup_own hname _ _ hnone htext,
        List.append_assoc]
      exact hfront.append hback

/-- What stands between the tags of an element with content: what stood there while its text is what
it was. -/
theorem exists_patched_content (hmade : ∀ m ∈ nodesAll k.children, m.IsMade source imports)
    {content : Span} (hcontent : place.content = some content) (depth : Nat) :
    ∃ body, n.patched source depth =
        (if n.propsChanged then n.fields.openTag false else sliceOr source place.openTag) ++ body
          ++ sliceOr source ⟨content.stop, place.span.stop⟩ ∧
      (n.fields.text = k.fields.text → Text.slice source content = some body) := by
  obtain ⟨hleaf, hholds⟩ := hk.content content hcontent
  have horigin' := hk.originIn? horigin
  refine ⟨_, patched_content horigin' htype.symm ((isLeaf_congr htype).trans hleaf) hcontent depth,
    fun hsame => ?_⟩
  have htextChanged : n.textChanged = false := by
    rw [textChanged, horigin, hk.fresh]
    simp [hsame]
  have hids : k.childIds = n.childIds := by rw [childIds, childIds, hchildren]
  rw [patchedContent, hchildren]
  by_cases hnil : k.children = []
  · obtain ⟨body, hbody, _⟩ := hholds.text hnil
    simp [hnil, childIds, patchedText, htextChanged, sliceOr, hbody]
  · obtain ⟨_, htiles⟩ := hholds.children hnil
    have hin := inOrder_of_made (fun m hm => hmade m (mem_nodesAll hm)) htiles
    have hchildrenChanged : n.childrenChanged = false := by
      rw [childrenChanged, horigin, hk.fresh]
      simp [hids]
    rw [if_neg (by simpa using hnil), hchildrenChanged, htextChanged, hin]
    exact slice_patchedBetween (depth + 1) (fun m hm => hmade m (mem_nodesAll hm)) htiles

theorem retags_content (hmade : ∀ m ∈ nodesAll k.children, m.IsMade source imports)
    {content : Span} (hcontent : place.content = some content) (depth : Nat) :
    ∃ rs, k.Retags n place rs ∧ Replaces source place.span rs (n.patched source depth) := by
  obtain ⟨_, hholds⟩ := hk.content content hcontent
  obtain ⟨body, hpatched, hbody⟩ :=
    exists_patched_content hk horigin hchildren htype hmade hcontent depth
  have hreprints : n.reprintsTag place = n.propsChanged := by simp [reprintsTag, hcontent]
  have hfront := hholds.replaces_tag n
  have hclose := hholds.slice_close
  rw [hpatched]
  by_cases hsame : n.fields.text = k.fields.text
  · refine ⟨_, ⟨[], rfl, (by rintro _ ⟨⟩), fun _ => rfl⟩, ?_⟩
    rw [hreprints, hcontent, List.append_nil]
    exact (hfront.append_slice (hbody hsame)).append_slice hclose
  · obtain ⟨old, hold⟩ : ∃ old, Text.slice source content = some old := by
      by_cases hnil : k.children = []
      · obtain ⟨old, hold, _⟩ := hholds.text hnil
        exact ⟨old, hold⟩
      · exact ⟨_, slice_patchedBetween 0 (fun m hm => hmade m (mem_nodesAll hm))
          (hholds.children hnil).2⟩
    refine ⟨_, ⟨[⟨content, body⟩], rfl, ?_, fun h => absurd h hsame⟩, ?_⟩
    · rw [List.forall_mem_singleton, hholds.openTag]
      exact ⟨Nat.le_refl _, Text.le_of_slice hclose⟩
    · rw [hreprints, hcontent]
      exact (hfront.append (.whole hold body)).append_slice hclose

end Update

/-- An element that was read and then got other fields replaces at most its open tag and what stands
behind it. -/
theorem retags {k : Node} {place : Place} (hmade : ∀ m ∈ k.nodes, m.IsMade source imports)
    (hfresh : k.IsFresh place) (horigin : n.origin = k.origin) (hchildren : n.children = k.children)
    (htype : n.type = k.type) (hleaf : k.isLeaf = false) (depth : Nat) :
    ∃ rs, k.Retags n place rs ∧ Replaces source place.span rs (n.patched source depth) := by
  have hk := hmade k k.mem_nodes_self
  obtain ⟨place', hlaid⟩ := hk.laidOut
  obtain ⟨rfl, _⟩ := Origin.mk.inj (Option.some.inj (hfresh.symm.trans hlaid.fresh))
  cases hcontent : place.content with
  | none =>
    have hname := hlaid.isName hleaf
    rw [← htype] at hname
    exact retags_closed hlaid horigin hchildren htype hname hcontent depth
  | some content =>
    exact retags_content hlaid horigin hchildren htype
      (fun m hm => hmade m (mem_nodes_of_below hm)) hcontent depth

end Node

/-! ## Pages -/

section Pages

variable {key : String} {text : String} {p : Page} {t : Tree} {e a b : Cursor} {cs : List Node}
  {id : String} {f : Node → Node} {Q : List Replacement → Prop}

/-- What is put in for the components of a tree: behind the imports that the page has, the statements
for those that are missing, and nothing if there are none. -/
def Tree.InsertsImports (t : Tree) (imports : List Import) (rs : List Replacement) : Prop :=
  if t.missing imports = [] then rs = []
  else
    ∃ front back, IsTrivia front ∧ IsTrivia back ∧
      rs = [⟨⟨Import.endOffset imports, Import.endOffset imports⟩,
        front ++ (t.importBlock imports ++ back)⟩]

section Frame

variable (hp : Page.read text key = .ok p)
  (hcs : Node.modifyIn? id f p.tree.root.children = some cs)
  (hroot : t.root = { p.tree.root with children := cs }) (hf : ∀ m, (f m).mark = m.mark)

include hp hcs hroot hf

theorem body_of_modifyIn? :
    t.body text.toList (a.span b) = Node.patchedBetween text.toList 0 (a.span b) cs := by
  obtain ⟨_, place, hfresh, _, htiles, _⟩ := tiles_of_read hp
  have hmade := isMade_of_read hp
  have hids : cs.map (·.id) = p.tree.root.childIds := Node.ids_modifyIn? hf hcs
  have hin : Node.inOrder text.toList 0 cs = true :=
    (Node.inOrder_of_origins (Node.origins_modifyIn? hf hcs) 0).trans
      (Node.inOrder_of_made (fun m hm => hmade m (Node.mem_nodesAll hm)) htiles)
  have hkeeps : t.isRelined text.toList = false := by
    rw [Tree.isRelined, hroot, Node.childrenChanged, hfresh]
    simp [hin, Node.childIds, hids]
  rw [Tree.body, hkeeps, if_neg Bool.false_ne_true, hroot]

variable (hframe : p.Frame text.toList e a b)

include hframe

theorem replaces_patchedBehind
    (hat : ∀ m ∈ Node.nodesAll p.tree.root.children, m.id = id → ∀ o d, m.origin = some o →
      ∃ rs, Q rs ∧ Replaces text.toList o.place.span rs ((f m).patched text.toList d)) :
    ∃ rs, Q rs ∧ Replaces text.toList ⟨e.offset, Text.byteLength text.toList⟩ rs
      (t.patchedBehind text.toList e a b) := by
  obtain ⟨_, place, hfresh, _, htiles, _⟩ := tiles_of_read hp
  obtain ⟨o, ho, hspan, _⟩ := hframe.root
  obtain rfl := Option.some.inj ((Node.origin_of_originIn? ho).symm.trans hfresh)
  rw [hspan] at htiles
  obtain ⟨rs, hQ, hrs⟩ := Node.replaces_modifyIn? hf 0 _ hcs (isMade_of_read hp) hat htiles
  have hstart := hframe.imports.leads
  have hfront := slice_of_leads hstart hframe.front
  have hback := slice_rest ((hstart.trans hframe.front).trans hframe.region)
  refine ⟨rs, hQ, ?_⟩
  rw [Tree.patchedBehind, body_of_modifyIn? hp hcs hroot hf]
  exact Replaces.slice_append hfront (hrs.append_slice hback)

theorem opens_patchedBehind
    (htype : ∀ m ∈ Node.nodesAll p.tree.root.children, m.id = id → (f m).type = m.type) :
    Opens (t.patchedBehind text.toList e a b) := by
  obtain ⟨hlaid, place, hfresh, hslice, _, hfirst, _⟩ := tiles_of_read hp
  obtain ⟨o, ho, hspan, _⟩ := hframe.root
  obtain rfl := Option.some.inj ((Node.origin_of_originIn? ho).symm.trans hfresh)
  have horigins := Node.origins_modifyIn? hf hcs
  have htypes := Node.map_eq_of_modifyIn? (g := Node.type) (fun _ _ => rfl)
    (fun m hm => htype m (Node.mem_nodesAll hm)) hcs
  rw [Tree.patchedBehind, body_of_modifyIn? hp hcs hroot hf]
  cases hks : p.tree.root.children with
  | nil =>
    rw [hks] at hcs
    cases hcs
  | cons k ks =>
    rw [hks] at horigins htypes
    cases cs with
    | nil => cases horigins
    | cons n ns =>
      have hk : k ∈ p.tree.root.children := hks ▸ List.mem_cons_self
      obtain ⟨place, hplace⟩ := hlaid k (Node.mem_nodesAll hk)
      have horigin : n.origin = k.origin := (List.cons.inj horigins).1
      have hstart := hfirst k (by rw [hks]; rfl)
      rw [← horigin, hspan] at hstart
      rw [hspan] at hslice
      obtain ⟨r, hr⟩ : ∃ r, Node.patchedBetween text.toList 0 (a.span b) (n :: ns) = '<' :: r :=
        head_patchedBetween hplace horigin (List.cons.inj htypes).1 (isLeaf_of_read hp k hk) hstart
          (Text.slice_start hslice) 0
      rw [hr, List.cons_append]
      exact opens_of_trivia hframe.trivia

end Frame

/-- A page of which one node has been changed is saved as its text, in which the changed node replaces
what it does and the missing imports are put in front. -/
theorem exists_replaces_regenerate (hp : Page.read text key = .ok p)
    (hcs : Node.modifyIn? id f p.tree.root.children = some cs)
    (hroot : t.root = { p.tree.root with children := cs }) (hf : ∀ m, (f m).mark = m.mark)
    (htype : ∀ m ∈ Node.nodesAll p.tree.root.children, m.id = id → (f m).type = m.type)
    (hat : ∀ m ∈ Node.nodesAll p.tree.root.children, m.id = id → ∀ o d, m.origin = some o →
      ∃ rs, Q rs ∧ Replaces text.toList o.place.span rs ((f m).patched text.toList d)) :
    ∃ front rs, t.InsertsImports p.imports front ∧ Q rs ∧
      Replaces text.toList ⟨0, Text.byteLength text.toList⟩ (front ++ rs)
        (t.regenerate text).toList := by
  obtain ⟨e, a, b, hframe⟩ := Page.exists_frame hp
  obtain ⟨rs, hQ, hrs⟩ := replaces_patchedBehind hp hcs hroot hf hframe hat
  have hopens := opens_patchedBehind hp hcs hroot hf hframe htype
  have horigin : t.root.origin = p.tree.root.origin := by rw [hroot]
  have hpatched : (ofText (t.patched text.toList)).rest = _ := hframe.patched_eq horigin
  generalize t.patchedBehind text.toList e a b = behind at hrs hopens hpatched
  have hends := endsImports_of_head hopens.head
  obtain ⟨is, e', hread, hnames, hrest, -⟩ := hframe.imports.grafted hends.semicolon hpatched
  have hprelude := hread.prelude (prelude_nil (hends.no_import hrest))
  rw [List.append_nil] at hprelude
  have hfront := slice_of_leads (Leads.refl (ofText text.toList)) hframe.imports.leads
  have hup : (ofText (t.patched text.toList)).upTo e' = (ofText text.toList).upTo e :=
    upTo_of_append (hrest ▸ hpatched)
  rw [Tree.regenerate, String.toList_ofList, Tree.syncImports, hprelude]
  simp only [t.missing_congr hnames]
  by_cases hnone : t.missing p.imports = []
  · refine ⟨[], rs, by rw [Tree.InsertsImports, if_pos hnone], hQ, ?_⟩
    have htext : t.patched text.toList = _ := hpatched
    rw [hnone, List.isEmpty_nil, if_pos rfl, htext]
    exact Replaces.slice_append hfront hrs
  · obtain ⟨front, back, hfrontTrivia, hbackTrivia, hinsert⟩ :=
      insertBlock_eq hread (t.importBlock p.imports)
    have hhere : Text.slice text.toList ⟨e.offset, e.offset⟩ = some [] := Text.slice_stop hfront
    have hwhole := Replaces.whole hhere (front ++ (t.importBlock p.imports ++ back))
    refine ⟨[⟨⟨e.offset, e.offset⟩, front ++ (t.importBlock p.imports ++ back)⟩], rs, ?_, hQ, ?_⟩
    · rw [Tree.InsertsImports, if_neg hnone, hframe.imports.endOffset]
      exact ⟨front, back, hfrontTrivia, hbackTrivia, rfl⟩
    · rw [if_neg (by rwa [List.isEmpty_iff])]
      have htext : Import.insertBlock (t.patched text.toList) is
          (String.intercalate "\n" (Needed.lines (t.missing p.imports))).toList = _ := hinsert
      rw [htext, hup, hrest]
      have hall := Replaces.slice_append hfront (hwhole.append hrs)
      simp only [List.append_assoc] at hall
      exact hall

end Pages

end PageEditor
