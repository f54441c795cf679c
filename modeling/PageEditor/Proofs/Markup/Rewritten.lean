import PageEditor.Proofs.Markup.Renewed

/-!
# Rewritten nodes

A node that stems from one that was read is written as a piece of content, whatever has become of its
children, provided that the open tags which are written anew close their braces.
-/
set_option autoImplicit false

namespace PageEditor

open Cursor

/-! ## Nodes that were read -/

namespace Node

/-- The nodes of a page that was read: each of them stands in the text, no two have the same id, and
their children are among them. -/
structure AllStand (source : List Char) (known : List Node) : Prop where
  stands : ∀ k ∈ known, k.Stands source
  unique : ∀ k ∈ known, ∀ k' ∈ known, k.id = k'.id → k = k'
  children : ∀ k ∈ known, ∀ c ∈ k.children, c ∈ known

theorem AllImprinted.allStand {source : List Char} {known : List Node}
    (h : AllImprinted source known) : AllStand source known :=
  ⟨fun k hk => (h.imprint k hk).stands, h.unique, h.children⟩

variable {source : List Char} {known : List Node} {n : Node}

theorem StemsFrom.printable (h : n.StemsFrom known) (hknown : AllStand source known)
    (hcloses : n.fields.Closes) : n.Printable := by
  obtain ⟨k, hk, hfields, _, _⟩ := h
  have hgroup : n.group = k.group := by rw [group, group, textChars, textChars, hfields]
  cases hknown.stands k hk with
  | text _ htype => exact .text (by rw [type, hfields]; exact htype)
  | expression _ htype hg => exact .expression (by rw [type, hfields]; exact htype) (hgroup ▸ hg)
  | closed _ hread => exact .element (hfields ▸ hread) hcloses
  | element _ hread => exact .element (hfields ▸ hread) hcloses

theorem heads_of_childIds (hknown : AllStand source known) {k : Node}
    (hall : ∀ c ∈ k.children, c ∈ known) (hstems : ∀ c ∈ n.children, c.StemsFrom known)
    (horigin : ∀ c ∈ n.children, c.origin ≠ none) (hids : n.childIds = k.childIds) :
    n.children.map (·.fields) = k.children.map (·.fields) ∧
      n.children.map (·.origin) = k.children.map (·.origin) := by
  rw [childIds, childIds] at hids
  generalize n.children = ns at hstems horigin hids
  generalize k.children = ms at hall hids
  induction ns generalizing ms with
  | nil =>
    rw [List.map_eq_nil_iff.1 hids.symm]
    exact ⟨rfl, rfl⟩
  | cons c ns ih =>
    cases ms with
    | nil => cases hids
    | cons m ms =>
      obtain ⟨hid, hback⟩ := List.cons.inj hids
      obtain ⟨k', hk', hfields, _, hnone | ⟨hid', horigin'⟩⟩ := hstems c List.mem_cons_self
      · exact absurd hnone (horigin c List.mem_cons_self)
      obtain rfl := hknown.unique k' hk' m (hall m List.mem_cons_self) (hid'.symm.trans hid)
      obtain ⟨hfields', horigins⟩ := ih (fun x hx => hstems x (List.mem_cons_of_mem c hx))
        (fun x hx => horigin x (List.mem_cons_of_mem c hx)) ms
        (fun x hx => hall x (List.mem_cons_of_mem k' hx)) hback
      simp only [List.map_cons]
      rw [hfields, horigin', hfields', horigins]
      exact ⟨rfl, rfl⟩

/-! ## Open tags that are written anew -/

mutual

/-- The fields whose open tags are not taken over from the text: those of a node without a place in
it, those of an element that closed itself and now holds something, and those of all nodes below. -/
def rewritten (source : List Char) : Node → List Fields
  | ⟨id, fields, component, origin, children⟩ =>
    let n : Node := ⟨id, fields, component, origin, children⟩
    match n.originIn? source with
    | none => n.nodes.map (·.fields)
    | some o =>
      if o.place.content = none ∧ children.isEmpty = false then n.nodes.map (·.fields)
      else rewrittenAll source children

def rewrittenAll (source : List Char) : List Node → List Fields
  | [] => []
  | n :: ns => n.rewritten source ++ rewrittenAll source ns

end

theorem rewritten_of_none (h : n.originIn? source = none) :
    n.rewritten source = n.nodes.map (·.fields) := by
  obtain ⟨id, fields, component, origin, children⟩ := n
  simp only [rewritten, h]

theorem rewritten_of_some {o : Origin} (h : n.originIn? source = some o) :
    n.rewritten source =
      if o.place.content = none ∧ n.children.isEmpty = false then n.nodes.map (·.fields)
      else rewrittenAll source n.children := by
  obtain ⟨id, fields, component, origin, children⟩ := n
  simp only [rewritten, h]

/-! ## Writing them -/

theorem StemsFrom.recalls (h : n.StemsFrom known) : n.Recalls known := by
  obtain ⟨k, hk, _, _, hnone | ⟨hid, horigin⟩⟩ := h
  · exact fun hsome => absurd hnone hsome
  · exact fun _ => ⟨k, hk, by rw [mark, mark, hid, horigin]⟩

theorem StemsFrom.read (h : n.StemsFrom known) (hknown : AllImprinted source known) {o : Origin}
    (ho : n.originIn? source = some o) : o.fields = n.fields ∧
      (n.isLeaf = false → n.fields.sameProps n.fields = true) ∧
      (n.isLeaf = false → o.place.content = none → n.text? = none) := by
  have horigin := origin_of_originIn? ho
  obtain ⟨k, hk, hfields, _, hnone | ⟨_, hsame⟩⟩ := h
  · cases horigin.symm.trans hnone
  have hko := hsame.symm.trans horigin
  have hleaf : n.isLeaf = k.isLeaf := by
    rw [isLeaf, isText, isExpression, isLeaf, isText, isExpression, type, type, hfields]
  cases hknown.imprint k hk with
  | text hfresh htype =>
    cases hko.symm.trans hfresh
    have hk : k.isLeaf = true := by simp [isLeaf, isText, htype]
    exact ⟨hfields.symm, fun hno => absurd (hleaf.trans hk) (by simp [hno]),
      fun hno => absurd (hleaf.trans hk) (by simp [hno])⟩
  | expression hfresh htype =>
    cases hko.symm.trans hfresh
    have hk : k.isLeaf = true := by simp [isLeaf, isExpression, htype]
    exact ⟨hfields.symm, fun hno => absurd (hleaf.trans hk) (by simp [hno]),
      fun hno => absurd (hleaf.trans hk) (by simp [hno])⟩
  | closed hfresh _ hprops _ htext =>
    cases hko.symm.trans hfresh
    refine ⟨hfields.symm, fun _ => hfields ▸ hprops, fun _ _ => ?_⟩
    rw [text?, hfields, htext]
    rfl
  | element hfresh _ hprops hcontent =>
    cases hko.symm.trans hfresh
    refine ⟨hfields.symm, fun _ => hfields ▸ hprops, fun _ hnone => ?_⟩
    cases hcontent.symm.trans hnone

mutual

/-- What is written anew of nodes that stem from a page can be printed if its open tags close. -/
theorem printable_of_closes (hknown : AllImprinted source known) : (n : Node) →
    (∀ m ∈ n.nodes, m.StemsFrom known) → (∀ f ∈ n.rewritten source, f.Closes) →
    ∀ m ∈ n.anew source, m.Printable
  | ⟨id, fields, component, origin, children⟩, hstems, hcloses => by
    have hself := hstems _ (mem_nodes_self _)
    have hbelow := printable_of_closesAll hknown children fun m hm =>
      hstems m (mem_nodes_of_below hm)
    generalize hn : (⟨id, fields, component, origin, children⟩ : Node) = n at *
    have hchildren : n.children = children := by rw [← hn]
    have hall : (∀ f ∈ n.nodes.map (·.fields), f.Closes) → ∀ m ∈ n.nodes, m.Printable :=
      fun hall m hm => (hstems m hm).printable hknown.allStand (hall _ (List.mem_map_of_mem hm))
    cases ho : n.originIn? source with
    | none =>
      rw [rewritten_of_none ho] at hcloses
      rw [anew_of_none ho]
      exact hall hcloses
    | some o =>
      obtain ⟨hfields, hprops, htext⟩ := hself.read hknown ho
      cases hleaf : n.isLeaf with
      | true =>
        rw [anew_of_leaf ho (congrArg Fields.type hfields) hleaf, textChanged_of_origin ho hfields]
        rintro _ ⟨⟩
      | false =>
        rw [rewritten_of_some ho, hchildren] at hcloses
        rw [anew_of_element ho (congrArg Fields.type hfields) hleaf, hchildren,
          propsChanged_of_origin ho hfields (hprops hleaf)]
        cases hcontent : o.place.content with
        | some content =>
          rw [hcontent, if_neg (by rintro ⟨⟨⟩, -⟩)] at hcloses
          exact hbelow hcloses
        | none =>
          rw [htext hleaf hcontent]
          rw [hcontent] at hcloses
          cases hempty : children.isEmpty with
          | true =>
            rw [hempty, if_neg (by rintro ⟨-, ⟨⟩⟩)] at hcloses
            exact hbelow hcloses
          | false =>
            rw [hempty, if_pos ⟨rfl, rfl⟩] at hcloses
            exact hall hcloses

theorem printable_of_closesAll (hknown : AllImprinted source known) : (ns : List Node) →
    (∀ m ∈ nodesAll ns, m.StemsFrom known) → (∀ f ∈ rewrittenAll source ns, f.Closes) →
    ∀ m ∈ anewAll source ns, m.Printable
  | [], _, _ => (by rintro _ ⟨⟩)
  | n :: ns, hstems, hcloses => List.forall_mem_append.2
    ⟨printable_of_closes hknown n (fun m hm => hstems m (List.mem_append_left _ hm))
        fun f hf => hcloses f (List.mem_append_left _ hf),
      printable_of_closesAll hknown ns (fun m hm => hstems m (List.mem_append_right _ hm))
        fun f hf => hcloses f (List.mem_append_right _ hf)⟩

end

/-- Whatever has become of an element and of what is below it, it is written as an element. -/
theorem isElement_patched (hknown : AllImprinted source known)
    (hstems : ∀ m ∈ n.nodes, m.StemsFrom known) (hcloses : ∀ f ∈ n.rewritten source, f.Closes)
    (hleaf : n.isLeaf = false) (depth : Nat) : IsElement (n.patched source depth) :=
  ((spells_patched hknown depth n (fun m hm => (hstems m hm).recalls)
    (printable_of_closes hknown n hstems hcloses)).2 hleaf).isElement

end Node

end PageEditor
