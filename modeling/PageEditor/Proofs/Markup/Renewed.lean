import PageEditor.Proofs.Markup.Mirroring
import PageEditor.Proofs.Tree.Origins

/-!
# Renewed nodes

Whatever becomes of the nodes of a page that was read, what is written of them is read back as them.
What keeps its place in the text is taken over, which cannot go wrong; so all that has to be asked is
that the tags, texts and expressions that are written anew can be printed.
-/
set_option autoImplicit false

namespace PageEditor

open Cursor

namespace Node

/-! ## Nodes that were read -/

/-- The nodes of a page that was read: each of them stands in the text, no two have the same id, and
their children are among them. -/
structure AllImprinted (source : List Char) (known : List Node) : Prop where
  imprint : ∀ k ∈ known, k.Imprint source
  unique : ∀ k ∈ known, ∀ k' ∈ known, k.id = k'.id → k = k'
  children : ∀ k ∈ known, ∀ c ∈ k.children, c ∈ known

/-- If the node has an origin, it has that of the node with its id among `known`. -/
def Recalls (known : List Node) (n : Node) : Prop :=
  n.origin ≠ none → ∃ k ∈ known, n.mark = k.mark

variable {source : List Char} {known : List Node} {n k : Node} {o : Origin} {place : Place}

theorem origins_of_childIds (hknown : AllImprinted source known)
    (hall : ∀ c ∈ k.children, c ∈ known) (hrecalls : ∀ c ∈ n.children, c.Recalls known)
    (horigin : ∀ c ∈ n.children, c.origin ≠ none) (hids : n.childIds = k.childIds) :
    n.children.map (·.origin) = k.children.map (·.origin) := by
  rw [childIds, childIds] at hids
  generalize n.children = ns at hrecalls horigin hids
  generalize k.children = ms at hall hids
  induction ns generalizing ms with
  | nil => rw [List.map_eq_nil_iff.1 hids.symm]
  | cons c ns ih =>
    cases ms with
    | nil => cases hids
    | cons m ms =>
      obtain ⟨hid, hback⟩ := List.cons.inj hids
      obtain ⟨hc, hns⟩ := List.forall_mem_cons.1 hrecalls
      obtain ⟨hco, hnso⟩ := List.forall_mem_cons.1 horigin
      obtain ⟨hm, hms⟩ := List.forall_mem_cons.1 hall
      obtain ⟨k', hk', hmark⟩ := hc hco
      have hsame : k'.id = m.id := (congrArg Prod.fst hmark).symm.trans hid
      obtain rfl := hknown.unique k' hk' m hm hsame
      rw [List.map_cons, List.map_cons, ih hns hnso ms hms hback, origin_of_mark hmark]

/-! ## What is written anew -/

mutual

/-- The nodes of which more is written than blanks and line feeds. A node without a place in the text
is written from scratch, and so are one of another type and one that closed itself and now holds
something, with all that is below them. Otherwise it is a text or an expression that has changed, or
an element whose props have. -/
def anew (source : List Char) : Node → List Node
  | ⟨id, fields, component, origin, children⟩ =>
    let n : Node := ⟨id, fields, component, origin, children⟩
    match n.originIn? source with
    | none => n.nodes
    | some o =>
      if o.fields.type ≠ fields.type then n.nodes
      else if n.isLeaf then if n.textChanged then [n] else []
      else if o.place.content.isNone && (!children.isEmpty || n.text?.isSome) then n.nodes
      else (if n.propsChanged then [n] else []) ++ anewAll source children

def anewAll (source : List Char) : List Node → List Node
  | [] => []
  | n :: ns => n.anew source ++ anewAll source ns

end

theorem mem_anewAll {m : Node} {ns : List Node} :
    m ∈ anewAll source ns ↔ ∃ n ∈ ns, m ∈ n.anew source := by
  induction ns with
  | nil => simp [anewAll]
  | cons n ns ih => simp [anewAll, ih]

theorem anew_of_none (h : n.originIn? source = none) : n.anew source = n.nodes := by
  obtain ⟨id, fields, component, origin, children⟩ := n
  simp only [anew, h]

theorem anew_of_type (ho : n.originIn? source = some o) (htype : o.fields.type ≠ n.fields.type) :
    n.anew source = n.nodes := by
  obtain ⟨id, fields, component, origin, children⟩ := n
  simp only at htype
  simp only [anew, ho, if_pos htype]

section

variable (ho : n.originIn? source = some o) (htype : o.fields.type = n.fields.type)

include ho htype

theorem anew_of_leaf (hleaf : n.isLeaf = true) :
    n.anew source = if n.textChanged then [n] else [] := by
  obtain ⟨id, fields, component, origin, children⟩ := n
  simp only at htype
  simp only [anew, ho, htype, ne_eq, not_true_eq_false, if_false, hleaf, if_true]

theorem anew_of_element (hleaf : n.isLeaf = false) :
    n.anew source =
      if o.place.content.isNone && (!n.children.isEmpty || n.text?.isSome) then n.nodes
      else (if n.propsChanged then [n] else []) ++ anewAll source n.children := by
  obtain ⟨id, fields, component, origin, children⟩ := n
  simp only at htype
  simp only [anew, ho, htype, ne_eq, not_true_eq_false, if_false, hleaf, Bool.false_eq_true]

end

theorem patched_of_type (ho : n.originIn? source = some o)
    (htype : o.fields.type ≠ n.fields.type) (depth : Nat) :
    n.patched source depth = n.markup defaultIndent depth := by
  obtain ⟨id, fields, component, origin, children⟩ := n
  simp only at htype
  simp only [patched, ho, if_pos htype.symm]

theorem Printable.element_of_isLeaf (h : n.Printable) (hleaf : n.isLeaf = false) :
    n.fields.IsRead ∧ n.fields.Closes := by
  cases h with
  | text htype => simp [isLeaf, isText, htype] at hleaf
  | expression htype => simp [isLeaf, isExpression, htype] at hleaf
  | element hread hcloses => exact ⟨hread, hcloses⟩

theorem Printable.isGroup (h : n.Printable) (htype : n.type = expressionType) :
    IsGroup n.group := by
  cases h with
  | text hrun => exact absurd (htype.symm.trans hrun) (by decide)
  | expression _ hgroup => exact hgroup
  | element hread => exact absurd htype (ne_textType_of_isName hread.name).2

/-! ## Texts and expressions -/

theorem text_of_textChanged (ho : n.originIn? source = some o) (h : n.textChanged = false) :
    n.fields.text = o.fields.text := by
  rw [textChanged, origin_of_originIn? ho] at h
  exact (bne_eq_false_iff_eq.1 h).symm

theorem spells_patched_text (ho : n.originIn? source = some o)
    (htype : o.fields.type = n.fields.type) (hrun : n.type = textType)
    (hplain : IsPlain o.place.fragment.toList) (depth : Nat) :
    Spells [n] (n.patched source depth) := by
  have hn : n.isText = true := beq_iff_eq.2 hrun
  rw [patched_text ho htype hrun]
  split
  · exact spells_escapeText hn _
  · exact hplain.spells_text hn

theorem spells_patched_expression (ho : n.originIn? source = some o)
    (htype : o.fields.type = n.fields.type) (hexpression : n.type = expressionType)
    (hgroup : IsGroup k.group) (hfields : o.fields = k.fields)
    (hfragment : o.place.fragment.toList = k.group)
    (hanew : ∀ m ∈ n.anew source, m.Printable) (depth : Nat) :
    Spells [n] (n.patched source depth) := by
  have hn : n.isExpression = true := beq_iff_eq.2 hexpression
  have hleaf : n.isLeaf = true := by rw [isLeaf, hn, Bool.or_true]
  rw [anew_of_leaf ho htype hleaf] at hanew
  rw [patched_expression ho htype hexpression]
  cases hchanged : n.textChanged with
  | true =>
    rw [hchanged] at hanew
    exact spells_group hn ((hanew n List.mem_cons_self).isGroup hexpression)
  | false =>
    have hsame : n.group = k.group := by
      rw [group, group, textChars, textChars, text_of_textChanged ho hchanged, hfields]
    rw [if_neg Bool.false_ne_true, hfragment, ← hsame]
    exact spells_group hn (hsame ▸ hgroup)

/-! ## Elements -/

theorem exists_openTag {as : List Attribute} {closed : Bool} {old : List Char}
    (ho : n.originIn? source = some o) (htype : o.fields.type = n.fields.type)
    (htag : IsOpenTag ⟨o.fields.type, as, closed⟩ old)
    (hfields : Fields.ofTag o.fields.type as = { o.fields with text := none })
    (hprintable : n.propsChanged = true → n.fields.IsRead ∧ n.fields.Closes) :
    ∃ as', IsOpenTag ⟨n.type, as', closed⟩
        (if n.propsChanged then n.fields.openTag closed else old) ∧ n.ShowsTag as' := by
  cases hprops : n.propsChanged with
  | true =>
    obtain ⟨hread, hcloses⟩ := hprintable hprops
    exact ⟨_, Fields.isOpenTag_openTag hread hcloses closed, .written rfl⟩
  | false =>
    rw [htype] at htag hfields
    exact ⟨as, htag, .kept (origin_of_originIn? ho) hprops htag.isRead hfields⟩

theorem exists_spliceText (region text : List Char) :
    ∃ front back, IsBlank front ∧ IsBlank back ∧ spliceText region text = front ++ (text ++ back) := by
  rw [spliceText]
  by_cases hblank : (Text.trim region).isEmpty
  · simp only [hblank, if_true]
    exact ⟨[], [], rfl, rfl, (List.append_nil _).symm⟩
  · obtain ⟨back, hregion, hback⟩ := exists_trim_append region
    have hdrop : region.drop ((Text.leading region).length + (Text.trim region).length) = back := by
      have hall := congrArg (List.drop (Text.leading region ++ Text.trim region).length) hregion
      rw [← List.append_assoc, List.drop_left, List.length_append] at hall
      exact hall.symm
    simp only [hblank, Bool.false_eq_true, if_false]
    refine ⟨Text.leading region, back, List.all_takeWhile, hback, ?_⟩
    rw [hdrop, List.append_assoc]

section Content

variable (hknown : AllImprinted source known) (hk : k ∈ known) (ho : n.originIn? source = some o)
  (hids : o.childIds = k.childIds) {content : Span} (hgaps : Gaps IsPlain source content k.children)
  (htext : o.fields.text =
    if k.children.isEmpty then Text.trimmed? (sliceOr source content) else none) {depth : Nat}

include ho hids hgaps htext

theorem heldBy_patched_childless (hchildren : n.children = []) :
    HeldBy n (n.patchedContent source depth o.childIds content) := by
  rw [patchedContent, hchildren, List.isEmpty_nil, if_pos rfl]
  split
  · rename_i hnone
    rw [hids, childIds, List.isEmpty_iff, List.map_eq_nil_iff] at hnone
    rw [hnone] at hgaps htext
    rw [patchedText]
    cases hchanged : n.textChanged with
    | true =>
      obtain ⟨front, back, hfront, hback, hsplice⟩ := exists_spliceText (sliceOr source content)
        (Value.escapeText (n.fields.text.getD ""))
      rw [if_pos rfl, hsplice]
      exact heldBy_escapeText hfront hback hchildren
    | false =>
      rw [if_neg Bool.false_ne_true]
      exact heldBy_kept hgaps hchildren ((text_of_textChanged ho hchanged).trans htext) hchanged
  · have hnone : IsBlank [] := rfl
    have hown := heldBy_escapeText (n := n) hnone hnone hchildren
    rwa [List.nil_append, List.append_nil, ← text?_getD] at hown

include hknown hk

theorem heldBy_patchedBetween (hrecalls : ∀ c ∈ n.children, c.Recalls known)
    (hne : n.children ≠ []) (hchanged : n.childrenChanged = false)
    (htextChanged : n.textChanged = false) (hin : inOrder source 0 n.children = true)
    (hbetween : Gaps IsPlain source content n.children →
      Spells n.children (patchedBetween source (depth + 1) content n.children)) :
    HeldBy n (patchedBetween source (depth + 1) content n.children) := by
  have hchildIds : n.childIds = k.childIds := by
    rw [childrenChanged, origin_of_originIn? ho] at hchanged
    exact (bne_eq_false_iff_eq.1 hchanged).symm.trans hids
  have horigins := origins_of_childIds hknown (hknown.children k hk) hrecalls
    (origin_ne_none_of_inOrder hin) hchildIds
  have hold : k.children.isEmpty = false := by
    have hlength := congrArg List.length hchildIds
    rw [childIds, childIds, List.length_map, List.length_map] at hlength
    refine List.isEmpty_eq_false_iff.2 fun hnil => hne ?_
    rw [hnil] at hlength
    exact List.length_eq_zero_iff.1 hlength
  -- Where there are children there was no text of the element's own.
  have hnone : n.text? = none := by
    rw [hold, if_neg Bool.false_ne_true] at htext
    rw [text?, text_of_textChanged ho htextChanged, htext]
    rfl
  refine Spells.heldBy hne ?_
  rw [inner, hnone]
  exact hbetween (gaps_of_origins horigins hgaps)

/-- What stands between the tags of an element that had content. -/
theorem heldBy_patched (hrecalls : ∀ c ∈ n.children, c.Recalls known)
    (hlines : Spells n.children (patchedLines source (depth + 1) n.children))
    (hbetween : ∀ (region : Span) (start : Nat), inOrder source start n.children = true →
      Gaps IsPlain source region n.children →
      Spells n.children (patchedBetween source (depth + 1) region n.children)) :
    HeldBy n (n.patchedContent source depth o.childIds content) := by
  by_cases hchildren : n.children = []
  · exact heldBy_patched_childless ho hids hgaps htext hchildren
  rw [patchedContent, if_neg (by rwa [List.isEmpty_iff])]
  split
  · have hbody := ((spells_firstLine depth n.text?).append hlines).append
      (isPlain_indentation depth).spells
    rw [List.append_nil] at hbody
    exact Spells.heldBy hchildren hbody
  · rename_i hsame
    rw [Bool.or_eq_true, Bool.or_eq_true, not_or, not_or, Bool.not_eq_true, Bool.not_eq_true,
      Bool.not_eq_true, Bool.not_eq_false'] at hsame
    obtain ⟨⟨hchanged, htextChanged⟩, hin⟩ := hsame
    exact heldBy_patchedBetween hknown hk ho hids hgaps htext hrecalls hchildren hchanged
      htextChanged hin (hbetween content 0 hin)

end Content

theorem spellsElement_patched_closed {as : List Attribute} (ho : n.originIn? source = some o)
    (htype : o.fields.type = n.fields.type) (hleaf : n.isLeaf = false)
    (hcontent : o.place.content = none)
    (htag : IsOpenTag ⟨o.fields.type, as, true⟩ o.place.fragment.toList)
    (hfields : Fields.ofTag o.fields.type as = { o.fields with text := none })
    (hanew : ∀ m ∈ n.anew source, m.Printable) (depth : Nat) :
    SpellsElement n (n.patched source depth) := by
  rw [anew_of_element ho htype hleaf, hcontent, Option.isNone_none, Bool.true_and] at hanew
  rw [patched_closed ho htype hleaf hcontent]
  cases hgrown : !n.children.isEmpty || n.text?.isSome with
  | true =>
    rw [hgrown] at hanew
    exact (spells_markup depth n hanew).2 hleaf
  | false =>
    rw [hgrown] at hanew
    rw [Bool.or_eq_false_iff, Bool.not_eq_false', List.isEmpty_iff, Option.isSome_eq_false_iff,
      Option.isNone_iff_eq_none] at hgrown
    obtain ⟨as', htag', hshows⟩ := exists_openTag ho htype htag hfields fun hprops => by
      rw [hprops] at hanew
      exact (hanew n List.mem_cons_self).element_of_isLeaf hleaf
    exact spellsElement_closed hleaf hgrown.1 hgrown.2 htag' hshows

/-- One node, when its children are spelled by what is written of them. -/
theorem spells_patched_of_children (hknown : AllImprinted source known)
    (hrecalls : ∀ m ∈ n.nodes, m.Recalls known) (hanew : ∀ m ∈ n.anew source, m.Printable)
    {depth : Nat}
    (hlines : (∀ m ∈ anewAll source n.children, m.Printable) →
      Spells n.children (patchedLines source (depth + 1) n.children))
    (hbetween : (∀ m ∈ anewAll source n.children, m.Printable) →
      ∀ (region : Span) (start : Nat), inOrder source start n.children = true →
        Gaps IsPlain source region n.children →
        Spells n.children (patchedBetween source (depth + 1) region n.children)) :
    Spells [n] (n.patched source depth) ∧
      (n.isLeaf = false → SpellsElement n (n.patched source depth)) := by
  cases ho : n.originIn? source with
  | none =>
    rw [anew_of_none ho] at hanew
    rw [patched_of_originIn?_eq_none ho]
    exact spells_markup depth n hanew
  | some o =>
    by_cases hother : o.fields.type ≠ n.fields.type
    · rw [anew_of_type ho hother] at hanew
      rw [patched_of_type ho hother]
      exact spells_markup depth n hanew
    have htype := Decidable.not_not.1 hother
    have horigin := origin_of_originIn? ho
    obtain ⟨k, hk, hmark⟩ := hrecalls n n.mem_nodes_self (by rw [horigin]; rintro ⟨⟩)
    have hko := (origin_of_mark hmark).symm.trans horigin
    cases hknown.imprint k hk with
    | text hfresh hrun hplain =>
      obtain rfl := Option.some.inj (hko.symm.trans hfresh)
      have hn : n.type = textType := htype.symm.trans hrun
      refine ⟨spells_patched_text ho htype hn hplain depth, fun hleaf => ?_⟩
      simp [isLeaf, isText, hn] at hleaf
    | expression hfresh hexpression hgroup hfragment =>
      obtain rfl := Option.some.inj (hko.symm.trans hfresh)
      have hn : n.type = expressionType := htype.symm.trans hexpression
      refine ⟨spells_patched_expression ho htype hn hgroup rfl hfragment hanew depth, fun hleaf => ?_⟩
      simp [isLeaf, isExpression, hn] at hleaf
    | closed hfresh hread _ hcontent _ hfields htag =>
      obtain rfl := Option.some.inj (hko.symm.trans hfresh)
      have hleaf : n.isLeaf = false := isLeaf_of_isName (by rw [type, ← htype]; exact hread.name)
      have helement := spellsElement_patched_closed ho htype hleaf hcontent htag hfields hanew depth
      exact ⟨helement.spells, fun _ => helement⟩
    | @element place content as hfresh hread _ hcontent hfields htag hclose hgaps htext =>
      obtain rfl := Option.some.inj (hko.symm.trans hfresh)
      have hleaf : n.isLeaf = false := isLeaf_of_isName (by rw [type, ← htype]; exact hread.name)
      rw [anew_of_element ho htype hleaf, hcontent, Option.isNone_some, Bool.false_and,
        if_neg Bool.false_ne_true] at hanew
      obtain ⟨hself, hbelow⟩ := List.forall_mem_append.1 hanew
      obtain ⟨as', htag', hshows⟩ := exists_openTag ho htype htag hfields fun hprops => by
        rw [hprops] at hself
        exact (hself n List.mem_cons_self).element_of_isLeaf hleaf
      have hbody := heldBy_patched hknown hk ho rfl hgaps htext
        (fun c hc => hrecalls c (mem_nodes_of_child hc)) (hlines hbelow) (hbetween hbelow)
      have hshut : IsCloseTag n.type (sliceOr source ⟨content.stop, place.span.stop⟩) := by
        rw [type, ← htype]
        exact hclose
      rw [patched_content ho htype hleaf hcontent]
      have helement := spellsElement_opened hleaf htag' hshows hbody hshut
      exact ⟨helement.spells, fun _ => helement⟩

mutual

/-- Whatever has become of a node and of what is below it, what is written of it is read back as it,
if all that is written anew can be printed. -/
theorem spells_patched (hknown : AllImprinted source known) (depth : Nat) : (n : Node) →
    (∀ m ∈ n.nodes, m.Recalls known) → (∀ m ∈ n.anew source, m.Printable) →
    Spells [n] (n.patched source depth) ∧
      (n.isLeaf = false → SpellsElement n (n.patched source depth))
  | ⟨id, fields, component, origin, children⟩, hrecalls, hanew => by
    have hbelow : ∀ m ∈ nodesAll children, m.Recalls known := fun m hm =>
      hrecalls m (mem_nodes_of_below hm)
    exact spells_patched_of_children hknown hrecalls hanew
      (spells_patchedLines hknown (depth + 1) children hbelow)
      (spells_patchedBetween hknown (depth + 1) children hbelow)

theorem spells_patchedLines (hknown : AllImprinted source known) (depth : Nat) :
    (ns : List Node) → (∀ m ∈ nodesAll ns, m.Recalls known) →
    (∀ m ∈ anewAll source ns, m.Printable) → Spells ns (patchedLines source depth ns)
  | [], _, _ => spells_nil
  | n :: ns, hrecalls, hanew => by
    have hn := spells_patched hknown depth n
      (fun m hm => hrecalls m (List.mem_append_left _ hm))
      (fun m hm => hanew m (List.mem_append_left _ hm))
    have hns := spells_patchedLines hknown depth ns
      (fun m hm => hrecalls m (List.mem_append_right _ hm))
      (fun m hm => hanew m (List.mem_append_right _ hm))
    rw [patchedLines]
    exact ((isPlain_indentation depth).spells.append hn.1).append hns.lineFeed

theorem spells_patchedBetween (hknown : AllImprinted source known) (depth : Nat) :
    (ns : List Node) → (∀ m ∈ nodesAll ns, m.Recalls known) →
    (∀ m ∈ anewAll source ns, m.Printable) → ∀ (region : Span) (start : Nat),
    inOrder source start ns = true → Gaps IsPlain source region ns →
    Spells ns (patchedBetween source depth region ns)
  | [], _, _ => fun _ _ _ hgaps => IsPlain.spells hgaps
  | n :: ns, hrecalls, hanew => by
    intro region start hin hgaps
    have hn := spells_patched hknown depth n
      (fun m hm => hrecalls m (List.mem_append_left _ hm))
      (fun m hm => hanew m (List.mem_append_left _ hm))
    obtain ⟨o, ho, hgap, hin, hmore⟩ := gaps_cons hin hgaps
    have hns := spells_patchedBetween hknown depth ns
      (fun m hm => hrecalls m (List.mem_append_right _ hm))
      (fun m hm => hanew m (List.mem_append_right _ hm)) _ _ hin hmore
    rw [patchedBetween_cons ho]
    exact ((IsPlain.spells hgap).append hn.1).append hns

end

end Node

end PageEditor
