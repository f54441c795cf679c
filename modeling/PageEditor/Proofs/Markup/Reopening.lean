import PageEditor.Proofs.Markup.ReadPages
import PageEditor.Proofs.Markup.TopLevel

/-!
# Pages that can be read again

When a page whose nodes have been deleted, copied and moved is written as a text that can be read
again. An element is read wherever it stands if the open tags that are written anew in it close their
braces. So all is decided behind the elements of that kind in front: a text or an expression there
must not have an element behind it, and an open tag that does not close takes in what follows.
-/
set_option autoImplicit false

namespace PageEditor

open Cursor

/-! ## The condition -/

namespace Node

/-- An element that is read wherever it is written. -/
def IsSturdy (source : List Char) (n : Node) : Prop :=
  n.isLeaf = false ∧ ∀ f ∈ n.rewritten source, f.Closes

instance (source : List Char) (n : Node) : Decidable (n.IsSturdy source) :=
  inferInstanceAs (Decidable (_ ∧ _))

/-- What is written of a region from the first node on that is not sturdy. -/
def pendingBetween (source : List Char) (region : Span) : List Node → List Char
  | [] => patchedBetween source 0 region []
  | n :: ns =>
    match n.originIn? source with
    | some o =>
      if n.IsSturdy source then pendingBetween source ⟨o.place.span.stop, region.stop⟩ ns
      else patchedBetween source 0 region (n :: ns)
    | none => patchedBetween source 0 region (n :: ns)

end Node

namespace Tree

variable (source : List Char) (t : Tree)

/-- The sturdy elements in front of all other top-level nodes. -/
def leading : List Node := t.root.children.takeWhile fun n => decide (n.IsSturdy source)

/-- The top-level nodes from the first one on that is not sturdy. -/
def pending : List Node := t.root.children.dropWhile fun n => decide (n.IsSturdy source)

/-- Whether the top-level nodes are written on lines of their own, not in their old places. -/
def isRelined : Bool := t.root.childrenChanged || !Node.inOrder source 0 t.root.children

/-- The text of the top-level nodes. -/
def body (region : Span) : List Char :=
  if t.isRelined source then Node.patchedTop source t.root.children
  else Node.patchedBetween source 0 region t.root.children

/-- What stands in the old text behind all top-level nodes. -/
def behind : List Char :=
  match t.root.origin with
  | some o => sliceOr source ⟨o.place.span.stop, Text.byteLength source⟩
  | none => []

/-- What is written behind the sturdy elements in front. -/
def remainder : List Char :=
  match t.root.origin with
  | some o =>
    (if t.isRelined source then Node.patchedTop source (t.pending source)
      else Node.pendingBetween source o.place.span t.root.children) ++ t.behind source
  | none => []

/-- What is written behind the sturdy elements in front is read as elements, which must come first
where none of them is there. Only a page that begins with a semicolon or an import statement has to be
looked at as a whole. -/
def Reopens (source : String) (t : Tree) : Prop :=
  if t.leading source.toList = [] ∧ ¬EndsImports (t.remainder source.toList) then
    (Page.read (t.regenerate source)).isOk = true
  else HoldsElements (t.leading source.toList).isEmpty (t.remainder source.toList)

instance (source : String) (t : Tree) : Decidable (t.Reopens source) :=
  inferInstanceAs (Decidable (ite _ _ _))

/-- What makes sure that a rearranged page can be read again. -/
structure Orderly (source : List Char) (t : Tree) : Prop where
  /-- Texts and expressions stand behind all elements, and there is no tag in them. -/
  pending : ∀ n ∈ t.pending source, n.isLeaf = true ∧ '<' ∉ n.textChars
  /-- They need an element in front of them, and no tag may stand behind them. -/
  behind : t.pending source ≠ [] → t.leading source ≠ [] ∧ '<' ∉ t.behind source
  /-- Without any node, only blanks and comments are left over. -/
  emptied : t.root.children = [] → (ofText (t.behind source)).skipTrivia.rest = []

theorem leading_append_pending : t.leading source ++ t.pending source = t.root.children :=
  List.takeWhile_append_dropWhile

theorem isSturdy_of_mem_leading {n : Node} (hn : n ∈ t.leading source) : n.IsSturdy source :=
  of_decide_eq_true (List.all_eq_true.1 List.all_takeWhile n hn)

theorem leading_ne_nil_iff :
    t.leading source ≠ [] ↔ ∃ n ns, t.root.children = n :: ns ∧ n.IsSturdy source := by
  rw [leading]
  cases t.root.children with
  | nil => simp
  | cons n ns =>
    rw [List.takeWhile_cons]
    by_cases hn : n.IsSturdy source <;> simp [hn]

end Tree

/-! ## Texts that begin with a tag -/

variable {source new tail : List Char} {imports : List Import} {c : Cursor}

/-- A text that begins, behind blanks and comments, with a tag. -/
def Opens (new : List Char) : Prop := ∃ r, (ofText new).skipTrivia.rest = '<' :: r

theorem opens_of_trivia {a r : List Char} (ha : IsTrivia a) : Opens (a ++ '<' :: r) := by
  have hrest : ((ofText (a ++ '<' :: r)).advance a.length).rest = '<' :: r := advance_rest_append rfl
  refine ⟨r, ?_⟩
  rw [ha _ ('<' :: r) rfl, skipTrivia_of_less hrest, hrest]

theorem IsElement.opens {cs : List Char} (h : IsElement cs) (rest : List Char) :
    Opens (cs ++ rest) := by
  obtain ⟨r, rfl⟩ := h.head
  exact opens_of_trivia isTrivia_nil

theorem endsImports_of_head (h : ∀ x, (ofText new).skipTrivia.rest.head? = some x → x = '<') :
    EndsImports new := by
  refine ⟨fun hsemi => absurd (h ';' hsemi) (by decide), Bool.eq_false_iff.2 fun hany => ?_⟩
  obtain ⟨l, hl, ht⟩ := (Option.any_eq_true _ _).1 hany
  obtain ⟨r, hr⟩ := head_of_import hl (by simpa using ht)
  exact absurd (h 'i' (by rw [hr]; rfl)) (by decide)

theorem Opens.head (h : Opens new) :
    ∀ x, (ofText new).skipTrivia.rest.head? = some x → x = '<' := by
  obtain ⟨r, hr⟩ := h
  intro x hx
  rw [hr] at hx
  exact (Option.some.inj hx).symm

theorem Opens.holdsElements_iff (h : Opens new) :
    HoldsElements true new ↔ HoldsElements false new := by
  have hnew : (ofText new).rest = new := rfl
  rw [PageEditor.holdsElements_iff hnew, PageEditor.holdsElements_iff hnew, exists_elements_true]
  exact and_iff_right h.head

/-! ## Texts without tags -/

theorem IsPlain.less_notMem {cs : List Char} (h : IsPlain cs) : '<' ∉ cs := by
  intro hmem
  exact absurd (h '<' hmem) (by decide)

namespace Node

variable {known : List Node} {n : Node}

theorem less_notMem_group (h : '<' ∉ n.textChars) : '<' ∉ n.group := by
  simp [group, h]

theorem less_notMem_patched (hknown : AllStand source known) (h : n.StemsFrom known)
    (hleaf : n.isLeaf = true) (hless : '<' ∉ n.textChars) (depth : Nat) :
    '<' ∉ n.patched source depth := by
  obtain ⟨k, hk, hfields, _, horigin⟩ := h
  have htype : n.type = k.type := by rw [type, type, hfields]
  have hgroup : n.group = k.group := by rw [group, group, textChars, textChars, hfields]
  -- An element is no leaf.
  have hname : ¬Token.IsName k.type.toList := fun h => by
    rw [isLeaf_of_isName (htype ▸ h)] at hleaf
    cases hleaf
  cases ho : n.originIn? source with
  | none =>
    rw [patched_of_originIn?_eq_none ho]
    cases hknown.stands k hk with
    | text _ hk =>
      rw [markup_text (htype.trans hk)]
      exact Value.less_notMem_escapeText hless
    | expression _ hk =>
      rw [markup_expression (htype.trans hk)]
      exact less_notMem_group hless
    | closed _ hread => exact absurd hread.name hname
    | element _ hread => exact absurd hread.name hname
  | some o =>
    have hn := origin_of_originIn? ho
    rcases horigin with hnone | ⟨_, horigin⟩
    · cases hn.symm.trans hnone
    have hko := horigin.symm.trans hn
    cases hknown.stands k hk with
    | text hfresh hk hplain =>
      obtain rfl := Option.some.inj (hko.symm.trans hfresh)
      rw [patched_leaf ho hfields.symm (.inl (htype.trans hk))]
      exact hplain.less_notMem
    | expression hfresh hk _ hfragment =>
      obtain rfl := Option.some.inj (hko.symm.trans hfresh)
      rw [patched_leaf ho hfields.symm (.inr (htype.trans hk)), hfragment, ← hgroup]
      exact less_notMem_group hless
    | closed _ hread => exact absurd hread.name hname
    | element _ hread => exact absurd hread.name hname

/-! ## The top level -/

theorem patchedTop_cons {ns : List Node} (hns : ns ≠ []) (n : Node) :
    patchedTop source (n :: ns) = n.patched source 0 ++ '\n' :: patchedTop source ns := by
  cases ns with
  | nil => exact absurd rfl hns
  | cons m ns => rfl

theorem exists_patchedTop (source : List Char) (n : Node) (ns : List Node) :
    ∃ rest, patchedTop source (n :: ns) = n.patched source 0 ++ rest := by
  cases ns with
  | nil => exact ⟨[], (List.append_nil _).symm⟩
  | cons m ns => exact ⟨_, rfl⟩

theorem less_notMem_patchedTop {ns : List Node} (h : ∀ n ∈ ns, '<' ∉ n.patched source 0) :
    '<' ∉ patchedTop source ns := by
  induction ns with
  | nil => exact List.not_mem_nil
  | cons n ns ih =>
    obtain ⟨hn, hns⟩ := List.forall_mem_cons.1 h
    by_cases hnil : ns = []
    · subst hnil
      exact hn
    · rw [patchedTop_cons hnil]
      simp [hn, ih hns]

theorem isTopLevel_lineFeed : IsTopLevel ['\n'] :=
  (isTrivia_of_blanks (by decide)).isTopLevel

/-- Elements on lines of their own make no difference to what stands behind them. -/
theorem holdsElements_patchedTop {es ls : List Node} (hes : ∀ n ∈ es, IsElement (n.patched source 0)) :
    HoldsElements false (patchedTop source (es ++ ls) ++ tail) ↔
      HoldsElements false (patchedTop source ls ++ tail) := by
  induction es with
  | nil => exact Iff.rfl
  | cons n es ih =>
    obtain ⟨hn, hes⟩ := List.forall_mem_cons.1 hes
    rw [List.cons_append]
    by_cases hnil : es ++ ls = []
    · obtain ⟨rfl, rfl⟩ := List.append_eq_nil_iff.1 hnil
      exact hn.isTopLevel tail
    · rw [patchedTop_cons hnil, List.append_assoc, List.cons_append]
      exact (hn.isTopLevel _).trans ((isTopLevel_lineFeed _).trans (ih hes))

section Between

variable {region : Span} {ns : List Node}

theorem pendingBetween_cons {o : Origin} (ho : n.originIn? source = some o) :
    pendingBetween source region (n :: ns) =
      if n.IsSturdy source then pendingBetween source ⟨o.place.span.stop, region.stop⟩ ns
      else patchedBetween source 0 region (n :: ns) := by
  rw [pendingBetween, ho]

theorem holdsElements_pendingBetween
    (hns : ∀ n ∈ ns, n.IsSturdy source → IsElement (n.patched source 0)) {start : Nat}
    (hin : inOrder source start ns = true) (hgaps : Gaps IsTrivia source region ns) :
    HoldsElements false (patchedBetween source 0 region ns ++ tail) ↔
      HoldsElements false (pendingBetween source region ns ++ tail) := by
  induction ns generalizing region start with
  | nil => exact Iff.rfl
  | cons n ns ih =>
    obtain ⟨hn, hns⟩ := List.forall_mem_cons.1 hns
    obtain ⟨o, ho, hgap, hin, hmore⟩ := gaps_cons hin hgaps
    rw [pendingBetween_cons ho]
    split
    · rename_i hsturdy
      rw [patchedBetween_cons ho, List.append_assoc, List.append_assoc]
      exact (hgap.isTopLevel _).trans (((hn hsturdy).isTopLevel _).trans (ih hns hin hmore))
    · exact Iff.rfl

theorem isTrivia_pendingBetween (hns : ∀ n ∈ ns, n.IsSturdy source) {start : Nat}
    (hin : inOrder source start ns = true) (hgaps : Gaps IsTrivia source region ns) :
    IsTrivia (pendingBetween source region ns) := by
  induction ns generalizing region start with
  | nil => exact hgaps
  | cons n ns ih =>
    obtain ⟨hn, hns⟩ := List.forall_mem_cons.1 hns
    obtain ⟨o, ho, _, hin, hmore⟩ := gaps_cons hin hgaps
    rw [pendingBetween_cons ho, if_pos hn]
    exact ih hns hin hmore

theorem opens_patchedBetween (hn : IsElement (n.patched source 0)) {start : Nat}
    (hin : inOrder source start (n :: ns) = true) (hgaps : Gaps IsTrivia source region (n :: ns))
    (rest : List Char) : Opens (patchedBetween source 0 region (n :: ns) ++ rest) := by
  obtain ⟨o, ho, hgap, _, _⟩ := gaps_cons hin hgaps
  obtain ⟨r, hr⟩ := hn.head
  rw [patchedBetween_cons ho, hr, List.append_assoc, List.append_assoc, List.cons_append]
  exact opens_of_trivia hgap

end Between

end Node

/-! ## Edited pages -/

section Edited

variable {ms : List Markup} {ids : IdSource} {e : Cursor} {t : Tree}

theorem patched_of_root {o : Origin} (hc : (ofText source).Leads c) (he : c.Leads e)
    (ho : t.root.originIn? source = some o) (hspan : o.place.span = c.span e) :
    t.patched source = (ofText source).upTo c ++ (t.body source (c.span e) ++ e.rest) := by
  have hfront : sliceOr source ⟨0, c.offset⟩ = (ofText source).upTo c := upTo_ofText hc
  have hback : sliceOr source ⟨e.offset, Text.byteLength source⟩ = e.rest :=
    sliceOr_rest (hc.trans he)
  rw [Tree.patched, ho]
  simp only [hspan]
  rw [← List.append_assoc, ← hback, ← hfront]
  rfl

theorem originIn?_ofParts (imports : List Import) (ids : IdSource) (hc : (ofText source).Leads c)
    (htop : ReadsTop c ms e) :
    ∃ o, (Page.ofParts source imports ms ids).tree.root.originIn? source = some o ∧
      o.place.span = c.span e ∧
      o.childIds = (Page.ofParts source imports ms ids).tree.root.childIds := by
  rw [Page.ofParts, htop.region, slice_of_leads hc htop.leads]
  refine ⟨_, (Node.isFresh_withPlace _ _).originIn? ?_, rfl, rfl⟩
  exact slice_fragment hc htop.leads

variable (hc : (ofText source).Leads c) (htop : ReadsTop c ms e)
  (hstems : (Page.ofParts source imports ms ids).tree.StemsFrom t)

include hc htop hstems

theorem exists_originIn? :
    ∃ o, t.root.originIn? source = some o ∧ o.place.span = c.span e ∧
      o.childIds = (Page.ofParts source imports ms ids).tree.root.childIds := by
  obtain ⟨o, ho, hrest⟩ := originIn?_ofParts imports ids hc htop
  obtain ⟨cs, hroot⟩ := hstems.root
  refine ⟨o, ?_, hrest⟩
  rw [hroot]
  exact ho

theorem behind_eq : t.behind source = e.rest := by
  obtain ⟨o, ho, hspan, _⟩ := exists_originIn? hc htop hstems
  rw [Tree.behind, Node.origin_of_originIn? ho]
  simp only [hspan]
  exact sliceOr_rest (hc.trans htop.leads)

theorem patched_of_stemsFrom :
    t.patched source = (ofText source).upTo c ++ (t.body source (c.span e) ++ e.rest) := by
  obtain ⟨o, ho, hspan, _⟩ := exists_originIn? hc htop hstems
  exact patched_of_root hc htop.leads ho hspan

/-- While the top-level nodes are the same, they are elements, and only blanks and comments stand
between them. -/
theorem unchanged_top (hlines : ¬t.isRelined source) :
    Node.inOrder source 0 t.root.children = true ∧ t.root.children ≠ [] ∧
      (∀ n ∈ t.root.children, n.isLeaf = false) ∧
      Gaps IsTrivia source (c.span e) t.root.children := by
  rw [Tree.isRelined, Bool.or_eq_true, not_or, Bool.not_eq_true, Bool.not_eq_true,
    Bool.not_eq_false'] at hlines
  obtain ⟨hids, hin⟩ := hlines
  have hknown := (allImprinted_ofParts imports ids htop hc).allStand
  obtain ⟨o, ho, _, hchildIds⟩ := exists_originIn? hc htop hstems
  have hsame : t.root.childIds =
      (Page.ofParts source imports ms ids).tree.root.childIds := by
    rw [Node.childrenChanged, Node.origin_of_originIn? ho] at hids
    simp only [bne_eq_false_iff_eq] at hids
    exact hids.symm.trans hchildIds
  obtain ⟨hfields, horigins⟩ := Node.heads_of_childIds hknown
    (fun _ hm => Node.mem_nodesAll hm) (fun n hn => hstems.below n (Node.mem_nodesAll hn))
    (Node.origin_ne_none_of_inOrder hin) hsame
  refine ⟨hin, ?_, ?_, ?_⟩
  · intro hnil
    rw [hnil] at hfields
    have hold := List.map_eq_nil_iff.1 hfields.symm
    cases ms with
    | nil => exact htop.ne_nil rfl
    | cons m ms => cases hold
  · intro n hn
    have hmem : n.fields ∈ t.root.children.map (·.fields) := List.mem_map.2 ⟨n, hn, rfl⟩
    rw [hfields] at hmem
    obtain ⟨k, hk, hkn⟩ := List.mem_map.1 hmem
    have hleaf := htop.isLeaf imports ids k hk
    simp only [Node.isLeaf, Node.isText, Node.isExpression, Node.type] at hleaf ⊢
    rw [← hkn]
    exact hleaf
  · exact gaps_of_origins horigins
      ((htop.row joins_isTrivia (fun _ hne => isTrivia_upTo_skipTrivia hne) hc).tiles imports hc ids).gaps

theorem remainder_eq :
    t.remainder source =
      (if t.isRelined source then Node.patchedTop source (t.pending source)
        else Node.pendingBetween source (c.span e) t.root.children) ++ e.rest := by
  obtain ⟨o, ho, hspan, _⟩ := exists_originIn? hc htop hstems
  rw [Tree.remainder, Node.origin_of_originIn? ho, behind_eq hc htop hstems]
  simp only [hspan]

theorem isElement_of_isSturdy {n : Node} (hn : n ∈ t.root.children) (hsturdy : n.IsSturdy source) :
    IsElement (n.patched source 0) := by
  have hknown := allImprinted_ofParts imports ids htop hc
  refine Node.isElement_patched hknown ?_ hsturdy.2 hsturdy.1 0
  exact fun m hm => hstems.below m (Node.mem_nodesAll_iff.2 ⟨n, hn, hm⟩)

/-- The sturdy elements in front make no difference to whether elements are read. -/
theorem holdsElements_body :
    HoldsElements false (t.body source (c.span e) ++ e.rest) ↔
      HoldsElements false (t.remainder source) := by
  have helement := fun n hn => isElement_of_isSturdy hc htop hstems (n := n) hn
  rw [remainder_eq hc htop hstems, Tree.body]
  by_cases hlines : t.isRelined source
  · rw [if_pos hlines, if_pos hlines, ← t.leading_append_pending source]
    refine Node.holdsElements_patchedTop fun n hn => helement n ?_ (t.isSturdy_of_mem_leading source hn)
    rw [← t.leading_append_pending source]
    exact List.mem_append_left _ hn
  · rw [if_neg hlines, if_neg hlines]
    obtain ⟨hin, _, _, hgaps⟩ := unchanged_top hc htop hstems hlines
    exact Node.holdsElements_pendingBetween helement hin hgaps

theorem remainder_of_leading_nil (hnil : t.leading source = []) :
    t.remainder source = t.body source (c.span e) ++ e.rest := by
  rw [remainder_eq hc htop hstems, Tree.body]
  by_cases hlines : t.isRelined source
  · rw [if_pos hlines, if_pos hlines, ← t.leading_append_pending source, hnil, List.nil_append]
  · rw [if_neg hlines, if_neg hlines]
    obtain ⟨hin, hne, _, hgaps⟩ := unchanged_top hc htop hstems hlines
    obtain ⟨n, ns, hcons⟩ := List.exists_cons_of_ne_nil hne
    rw [hcons] at hin hgaps ⊢
    obtain ⟨o, ho, _⟩ := gaps_cons hin hgaps
    rw [Node.pendingBetween_cons ho, if_neg]
    exact fun hsturdy => (t.leading_ne_nil_iff source).2 ⟨n, ns, hcons, hsturdy⟩ hnil

theorem opens_body (hne : t.leading source ≠ []) :
    Opens (t.body source (c.span e) ++ e.rest) := by
  obtain ⟨n, ns, hcons, hsturdy⟩ := (t.leading_ne_nil_iff source).1 hne
  have helement := isElement_of_isSturdy hc htop hstems (hcons ▸ List.mem_cons_self) hsturdy
  rw [Tree.body]
  by_cases hlines : t.isRelined source
  · obtain ⟨rest, hrest⟩ := Node.exists_patchedTop source n ns
    rw [if_pos hlines, hcons, hrest, List.append_assoc]
    exact helement.opens _
  · rw [if_neg hlines]
    obtain ⟨hin, _, _, hgaps⟩ := unchanged_top hc htop hstems hlines
    rw [hcons] at hin hgaps ⊢
    exact Node.opens_patchedBetween helement hin hgaps _

theorem endsImports_of_orderly (horderly : t.Orderly source) (hnil : t.leading source = []) :
    EndsImports (t.remainder source) ∧ HoldsElements true (t.remainder source) := by
  have hpending : t.pending source = [] :=
    Decidable.byContradiction fun hne => (horderly.behind hne).1 hnil
  have hempty : t.root.children = [] := by
    rw [← t.leading_append_pending source, hnil, hpending]
    rfl
  have hlines : t.isRelined source = true :=
    Decidable.byContradiction fun hlines => (unchanged_top hc htop hstems hlines).2.1 hempty
  have htrivia := horderly.emptied hempty
  rw [behind_eq hc htop hstems] at htrivia
  rw [remainder_eq hc htop hstems, if_pos hlines, hpending]
  refine ⟨endsImports_of_head ?_, isOk_iff.2 ⟨[], elements_of_nil htrivia⟩⟩
  rw [Node.patchedTop, List.nil_append, htrivia]
  rintro _ ⟨⟩

theorem holdsElements_of_orderly (horderly : t.Orderly source) :
    HoldsElements false (t.remainder source) := by
  rw [remainder_eq hc htop hstems]
  by_cases hpending : t.pending source = []
  · have hend : HoldsElements false e.rest := (holdsElements_iff rfl).2 ⟨[], htop.end⟩
    by_cases hlines : t.isRelined source
    · rw [if_pos hlines, hpending]
      exact hend
    · obtain ⟨hin, _, _, hgaps⟩ := unchanged_top hc htop hstems hlines
      rw [if_neg hlines]
      refine ((Node.isTrivia_pendingBetween (fun n hn => ?_) hin hgaps).isTopLevel _).2 hend
      rw [← t.leading_append_pending source, hpending, List.append_nil] at hn
      exact t.isSturdy_of_mem_leading source hn
  · have hmem : ∀ n ∈ t.pending source, n ∈ t.root.children := fun n hn =>
      (List.dropWhile_sublist _).subset hn
    have hlines : t.isRelined source = true := by
      refine Decidable.byContradiction fun hlines => ?_
      obtain ⟨n, ns, hcons⟩ := List.exists_cons_of_ne_nil hpending
      have hn : n ∈ t.pending source := hcons ▸ List.mem_cons_self
      have helement := (unchanged_top hc htop hstems hlines).2.2.1 n (hmem n hn)
      exact absurd ((horderly.pending n hn).1.symm.trans helement) (by rintro ⟨⟩)
    have htexts : ∀ n ∈ t.pending source, '<' ∉ n.patched source 0 := by
      intro n hn
      obtain ⟨hleaf, hless⟩ := horderly.pending n hn
      exact Node.less_notMem_patched (allImprinted_ofParts imports ids htop hc).allStand
        (hstems.below n (Node.mem_nodesAll (hmem n hn))) hleaf hless 0
    have htail := (horderly.behind hpending).2
    rw [behind_eq hc htop hstems] at htail
    rw [if_pos hlines]
    refine holdsElements_of_notMem fun hless => ?_
    rcases List.mem_append.1 hless with hless | hless
    · exact Node.less_notMem_patchedTop htexts hless
    · exact htail hless

end Edited

/-! ## Reading again -/

theorem Page.isOk_read {source key : String} : (Page.read source key).isOk = true ↔
    ∃ is d, (ofText source.toList).prelude = .ok (is, d) ∧ ∃ ms, d.elements true = .ok ms := by
  rw [isOk_iff]
  constructor
  · rintro ⟨p, hp⟩
    obtain ⟨is, d, ms, hprelude, helements, _⟩ := Page.read_eq_ok hp
    exact ⟨is, d, hprelude, ms, helements⟩
  · rintro ⟨is, d, hprelude, ms, helements⟩
    exact ⟨_, bind_eq_ok.2 ⟨_, hprelude, bind_eq_ok.2 ⟨ms, helements, rfl⟩⟩⟩

theorem root_of_stemsFrom_nil {source : List Char} {is : List Import} {ids : IdSource} {t : Tree}
    (h : (Page.ofParts source is [] ids).tree.StemsFrom t) :
    t.root = (Page.ofParts source is [] ids).tree.root := by
  obtain ⟨cs, hroot⟩ := h.root
  have hempty : t.root.children = [] := by
    cases hn : t.root.children with
    | nil => rfl
    | cons n ns =>
      obtain ⟨k, hk, _⟩ := h.below n (Node.mem_nodesAll (hn ▸ List.mem_cons_self))
      cases hk
  have hcs : cs = [] := by rwa [hroot] at hempty
  rw [hroot, hcs]
  rfl

theorem regenerate_congr {t u : Tree} (h : t.root = u.root) (source : String) :
    t.regenerate source = u.regenerate source := by
  obtain ⟨root, parents, ids⟩ := t
  obtain ⟨root', parents', ids'⟩ := u
  simp only at h
  subst h
  rfl

section Again

variable {source : String} {imports : List Import} {c e : Cursor} {ms : List Markup}
  {ids : IdSource} {t : Tree}

theorem isOk_read_of_endsImports (hprelude : (ofText source.toList).prelude = .ok (imports, c))
    (htop : ReadsTop c ms e) (hstems : (Page.ofParts source.toList imports ms ids).tree.StemsFrom t)
    (hends : EndsImports (t.body source.toList (c.span e) ++ e.rest)) (key : String) :
    (Page.read (t.regenerate source) key).isOk = true ↔
      HoldsElements true (t.body source.toList (c.span e) ++ e.rest) := by
  have hc := leads_of_prelude hprelude
  obtain ⟨r, hr⟩ := htop.head
  have hpatched : (ofText (t.patched source.toList)).rest = _ := patched_of_stemsFrom hc htop hstems
  obtain ⟨is, d, hread, hnames, hrest⟩ :=
    prelude_grafted hprelude (hr ▸ List.cons_ne_nil _ _) hends hpatched
  have hregenerate : (t.regenerate source).toList = t.patched source.toList := by
    simp [Tree.regenerate, Tree.syncImports, hread, missing_of_stemsFrom hstems hnames]
  rw [Page.isOk_read, hregenerate, holdsElements_iff hrest]
  constructor
  · rintro ⟨is', d', hread', ms', hms'⟩
    obtain ⟨rfl, rfl⟩ := Prod.mk.inj (Except.ok.inj (hread.symm.trans hread'))
    exact ⟨ms', (elements_congr (skipTrivia_skipTrivia d)).symm.trans hms'⟩
  · rintro ⟨ms', hms'⟩
    exact ⟨is, d.skipTrivia, hread, ms', (elements_congr (skipTrivia_skipTrivia d)).trans hms'⟩

theorem reopens_of_nil (hprelude : (ofText source.toList).prelude = .ok (imports, c))
    (helements : c.elements true = .ok [])
    (hstems : (Page.ofParts source.toList imports [] ids).tree.StemsFrom t) :
    EndsImports (t.remainder source.toList) ∧
      HoldsElements (t.leading source.toList).isEmpty (t.remainder source.toList) := by
  obtain ⟨d, hd, hoffset, hskip⟩ := end_of_prelude hprelude
  have hchildren : t.root.children = [] := by
    rw [root_of_stemsFrom_nil hstems]
    rfl
  have horigin : ∃ o, t.root.origin = some o ∧ o.place.span = d.span d := by
    rw [root_of_stemsFrom_nil hstems]
    refine ⟨_, rfl, ?_⟩
    show Span.mk (Import.endOffset imports) (Import.endOffset imports) = _
    rw [hoffset]
    rfl
  obtain ⟨o, ho, hspan⟩ := horigin
  have hgap : sliceOr source.toList (d.span d) = [] :=
    (sliceOr_of_leads hd (Leads.refl d)).trans (upTo_self d)
  have hremainder : t.remainder source.toList = d.rest := by
    have hbehind : t.behind source.toList = d.rest := by
      simp only [Tree.behind, ho, hspan]
      exact sliceOr_rest hd
    rw [Tree.remainder, ho, Tree.pending, hchildren, hbehind]
    simp only [hspan, List.dropWhile_nil, Node.patchedTop, Node.pendingBetween,
      Node.patchedBetween, hgap, ite_self, List.nil_append]
  have hnil : (ofText d.rest).skipTrivia.rest = [] := by
    have hempty := elements_eq_nil helements
    rw [skipTrivia_of_prelude hprelude, ← hskip] at hempty
    rw [← hempty]
    exact skipTrivia_rest rfl
  rw [hremainder, Tree.leading, hchildren]
  refine ⟨endsImports_of_head ?_, isOk_iff.2 ⟨[], elements_of_nil hnil⟩⟩
  rw [hnil]
  rintro _ ⟨⟩

/-- A page that was read and rearranged can be read again just if it meets the condition. -/
theorem isOk_read_regenerate {key : String} {p : Page} (hp : Page.read source key = .ok p)
    (hstems : p.tree.StemsFrom t) (key' : String) :
    (Page.read (t.regenerate source) key').isOk = true ↔ t.Reopens source := by
  obtain ⟨imports, c, ms, hprelude, helements, rfl⟩ := Page.read_eq_ok hp
  by_cases hms : ms = []
  · subst hms
    obtain ⟨hends, hholds⟩ := reopens_of_nil hprelude helements hstems
    rw [Tree.Reopens, if_neg fun h => h.2 hends, iff_true_right hholds,
      regenerate_congr (root_of_stemsFrom_nil hstems), regenerate_eq_of_read hp]
    exact Page.isOk_read.2 ⟨imports, c, hprelude, [], helements⟩
  · have hc := leads_of_prelude hprelude
    obtain ⟨e, htop⟩ := readsTop_of_elements _ true c ms (Nat.le_refl _) helements hms
    rw [skipTrivia_of_prelude hprelude] at htop
    rw [Tree.Reopens]
    by_cases hnil : t.leading source.toList = []
    · have hbody := remainder_of_leading_nil hc htop hstems hnil
      by_cases hends : EndsImports (t.remainder source.toList)
      · rw [if_neg fun h => h.2 hends, hnil, List.isEmpty_nil]
        rw [hbody] at hends ⊢
        exact isOk_read_of_endsImports hprelude htop hstems hends key'
      · rw [if_pos ⟨hnil, hends⟩, Page.isOk_read, Page.isOk_read]
    · have hopens := opens_body hc htop hstems hnil
      rw [if_neg fun h => hnil h.1, List.isEmpty_eq_false_iff.2 hnil,
        isOk_read_of_endsImports hprelude htop hstems (endsImports_of_head hopens.head) key',
        hopens.holdsElements_iff]
      exact holdsElements_body hc htop hstems

theorem Tree.Orderly.reopens {key : String} {p : Page} (h : t.Orderly source.toList)
    (hp : Page.read source key = .ok p) (hstems : p.tree.StemsFrom t) : t.Reopens source := by
  obtain ⟨imports, c, ms, hprelude, helements, rfl⟩ := Page.read_eq_ok hp
  rw [Tree.Reopens]
  by_cases hms : ms = []
  · subst hms
    obtain ⟨hends, hholds⟩ := reopens_of_nil hprelude helements hstems
    rw [if_neg fun hno => hno.2 hends]
    exact hholds
  · have hc := leads_of_prelude hprelude
    obtain ⟨e, htop⟩ := readsTop_of_elements _ true c ms (Nat.le_refl _) helements hms
    rw [skipTrivia_of_prelude hprelude] at htop
    by_cases hnil : t.leading source.toList = []
    · obtain ⟨hends, hholds⟩ := endsImports_of_orderly hc htop hstems h hnil
      rw [if_neg fun hno => hno.2 hends, hnil]
      exact hholds
    · rw [if_neg fun hno => hnil hno.1, List.isEmpty_eq_false_iff.2 hnil]
      exact holdsElements_of_orderly hc htop hstems h

/-- A text behind the sturdy elements needs one of them in front of it and must be without tags. -/
theorem Tree.reopens_iff_of_text {x : Char} {r : List Char} (hx : x ≠ '<')
    (htext : (ofText (t.remainder source.toList)).skipTrivia.rest = x :: r)
    (hends : EndsImports (t.remainder source.toList)) :
    t.Reopens source ↔ t.leading source.toList ≠ [] ∧ '<' ∉ x :: r := by
  rw [Tree.Reopens, if_neg fun hno => hno.2 hends, HoldsElements, elements_of_text htext hx, htext]
  cases t.leading source.toList with
  | nil => simp [Except.isOk, Except.toBool]
  | cons n ns => by_cases hless : '<' ∈ x :: r <;> simp [hless, Except.isOk, Except.toBool]

end Again

end PageEditor
