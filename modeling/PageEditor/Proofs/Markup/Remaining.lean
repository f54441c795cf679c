import PageEditor.Proofs.Markup.Parts
import PageEditor.Proofs.Markup.Renewed
import PageEditor.Proofs.Markup.RoundTrip
import PageEditor.Proofs.Tree.Deletions

/-!
# Nodes that are left

Where nodes have been deleted from a page that was read, what is written of the others says what they
say. Their tags, texts and expressions are taken over. Between the tags of an element whose children
are all left the old text stands, in which two texts are never neighbours, and otherwise each child
gets a line of its own; so no word runs into the next one.
-/
set_option autoImplicit false

namespace PageEditor

open Cursor

/-! ## Neighbours -/

namespace Node

theorem Alternate.cons {n : Node} {ns : List Node} (hn : n.isText = false) (h : Alternate ns) :
    Alternate (n :: ns) := by
  cases ns with
  | nil => trivial
  | cons m ns => exact ⟨fun hboth => Bool.false_ne_true (hn.symm.trans hboth.1), h⟩

theorem Alternate.of_rest {ns ks : List Node} (hrest : List.Forall₂ IsRestOf ns ks)
    (h : Alternate ks) : Alternate ns := by
  have htext : ∀ {n k : Node}, n.IsRestOf k → n.isText = k.isText := fun hn => by
    rw [isText, isText, type, type, hn.fields]
  induction hrest with
  | nil => trivial
  | cons hn hns ih =>
    cases hns with
    | nil => trivial
    | cons hm hms =>
      refine ⟨?_, ih h.2⟩
      rw [htext hn, htext hm]
      exact h.1

end Node

section Reads

variable {source : List Char} {imports : List Import} {c stop : Cursor} {m : Markup}
  {ms : List Markup}

theorem alternate_textRuns (c : Cursor) (hm : ∀ g, (Node.ofMarkup imports g m).1.isText = false)
    (hms : ∀ g, Node.Alternate (Node.allOfMarkup imports g ms).1) (g : IdSource) :
    Node.Alternate (Node.allOfMarkup imports g (c.textRuns ++ m :: ms)).1 := by
  have hmore : ∀ g, Node.Alternate (Node.allOfMarkup imports g (m :: ms)).1 := fun g => by
    rw [allOfMarkup_cons]
    exact (hms _).cons (hm g)
  rw [textRuns]
  cases c.textRun? c.skipText with
  | none => exact hmore g
  | some t =>
    have hnext := hmore (Node.ofMarkup imports g t).2
    rw [Option.toList_some, List.singleton_append, allOfMarkup_cons]
    rw [allOfMarkup_cons] at hnext ⊢
    exact ⟨fun hboth => Bool.false_ne_true ((hm _).symm.trans hboth.2), hnext⟩

/-- Between two texts that were read stands a tag or a brace. -/
theorem alternate_of_reads (h : Reads c ms stop) :
    ∀ g, Node.Alternate (Node.allOfMarkup imports g ms).1 := by
  have hsolid : ∀ {n : Node}, n.isLeaf = false → n.isText = false := fun hleaf =>
    (Bool.or_eq_false_iff.1 hleaf).1
  induction h with
  | @stop c r hr =>
    intro g
    rw [textRuns]
    cases c.textRun? c.skipText <;> trivial
  | closed _ htag _ _ ih =>
    exact alternate_textRuns _ (fun g =>
      hsolid (isLeaf_ofMarkup_element imports g _ (isName_of_openTag htag) _ _)) ih
  | element _ htag _ _ _ _ _ ih =>
    exact alternate_textRuns _ (fun g =>
      hsolid (isLeaf_ofMarkup_element imports g _ (isName_of_openTag htag) _ _)) ih
  | expression _ _ _ ih => exact alternate_textRuns _ (fun _ => rfl) ih

theorem Node.IsMade.alternate {n : Node} (h : n.IsMade source imports) :
    Node.Alternate n.children := by
  obtain ⟨g, m, s, e, rfl, hm⟩ := h
  cases hm with
  | text => trivial
  | expression => trivial
  | element _ _ hm =>
    cases hm with
    | closed => trivial
    | @element inner close after tag held htag hclosed hheld hclose =>
      rw [openedElement]
      rcases ofMarkup_element imports g ⟨s.span e, s.span inner, some (inner.span close),
        String.ofList (s.upTo e)⟩ tag.name tag.attributes held with ⟨_, _, _, hn⟩ | hn
      · rw [hn]
        trivial
      · rw [hn]
        exact alternate_of_reads hheld _

end Reads

/-! ## Texts that say what a node says -/

/-- The text says what the node says, in front of whatever is said behind it. Behind a run of text the
last word must be over. -/
structure Node.SaidBy (imports : List Import) (n : Node) (cs : List Char) : Prop where
  front : ∀ {ps : List Part} {more : List Char}, (n.isText = true → EndsWord more) →
    HoldsParts imports ps more → HoldsParts imports (n.parts ++ ps) (cs ++ more)
  marked : n.isText = false → ∀ more, EndsWord (cs ++ more)

section Said

variable {source : List Char} {imports : List Import} {n k : Node} {ns : List Node}
  {cs : List Char}

theorem IsElementWith.saidBy (h : IsElementWith (·.HasParts imports n.parts) cs) :
    n.SaidBy imports cs := by
  refine ⟨fun _ hmore => hmore.element h, fun _ more => ?_⟩
  obtain ⟨r, rfl⟩ := h.head
  exact endsWord_of_endsText (by decide) (r ++ more)

theorem IsPlain.saidBy (h : IsPlain cs) (hn : n.isText = true)
    (hparts : n.parts = Part.ofChars cs) : n.SaidBy imports cs := by
  refine ⟨fun hends hmore => ?_, fun hno => absurd (hn.symm.trans hno) (by decide)⟩
  rw [hparts]
  exact hmore.text h (hends hn)

theorem IsGroup.saidBy (h : IsGroup cs) (hparts : n.parts = [.node
      { type := expressionType, text := some (String.ofList cs.tail.dropLast) } none []]) :
    n.SaidBy imports cs := by
  refine ⟨fun _ hmore => ?_, fun _ more => ?_⟩
  · rw [hparts]
    exact hmore.group h
  · obtain ⟨inner, rfl⟩ := h.exists_inside
    exact endsWord_of_endsText (by decide) _

theorem holdsParts_patchedLines {depth : Nat} {ps : List Part} {more : List Char}
    (hns : ∀ n ∈ ns, n.SaidBy imports (n.patched source depth))
    (hmore : HoldsParts imports ps more) :
    HoldsParts imports (Node.partsAll ns ++ ps) (Node.patchedLines source depth ns ++ more) := by
  induction ns with
  | nil => exact hmore
  | cons n ns ih =>
    obtain ⟨hn, hns⟩ := List.forall_mem_cons.1 hns
    have hfeed : IsBlank ['\n'] := by decide
    rw [Node.partsAll, Node.patchedLines, List.append_assoc, List.append_assoc, List.append_assoc]
    refine .blank (isBlank_indentation depth)
      (hn.front (fun _ => ?_) (.blank (a := ['\n']) hfeed (ih hns)))
    intro x hx
    cases hx
    exact .inl (by decide)

section Between

variable {depth : Nat} {region : Span} {start : Nat}

theorem endsWord_patchedBetween (hns : ∀ n ∈ ns, n.SaidBy imports (n.patched source depth))
    (hin : Node.inOrder source start ns = true) (hgaps : Gaps IsBlank source region ns)
    (hfirst : ∀ n ∈ ns.head?, n.isText = false) :
    EndsWord (Node.patchedBetween source depth region ns) := by
  cases ns with
  | nil =>
    have hgap : IsBlank (sliceOr source region) := hgaps
    have hends := hgap.endsWord_append endsWord_nil
    rwa [List.append_nil] at hends
  | cons n ns =>
    obtain ⟨o, ho, hgap, _, _⟩ := gaps_cons hin hgaps
    rw [Node.patchedBetween_cons ho, List.append_assoc]
    exact hgap.endsWord_append ((hns n List.mem_cons_self).marked (hfirst n rfl) _)

theorem holdsParts_patchedBetween (hns : ∀ n ∈ ns, n.SaidBy imports (n.patched source depth))
    (hin : Node.inOrder source start ns = true) (hgaps : Gaps IsBlank source region ns)
    (halternate : Node.Alternate ns) :
    HoldsParts imports (Node.partsAll ns) (Node.patchedBetween source depth region ns) := by
  induction ns generalizing region start with
  | nil => exact holdsParts_blank hgaps
  | cons n ns ih =>
    obtain ⟨hn, hns⟩ := List.forall_mem_cons.1 hns
    obtain ⟨o, ho, hgap, hin, hmore⟩ := gaps_cons hin hgaps
    rw [Node.partsAll, Node.patchedBetween_cons ho, List.append_assoc]
    refine .blank hgap (hn.front (fun htext => ?_) (ih hns hin hmore halternate.tail))
    refine endsWord_patchedBetween hns hin hmore fun m hm => ?_
    exact Bool.eq_false_iff.2 fun hmtext => halternate.of_text htext m hm hmtext

end Between

/-! ## Leaves -/

/-- A text or an expression that was read says the same wherever it stands. -/
theorem Node.IsMade.saidBy_leaf (h : k.IsMade source imports) (hleaf : k.isLeaf = true) :
    ∃ place, k.IsFresh place ∧ k.SaidBy imports place.fragment.toList := by
  obtain ⟨g, m, s, e, rfl, hm⟩ := h
  cases hm with
  | text hs hse hplain =>
    refine ⟨_, Node.isFresh_withPlace _ _, ?_⟩
    rw [Place.solid, String.toList_ofList]
    exact (isPlain_of_all hplain).saidBy rfl rfl
  | expression hs hr hbraced =>
    refine ⟨_, Node.isFresh_withPlace _ _, ?_⟩
    rw [Place.solid, String.toList_ofList]
    exact (isGroup_of_braced hr hbraced).saidBy rfl
  | element _ _ hm =>
    have hsolid : (Node.ofMarkup imports g m).1.isLeaf = false := isLeaf_of_readsElement hm g
    cases hsolid.symm.trans hleaf

theorem Node.IsRestOf.parts (h : n.IsRestOf k) (hleaf : n.isLeaf = true) : n.parts = k.parts := by
  have htext : n.isText = k.isText := by rw [isText, isText, type, type, h.fields]
  cases hn : n.isText with
  | true => rw [parts_text hn, parts_text (htext.symm.trans hn), h.fields]
  | false =>
    have hexpression : n.isExpression = true := by rwa [Node.isLeaf, hn, Bool.false_or] at hleaf
    have hk : k.isExpression = true := by
      rwa [isExpression, type, ← h.fields]
    rw [parts_expression hexpression, parts_expression hk, h.fields, h.component]

theorem Node.saidBy_patched_leaf (hk : k.IsMade source imports) (hrest : n.IsRestOf k)
    (hleaf : n.isLeaf = true) (depth : Nat) : n.SaidBy imports (n.patched source depth) := by
  obtain ⟨place, hfresh, hsaid⟩ := hk.saidBy_leaf (hrest.isLeaf.symm.trans hleaf)
  obtain ⟨place', hlaid⟩ := hk.laidOut
  obtain rfl : place' = place :=
    congrArg Origin.place (Option.some.inj (hlaid.fresh.symm.trans hfresh))
  have ho : n.originIn? source = some ⟨place', k.fields, k.childIds⟩ := by
    rw [originIn?, hrest.origin]
    exact hlaid.fresh.originIn? hlaid.slice
  have htext : n.isText = k.isText := by rw [isText, isText, type, type, hrest.fields]
  rw [patched_leaf ho hrest.fields.symm (by simpa [isLeaf, isText, isExpression, type] using hleaf)]
  refine ⟨fun hends hmore => ?_, fun hn => hsaid.marked (htext.symm.trans hn)⟩
  rw [hrest.parts hleaf]
  exact hsaid.front (fun hk => hends (htext.trans hk)) hmore

/-! ## Elements -/

namespace Node

variable {known : List Node} {place : Place} {content : Span}

/-- What stands between the tags of an element of which not more than children have gone. -/
theorem holdsParts_patchedBody (hk : k.LaidOut source place) (hcontent : place.content = some content)
    (hplain : Gaps IsPlain source content k.children) (halternate : Alternate k.children)
    (hrest : n.IsRestOf k)
    (hchildren : n.childIds = k.childIds → List.Forall₂ IsRestOf n.children k.children) {depth : Nat}
    (hsaid : ∀ c ∈ n.children, c.SaidBy imports (c.patched source (depth + 1))) :
    HoldsParts imports (Part.ofText (n.fields.text.getD "") ++ partsAll n.children)
      (n.patchedBody source depth k.childIds content) := by
  obtain ⟨-, hholds⟩ := hk.content content hcontent
  rw [hrest.fields, patchedBody]
  by_cases hnone : k.children = []
  · obtain ⟨body, hbody, htext, _⟩ := hholds.text hnone
    have hsliceOr : sliceOr source content = body := by rw [sliceOr, hbody, Option.getD_some]
    have hids : k.childIds.isEmpty = true := by rw [childIds, hnone]; rfl
    have hbodyPlain : IsPlain (sliceOr source content) := by
      rw [hnone] at hplain
      exact hplain
    rw [hrest.children_nil hnone, htext, Part.ofText_trimmed?, ← hsliceOr, hids, partsAll,
      List.append_nil]
    exact holdsParts_plain hbodyPlain
  obtain ⟨hno, htiles⟩ := hholds.children hnone
  have hnoText : n.text? = none := by rw [text?, hrest.fields, hno]; rfl
  have hids : k.childIds.isEmpty = false := by
    rw [childIds, List.isEmpty_map]
    exact List.isEmpty_eq_false_iff.2 hnone
  rw [hno, hnoText]
  show HoldsParts imports (partsAll n.children) _
  by_cases hgone : n.children = []
  · rw [hgone, hids]
    exact holdsParts_nil
  rw [if_neg (by rwa [List.isEmpty_iff])]
  split
  · have hfeed : IsBlank ['\n'] := by decide
    have hlines := (holdsParts_patchedLines hsaid
      (holdsParts_blank (isBlank_indentation depth))).blank hfeed
    rwa [List.append_nil] at hlines
  · rename_i hsame
    rw [not_or, Decidable.not_not, Bool.not_eq_false] at hsame
    have hall := hchildren hsame.1.symm
    have horigins : n.children.map (·.origin) = k.children.map (·.origin) :=
      List.forall₂_eq_eq_eq ▸ List.forall₂_map_left_iff.2 (List.forall₂_map_right_iff.2
        (hall.imp fun _ _ h => h.origin))
    exact holdsParts_patchedBetween hsaid hsame.2 (gaps_of_origins horigins htiles.gaps)
      (.of_rest hall halternate)

theorem hasParts_patched_of_children (hknown : AllImprinted source known)
    (hmade : ∀ k ∈ known, k.IsMade source imports) (hk : k ∈ known) (hrest : n.IsRestOf k)
    (hleaf : n.isLeaf = false) {depth : Nat}
    (hrests : ∀ c ∈ n.children, ∃ k ∈ known, c.IsRestOf k)
    (hsaid : ∀ c ∈ n.children, c.SaidBy imports (c.patched source (depth + 1))) :
    IsElementWith (·.HasParts imports n.parts) (n.patched source depth) := by
  obtain ⟨place, hlaid⟩ := (hmade k hk).laidOut
  have ho : n.originIn? source = some ⟨place, k.fields, k.childIds⟩ := by
    rw [originIn?, hrest.origin]
    exact hlaid.fresh.originIn? hlaid.slice
  have hkleaf : k.isLeaf = false := hrest.isLeaf.symm.trans hleaf
  have hcomponent := (hmade k hk).component
  rw [hkleaf, if_neg Bool.false_ne_true, ← hrest.component] at hcomponent
  have hparts : ∀ {as : List Attribute}, Fields.ofTag k.type as = { k.fields with text := none } →
      n.parts = [.node (Fields.ofTag k.type as) (ComponentInfo.ofTag? imports k.type)
        (Part.ofText (n.fields.text.getD "") ++ partsAll n.children)] := by
    intro as hfields
    rw [parts_element hleaf, hfields, hcomponent, hrest.fields]
  have hsolid : ∀ {place'}, k.IsFresh place' → place' = place := by
    intro place' hfresh
    exact congrArg Origin.place (Option.some.inj (hfresh.symm.trans hlaid.fresh))
  cases (hmade k hk).imprint with
  | text _ htype => simp [isLeaf, isText, htype] at hkleaf
  | expression _ htype => simp [isLeaf, isExpression, htype] at hkleaf
  | closed hfresh hread hsame hcontent htext hfields htag =>
    obtain rfl := hsolid hfresh
    have hname : Token.IsName k.type.toList := hread.name
    have hne := ne_textType_of_isName hname
    have hchildren := hrest.children_nil (hlaid.solid hcontent).2
    rw [patched_solid ho hrest.fields.symm (hrest.fields ▸ hne.1) (hrest.fields ▸ hne.2)
      (hrest.fields ▸ hsame) hcontent (by rw [text?, hrest.fields, htext]; rfl), hchildren]
    rw [hparts hfields, hrest.fields, htext, hchildren]
    exact hasParts_closed hname htag
  | @element place content as hfresh hread hsame hcontent hfields htag hclose hgaps htext =>
    obtain rfl := hsolid hfresh
    have hname : Token.IsName k.type.toList := hread.name
    have hne := ne_textType_of_isName hname
    rw [patched_element ho hrest.fields.symm (hrest.fields ▸ hne.1) (hrest.fields ▸ hne.2)
      (hrest.fields ▸ hsame) hcontent, hparts hfields]
    refine hasParts_opened hname htag (holdsParts_patchedBody hlaid hcontent hgaps
      (hmade k hk).alternate hrest (fun hids => ?_) hsaid) hclose
    exact isRestOf_children hknown.unique hrests (hknown.children k hk) hids

mutual

/-- Whatever has been deleted below a node and beside it, what is written of it says what it says. -/
theorem saidBy_patched (hknown : AllImprinted source known)
    (hmade : ∀ k ∈ known, k.IsMade source imports) (depth : Nat) : (n : Node) →
    (∀ m ∈ n.nodes, ∃ k ∈ known, m.IsRestOf k) →
    n.SaidBy imports (n.patched source depth) ∧
      (n.isLeaf = false → IsElementWith (·.HasParts imports n.parts) (n.patched source depth))
  | ⟨id, fields, component, origin, children⟩, hrests => by
    obtain ⟨k, hk, hrest⟩ := hrests _ (mem_nodes_self _)
    have hbelow : ∀ m ∈ nodesAll children, ∃ k ∈ known, m.IsRestOf k := fun m hm =>
      hrests m (mem_nodes_of_below hm)
    have hchildren := saidBy_patchedAll hknown hmade (depth + 1) children hbelow
    have helement := fun hleaf => hasParts_patched_of_children hknown hmade hk hrest hleaf
      (fun c hc => hbelow c (mem_nodesAll hc)) hchildren
    refine ⟨?_, helement⟩
    by_cases hleaf : isLeaf ⟨id, fields, component, origin, children⟩ = true
    · exact saidBy_patched_leaf (hmade k hk) hrest hleaf depth
    · exact (helement (Bool.not_eq_true _ ▸ hleaf)).saidBy

theorem saidBy_patchedAll (hknown : AllImprinted source known)
    (hmade : ∀ k ∈ known, k.IsMade source imports) (depth : Nat) : (ns : List Node) →
    (∀ m ∈ nodesAll ns, ∃ k ∈ known, m.IsRestOf k) →
    ∀ n ∈ ns, n.SaidBy imports (n.patched source depth)
  | [], _ => by rintro _ ⟨⟩
  | m :: ns, hrests => by
    have hm := saidBy_patched hknown hmade depth m fun k hk => hrests k (List.mem_append_left _ hk)
    have hns := saidBy_patchedAll hknown hmade depth ns fun k hk =>
      hrests k (List.mem_append_right _ hk)
    exact List.forall_mem_cons.2 ⟨hm.1, hns⟩

end

end Node

end Said

end PageEditor
