import Mathlib.Data.List.TakeWhile
import PageEditor.Proofs.Markup.Kept
import PageEditor.Proofs.Markup.Pieces
import PageEditor.Proofs.Tree.Nodes

/-!
# The layout of markup

What an element holds is a row of pieces, runs of text, expressions and elements, one behind the
other with blanks between them. The top-level elements are a row as well. Every node of a page is
the node of one piece, and the places of the nodes of a row tile the text that the row was read from.
-/
set_option autoImplicit false

namespace PageEditor

open Cursor

/-! ## Gaps -/

/-- What two neighbouring pieces of text are, they are together. -/
structure Joins (P : List Char → Prop) : Prop where
  nil : P []
  append : ∀ {a b : List Char}, P a → P b → P (a ++ b)

theorem Joins.upTo_self {P : List Char → Prop} (hP : Joins P) (c : Cursor) : P (c.upTo c) := by
  rw [Cursor.upTo_self]
  exact hP.nil

/-- A text of nothing but white space. -/
def IsBlank (cs : List Char) : Prop := cs.all Text.isBlank = true

instance (cs : List Char) : Decidable (IsBlank cs) := inferInstanceAs (Decidable (_ = true))

theorem trim_eq_nil_iff (cs : List Char) : Text.trim cs = [] ↔ IsBlank cs := by
  rw [Text.trim, Text.trimEnd, List.reverse_eq_nil_iff, List.dropWhile_eq_nil_iff, IsBlank,
    List.all_eq_true]
  constructor
  · intro h x hx
    rw [← Text.leading_append_trimStart cs, List.mem_append] at hx
    rcases hx with hx | hx
    · exact List.all_eq_true.1 List.all_takeWhile x hx
    · exact h x (List.mem_reverse.2 hx)
  · intro h x hx
    exact h x ((List.dropWhile_suffix _).subset (List.mem_reverse.1 hx))

theorem textRun?_eq_none {c d : Cursor} : c.textRun? d = none ↔ IsBlank (c.upTo d) := by
  rw [← trim_eq_nil_iff, textRun?]
  simp [List.isEmpty_iff]

theorem joins_isBlank : Joins IsBlank := by
  refine ⟨rfl, ?_⟩
  intro a b ha hb
  rw [IsBlank, List.all_append, Bool.and_eq_true]
  exact ⟨ha, hb⟩

/-- The places of the nodes stand in the region one behind the other, and what stands in front of,
between and behind them has `P`. -/
def Tiles (P : List Char → Prop) (source : List Char) : Span → List Node → Prop
  | region, [] => ∃ gap, Text.slice source region = some gap ∧ P gap
  | region, n :: ns =>
    ∃ o, n.origin = some o ∧ o.place.span.start ≤ o.place.span.stop ∧
      (∃ gap, Text.slice source ⟨region.start, o.place.span.start⟩ = some gap ∧ P gap) ∧
      Tiles P source ⟨o.place.span.stop, region.stop⟩ ns

variable {P Q : List Char → Prop} {source : List Char} {imports : List Import} {m : Markup}
  {ms : List Markup} {c d s e stop : Cursor}

theorem Tiles.imp (hPQ : ∀ cs, P cs → Q cs) {ns : List Node} :
    ∀ {region : Span}, Tiles P source region ns → Tiles Q source region ns := by
  induction ns with
  | nil =>
    rintro region ⟨gap, hslice, hgap⟩
    exact ⟨gap, hslice, hPQ gap hgap⟩
  | cons n ns ih =>
    rintro region ⟨o, ho, hle, ⟨gap, hslice, hgap⟩, hmore⟩
    exact ⟨o, ho, hle, ⟨gap, hslice, hPQ gap hgap⟩, ih hmore⟩

/-- Where the nodes stand is told by their origins. -/
theorem Tiles.of_origins {ns ks : List Node} : ∀ {region : Span}, Tiles P source region ks →
    ns.map (·.origin) = ks.map (·.origin) → Tiles P source region ns := by
  induction ns generalizing ks with
  | nil =>
    intro region htiles h
    rw [List.map_nil] at h
    rwa [List.map_eq_nil_iff.1 h.symm] at htiles
  | cons n ns ih =>
    intro region htiles h
    cases ks with
    | nil => cases h
    | cons k ks =>
      obtain ⟨hn, hns⟩ := List.cons.inj h
      obtain ⟨o, ho, hle, hgap, hmore⟩ := htiles
      exact ⟨o, hn.trans ho, hle, hgap, ih hmore hns⟩

/-! ## Trimming -/

theorem trim_blank_append {a : List Char} (h : IsBlank a) (b : List Char) :
    Text.trim (a ++ b) = Text.trim b := by
  rw [Text.trim, Text.trimStart, List.dropWhile_append_of_pos (List.all_eq_true.1 h), Text.trim,
    Text.trimStart]

theorem trim_append_blank (a : List Char) {b : List Char} (h : IsBlank b) :
    Text.trim (a ++ b) = Text.trim a := by
  have hback : ∀ cs, Text.trimEnd (cs ++ b) = Text.trimEnd cs := by
    intro cs
    have hreverse : ∀ x ∈ b.reverse, Text.isBlank x = true := fun x hx =>
      List.all_eq_true.1 h x (List.mem_reverse.1 hx)
    rw [Text.trimEnd, List.reverse_append, List.dropWhile_append_of_pos hreverse, Text.trimEnd]
  rw [Text.trim, Text.trimStart, List.dropWhile_append]
  split
  · rename_i hempty
    have hnil := hback []
    rw [List.nil_append] at hnil
    have hb : b.dropWhile Text.isBlank = [] :=
      List.dropWhile_eq_nil_iff.2 (List.all_eq_true.1 h)
    rw [Text.trim, Text.trimStart, hb, List.isEmpty_iff.1 hempty]
  · rw [hback, Text.trim, Text.trimStart]

/-- A text without the blanks at its ends, if anything is left of it. -/
def Text.trimmed? (cs : List Char) : Option String :=
  if (trim cs).isEmpty then none else some (String.ofList (trim cs))

theorem exists_textRun?_iff {c d : Cursor} {t : String} :
    (∃ p, c.textRun? d = some (.text p t)) ↔ Text.trimmed? (c.upTo d) = some t := by
  rw [textRun?, Text.trimmed?]
  split
  · simp
  · simp

theorem trimmed?_eq_none (cs : List Char) : Text.trimmed? cs = none ↔ IsBlank cs := by
  rw [Text.trimmed?, ← trim_eq_nil_iff]
  simp [List.isEmpty_iff]

theorem exists_textRuns {t : String} (h : Text.trimmed? (c.upTo c.skipText) = some t) :
    ∃ place, c.textRuns = [.text place t] := by
  obtain ⟨place, hrun⟩ := exists_textRun?_iff.2 h
  exact ⟨place, Option.toList_eq_singleton_iff.2 hrun⟩

/-! ## Rows -/

/-- A piece of markup that was read between two positions in the text. -/
inductive Markup.ReadAt (source : List Char) : Markup → Cursor → Cursor → Prop
  | text {s e : Cursor} (hs : (ofText source).Leads s) (hse : s.Leads e)
      (hplain : (s.upTo e).all (fun x => !endsText x) = true) :
      ReadAt source
        (.text (.solid (s.span e) (String.ofList (s.upTo e))) (String.ofList (s.upTo e))) s e
  | expression {s e : Cursor} {r : List Char} (hs : (ofText source).Leads s)
      (hr : s.rest = '\x7b' :: r) (hbraced : s.braced = .ok e) :
      ReadAt source (s.expression e) s e
  | element {s e : Cursor} {m : Markup} {r : List Char} (hs : (ofText source).Leads s)
      (hr : s.rest = '<' :: r) (hm : ReadsElement s m e) : ReadAt source m s e

/-- The pieces stand one behind the other from here to `stop`, and what stands in front of, between
and behind them has `P`. -/
inductive Row (P : List Char → Prop) (source : List Char) : Cursor → List Markup → Cursor → Prop
  | nil {c stop : Cursor} (h : c.Leads stop) (hgap : P (c.upTo stop)) : Row P source c [] stop
  | cons {c s e stop : Cursor} {m : Markup} {ms : List Markup} (hcs : c.Leads s)
      (hgap : P (c.upTo s)) (hm : m.ReadAt source s e) (hms : Row P source e ms stop) :
      Row P source c (m :: ms) stop

theorem Markup.ReadAt.start (h : m.ReadAt source s e) : (ofText source).Leads s := by
  cases h <;> assumption

theorem Markup.ReadAt.leads (h : m.ReadAt source s e) : s.Leads e := by
  cases h with
  | text _ hse => exact hse
  | expression _ _ hbraced => exact leads_of_braced hbraced
  | element _ _ hm => exact hm.leads

theorem Row.of_leads (hP : Joins P) (hcd : c.Leads d) (hgap : P (c.upTo d))
    (h : Row P source d ms stop) : Row P source c ms stop := by
  cases h with
  | nil h hback =>
    refine .nil (hcd.trans h) ?_
    rw [← hcd.upTo_append h]
    exact hP.append hgap hback
  | cons hds hfront hm hms =>
    refine .cons (hcd.trans hds) ?_ hm hms
    rw [← hcd.upTo_append hds]
    exact hP.append hgap hfront

/-! ## What elements hold -/

theorem row_textRuns (hc : (ofText source).Leads c) (hms : Row IsBlank source c.skipText ms stop) :
    Row IsBlank source c (c.textRuns ++ ms) stop := by
  have hskip := leads_skipText c
  have hplain : (c.upTo c.skipText).all (fun x => !endsText x) = true := by
    have hup : c.upTo c.skipText = c.rest.takeWhile fun x => !endsText x :=
      upTo_advance_takeWhile c _
    rw [hup]
    exact List.all_takeWhile
  rw [textRuns]
  cases hrun : c.textRun? c.skipText with
  | none =>
    refine hms.of_leads joins_isBlank hskip ?_
    exact textRun?_eq_none.1 hrun
  | some m =>
    obtain ⟨s, e, hcs, hse, hed, ⟨hfront, hback, _⟩, rfl⟩ := textRun?_eq_some hskip hrun
    rw [← (hcs.trans hse).upTo_append hed, ← hcs.upTo_append hse] at hplain
    simp only [List.all_append, Bool.and_eq_true] at hplain
    exact .cons hcs hfront (.text (hc.trans hcs) hse hplain.1.2)
      (hms.of_leads joins_isBlank hed hback)

theorem row_of_reads (h : Reads c ms stop) (hc : (ofText source).Leads c) :
    Row IsBlank source c ms stop := by
  induction h with
  | stop =>
    have hnil := row_textRuns hc (.nil (Leads.refl _) (joins_isBlank.upTo_self _))
    rwa [List.append_nil] at hnil
  | @closed c after _ _ _ _ hr htag hclosed _ ih =>
    have hskip := hc.trans (leads_skipText c)
    have hm := ReadsElement.closed htag hclosed
    exact row_textRuns hc (.cons (Leads.refl _) (joins_isBlank.upTo_self _) (.element hskip hr hm)
      (ih (hskip.trans hm.leads)))
  | @element c inner close after _ _ _ _ _ hr htag hclosed hheld hclose _ _ ih =>
    have hskip := hc.trans (leads_skipText c)
    have hm := ReadsElement.element htag hclosed hheld hclose
    exact row_textRuns hc (.cons (Leads.refl _) (joins_isBlank.upTo_self _) (.element hskip hr hm)
      (ih (hskip.trans hm.leads)))
  | @expression c after _ _ _ hr hbraced _ ih =>
    have hskip := hc.trans (leads_skipText c)
    exact row_textRuns hc (.cons (Leads.refl _) (joins_isBlank.upTo_self _)
      (.expression hskip hr hbraced) (ih (hskip.trans (leads_of_braced hbraced))))

theorem reads_of_texts (h : Reads c ms stop) (htexts : ∀ m ∈ ms, ∃ p t, m = .text p t) :
    ms = c.textRuns ∧ stop = c.skipText := by
  cases h with
  | stop => exact ⟨rfl, rfl⟩
  | closed =>
    obtain ⟨_, _, hm⟩ := htexts _ (List.mem_append_right _ List.mem_cons_self)
    cases hm
  | element =>
    obtain ⟨_, _, hm⟩ := htexts _ (List.mem_append_right _ List.mem_cons_self)
    cases hm
  | expression =>
    obtain ⟨_, _, hm⟩ := htexts _ (List.mem_append_right _ List.mem_cons_self)
    cases hm

theorem trimmed?_of_reads {p : Place} {t : String} (h : Reads c [.text p t] stop) :
    Text.trimmed? (c.upTo stop) = some t := by
  obtain ⟨hms, rfl⟩ := reads_of_texts h fun m hm => ⟨p, t, List.mem_singleton.1 hm⟩
  exact exists_textRun?_iff.1 ⟨p, Option.toList_eq_singleton_iff.1 hms.symm⟩

theorem isBlank_of_reads (h : Reads c [] stop) : IsBlank (c.upTo stop) := by
  obtain ⟨hms, rfl⟩ := reads_of_texts h (by rintro _ ⟨⟩)
  exact textRun?_eq_none.1 (Option.toList_eq_nil_iff.1 hms.symm)

theorem IsBlank.isPlain {cs : List Char} (h : IsBlank cs) : IsPlain cs := by
  intro x hx
  have hblank := List.all_eq_true.1 h x hx
  cases hends : endsText x with
  | false => rfl
  | true =>
    rw [endsText, Bool.or_eq_true, beq_iff_eq, beq_iff_eq] at hends
    rcases hends with rfl | rfl
    · exact absurd hblank (by decide)
    · exact absurd hblank (by decide)

theorem isPlain_of_row_text {p : Place} {t : String} {inner close : Cursor}
    (h : Row IsBlank source inner [.text p t] close) : IsPlain (inner.upTo close) := by
  cases h with
  | cons hcs hfront hm hms =>
    cases hms with
    | nil hback hblank =>
      cases hm with
      | text _ hse hplain =>
        rw [← (hcs.trans hse).upTo_append hback, ← hcs.upTo_append hse]
        exact (hfront.isPlain.append (isPlain_of_all hplain)).append hblank.isPlain
      | element _ _ hm => cases hm

/-! ## The nodes of a row -/

theorem origin_of_element (imports : List Import) (g : IdSource) (place : Place) (tag : String)
    (attributes : List Attribute) (held : List Markup) :
    ∃ o, (Node.ofMarkup imports g (.element place tag attributes held)).1.origin = some o ∧
      o.place = place := by
  obtain ⟨_, _, hn⟩ := exists_ofMarkup_element imports place tag attributes g held
  rw [hn]
  exact ⟨_, rfl, rfl⟩

theorem nodes_elementNode (id : String) (place : Place) (tag : String)
    (attributes : List Attribute) (text : Option String) (nodes : List Node) :
    (elementNode imports id place tag attributes text nodes).nodes =
      elementNode imports id place tag attributes text nodes :: Node.nodesAll nodes := by
  rw [Node.nodes_eq]
  rfl

theorem origin_of_readsElement (h : ReadsElement c m e) (g : IdSource) :
    ∃ o, (Node.ofMarkup imports g m).1.origin = some o ∧ o.place.span = c.span e := by
  cases h with
  | closed =>
    obtain ⟨o, ho, hplace⟩ := origin_of_element imports g _ _ _ _
    exact ⟨o, ho, by rw [hplace]; rfl⟩
  | element =>
    obtain ⟨o, ho, hplace⟩ := origin_of_element imports g _ _ _ _
    exact ⟨o, ho, by rw [hplace]⟩

theorem Markup.ReadAt.origin (imports : List Import) (h : m.ReadAt source s e) (g : IdSource) :
    ∃ o, (Node.ofMarkup imports g m).1.origin = some o ∧ o.place.span = s.span e := by
  cases h with
  | text => exact ⟨_, rfl, rfl⟩
  | expression => exact ⟨_, rfl, rfl⟩
  | element _ _ hm => exact origin_of_readsElement hm g

theorem Row.tiles (imports : List Import) (h : Row P source c ms stop)
    (hc : (ofText source).Leads c) (g : IdSource) :
    Tiles P source (c.span stop) (Node.allOfMarkup imports g ms).1 := by
  induction h generalizing g with
  | nil h hgap => exact ⟨_, slice_of_leads hc h, hgap⟩
  | @cons c s e stop m ms hcs hgap hm _ ih =>
    obtain ⟨o, ho, hspan⟩ := hm.origin imports g
    have hmore := ih (hm.start.trans hm.leads) (Node.ofMarkup imports g m).2
    rw [allOfMarkup_cons]
    refine ⟨o, ho, ?_, ?_, ?_⟩
    · rw [hspan]
      exact hm.leads.offset_le
    · rw [hspan]
      exact ⟨_, slice_of_leads hc hcs, hgap⟩
    · rw [hspan]
      exact hmore

/-- The node of an element has the text that stands alone between its tags, or the children that are
held there. -/
theorem exists_elementNode {inner close : Cursor} {held : List Markup} (hheld : Reads inner held close)
    (hbody : (ofText source).Leads inner) (imports : List Import) (g : IdSource) (place : Place)
    (tag : String) (attributes : List Attribute) :
    ∃ text nodes, (Node.ofMarkup imports g (.element place tag attributes held)).1 =
        elementNode imports g.next.1 place tag attributes text nodes ∧
      (text = if nodes.isEmpty then Text.trimmed? (inner.upTo close) else none) ∧
      Tiles IsPlain source (inner.span close) nodes ∧
      (nodes ≠ [] → Tiles IsBlank source (inner.span close) nodes) := by
  have hrow := row_of_reads hheld hbody
  rcases ofMarkup_element imports g place tag attributes held with ⟨_, t, rfl, hn⟩ | hn
  · exact ⟨some t, [], hn, (trimmed?_of_reads hheld).symm,
      ⟨_, slice_of_leads hbody hheld.leads, isPlain_of_row_text hrow⟩, fun hne => absurd rfl hne⟩
  · have htiles := hrow.tiles imports hbody g.next.2
    refine ⟨none, _, hn, ?_, htiles.imp fun _ => IsBlank.isPlain, fun _ => htiles⟩
    cases held with
    | nil => exact ((trimmed?_eq_none _).2 (isBlank_of_reads hheld)).symm
    | cons m ms =>
      rw [allOfMarkup_cons]
      rfl

theorem Markup.ReadAt.held {place : Place} {tag : String} {attributes : List Attribute}
    {held : List Markup} (h : ReadAt source (.element place tag attributes held) s e) :
    ∃ inner close, Row IsBlank source inner held close := by
  cases h with
  | element hs _ hm =>
    cases hm with
    | closed => exact ⟨s, s, .nil (Leads.refl s) (joins_isBlank.upTo_self s)⟩
    | element htag _ hheld _ =>
      exact ⟨_, _, row_of_reads hheld (hs.trans (leads_of_openTag htag))⟩

/-- The node is the node of a piece of markup that was read. -/
def Node.IsMade (source : List Char) (imports : List Import) (n : Node) : Prop :=
  ∃ g m s e, n = (Node.ofMarkup imports g m).1 ∧ Markup.ReadAt source m s e

mutual

theorem isMade_ofMarkup (source : List Char) (imports : List Import) (g : IdSource) :
    (m : Markup) → {s e : Cursor} → m.ReadAt source s e →
    ∀ n ∈ (Node.ofMarkup imports g m).1.nodes, n.IsMade source imports
  | .text p t, s, e, h => by
    intro n hn
    have hself : n = (Node.ofMarkup imports g (.text p t)).1 := List.mem_singleton.1 hn
    exact ⟨g, _, s, e, hself, h⟩
  | .expression p t, s, e, h => by
    intro n hn
    have hself : n = (Node.ofMarkup imports g (.expression p t)).1 := List.mem_singleton.1 hn
    exact ⟨g, _, s, e, hself, h⟩
  | .element place tag attributes held, s, e, h => by
    intro n hn
    rcases ofMarkup_element imports g place tag attributes held with ⟨_, _, _, hnode⟩ | hnode
    · rw [hnode, nodes_elementNode, ← hnode] at hn
      exact ⟨g, _, s, e, List.mem_singleton.1 hn, h⟩
    · rw [hnode, nodes_elementNode, ← hnode] at hn
      rcases List.mem_cons.1 hn with hn | hn
      · exact ⟨g, _, s, e, hn, h⟩
      · obtain ⟨inner, close, hheld⟩ := h.held
        exact isMade_allOfMarkup source imports g.next.2 held hheld n hn

theorem isMade_allOfMarkup (source : List Char) (imports : List Import) (g : IdSource) :
    (ms : List Markup) → {P : List Char → Prop} → {c stop : Cursor} → Row P source c ms stop →
    ∀ n ∈ Node.nodesAll (Node.allOfMarkup imports g ms).1, n.IsMade source imports
  | [], _, _, _, _ => by
    intro n hn
    cases hn
  | m :: ms, P, c, stop, h => by
    cases h with
    | cons _ _ hm hms =>
      rw [allOfMarkup_cons, Node.nodesAll]
      intro n hn
      rcases List.mem_append.1 hn with hn | hn
      · exact isMade_ofMarkup source imports g m hm n hn
      · exact isMade_allOfMarkup source imports _ ms hms n hn

end

end PageEditor
