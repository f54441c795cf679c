import PageEditor.Proofs.Edit.Provenance
import PageEditor.Proofs.Markup.RoundTrip
import PageEditor.Proofs.Node.Pruned

/-!
# Leaves of edited pages

The leaves of a loaded page are empty, and every operation keeps them so but one: an update that gives
the type of a text run or a raw expression to a node with children. From then on what is below that
node is neither saved nor shown.
-/
set_option autoImplicit false

namespace PageEditor

/-! ## Loaded pages -/

theorem Node.IsMade.children_of_isLeaf {source : List Char} {imports : List Import} {n : Node}
    (h : n.IsMade source imports) (hleaf : n.isLeaf = true) : n.children = [] := by
  obtain ⟨g, m, s, e, rfl, hm⟩ := h
  cases hm with
  | text => rfl
  | expression => rfl
  | element _ _ hm =>
    have hsolid : (Node.ofMarkup imports g m).1.isLeaf = false := isLeaf_of_readsElement hm g
    rw [hleaf] at hsolid
    cases hsolid

theorem Tree.leafy_of_read {source key : String} {p : Page} (h : Page.read source key = .ok p)
    (hwell : p.tree.WellFormed) : p.tree.Leafy := by
  refine fun n hn hleaf => ?_
  rw [Node.nodes_eq] at hn
  rcases List.mem_cons.1 hn with rfl | hn
  · cases hwell.isLeaf_root.symm.trans hleaf
  · exact (isMade_of_read h n hn).children_of_isLeaf hleaf

namespace Session

variable {s : Session}

theorem leafy_ofText {source : String} {t : Tree} (h : Mode.ofText source = .page t) : t.Leafy := by
  have hwell := wellFormed_ofText h
  unfold Mode.ofText at h
  split at h
  · rename_i p hp
    cases h
    exact Tree.leafy_of_read hp hwell
  · cases h

theorem leafy_writeEdits (es : List PropertyEdit) : ∀ {t : Tree}, t.Leafy →
    (writeEdits t es).2.Leafy := by
  induction es with
  | nil => exact fun h => h
  | cons e es ih =>
    intro t h
    rw [writeEdits]
    split
    · exact ih h
    · refine ih (Node.Leafy.modify h fun m _ hm => Node.leafy_iff.2 ⟨fun hleaf => ?_, ?_⟩)
      · have htype := Fields.set_type m.fields e.value e.key.field
        refine (Node.leafy_iff.1 hm).1 ?_
        rwa [Node.isLeaf, Node.isText, Node.isExpression, Node.type, htype] at hleaf
      · exact (Node.leafy_iff.1 hm).2

/-! ## Runs -/

/-- The operation does not give the type of a leaf to a node with children. -/
def Spares (s : Session) (op : Operation) : Prop :=
  ∀ n t m, op = .dispatch (.update n) → s.mode = .page t → n.id ≠ rootId → n.isLeaf = true →
    t.find? n.id = some m → m.children = []

/-- An operation that spares the nodes with children keeps the leaves of all trees empty. -/
theorem AllTrees.leafy_perform (h : s.AllTrees Tree.Leafy) (hs : s.Sound) {op : Operation}
    (hop : s.Spares op) : (s.perform op).AllTrees Tree.Leafy := by
  by_cases hreload : ∃ source, op = .reload source
  · obtain ⟨source, rfl⟩ := hreload
    refine ⟨fun t ht => leafy_ofText ht, ?_, ?_⟩ <;> rintro _ ⟨⟩
  · refine h.perform hs (fun source heq => hreload ⟨source, heq⟩) ?_ fun es h => leafy_writeEdits es h
    rintro c rfl t hmode
    refine ((h.present t hmode).apply_iff (hs.tree t hmode) s.defaults c).2 ?_
    cases c with
    | update n => exact fun hroot hleaf m hm => hop n t m rfl hmode hroot hleaf hm
    | _ => trivial

/-- One that does not spare them fills a leaf. -/
theorem AllTrees.spares_of_leafy (h : s.AllTrees Tree.Leafy) (hs : s.Sound) {op : Operation}
    (hop : ∀ t, (s.perform op).mode = .page t → t.Leafy) : s.Spares op := by
  rintro n t m rfl hmode hroot hleaf hm
  have hlegal : ((Command.update n).apply s.defaults t).1 = .ok (.updated n.id) := by
    simp only [Command.apply, Tree.update, if_neg hroot, hm]
    rfl
  have hleafy : ((Command.update n).apply s.defaults t).2.Leafy := by
    refine hop _ ?_
    rw [Session.perform, dispatch_of_ok hmode (Prod.ext hlegal rfl)]
    rfl
  have hspares := ((h.present t hmode).apply_iff (hs.tree t hmode) s.defaults (.update n)).1 hleafy
  exact hspares hroot hleaf m hm

/-- The leaves stay empty all the way exactly if every operation on the way spares the nodes with
children. -/
theorem AllTrees.leafy_iff_spares (ops : List Operation) : ∀ {s : Session}, s.AllTrees Tree.Leafy →
    s.Sound →
    ((∀ front back, ops = front ++ back → ∀ t, (s.run front).mode = .page t → t.Leafy) ↔
      ∀ front op back, ops = front ++ op :: back → (s.run front).Spares op) := by
  induction ops with
  | nil =>
    intro s h _
    constructor
    · rintro - (_ | _) op back hsplit <;> cases hsplit
    · rintro - front back hsplit t ht
      obtain ⟨rfl, rfl⟩ := List.append_eq_nil_iff.1 hsplit.symm
      exact h.present t ht
  | cons op ops ih =>
    intro s h hs
    constructor
    · intro hall
      have hop := h.spares_of_leafy hs fun t ht => hall [op] ops rfl t ht
      have hrest := (ih (h.leafy_perform hs hop) (sound_perform hs op)).1 fun front back hsplit =>
        hall (op :: front) back (by rw [hsplit, List.cons_append])
      rintro (_ | ⟨first, front⟩) op' back hsplit
      · obtain ⟨rfl, rfl⟩ := List.cons_eq_cons.1 hsplit
        exact hop
      · obtain ⟨rfl, htail⟩ := List.cons_eq_cons.1 hsplit
        exact hrest front op' back htail
    · intro hall
      have hop := hall [] op ops rfl
      have hrest := (ih (h.leafy_perform hs hop) (sound_perform hs op)).2
        fun front op' back hsplit => hall (op :: front) op' back (by rw [hsplit, List.cons_append])
      rintro (_ | ⟨first, front⟩) back hsplit t ht
      · exact h.present t ht
      · obtain ⟨rfl, htail⟩ := List.cons_eq_cons.1 hsplit
        exact hrest front back htail t ht

theorem allTrees_load (source : String) (defaults : Defaults) (undoLevels : Nat) :
    (load source defaults undoLevels).AllTrees Tree.Leafy := by
  refine ⟨fun t ht => leafy_ofText ht, ?_, ?_⟩ <;> rintro _ ⟨⟩

/-- After loading a text, no text run and no raw expression has children after any of the operations
exactly if no update among them gives the type of one to a node with children. What the tree is saved
as and shown as is told by the nodes that are not below a leaf, and these are all nodes exactly if no
leaf has children. -/
theorem leafy_run_iff (source : String) (defaults : Defaults) (undoLevels : Nat)
    (ops : List Operation) :
    ((∀ front back, ops = front ++ back →
        ∀ t, ((load source defaults undoLevels).run front).mode = .page t → t.Leafy) ↔
      ∀ front n back, ops = front ++ .dispatch (.update n) :: back →
        ∀ t, ((load source defaults undoLevels).run front).mode = .page t →
          n.id ≠ rootId → n.isLeaf = true → ∀ m, t.find? n.id = some m → m.children = []) ∧
      ∀ t, ((load source defaults undoLevels).run ops).mode = .page t →
        (t.pruned = t ↔ t.Leafy) ∧
        (∀ text, t.pruned.patched text = t.patched text) ∧
        ∀ r previews queue,
          (t.pruned.render r previews queue).1 = (t.render r previews queue).1 := by
  have hsound := sound_load source defaults undoLevels
  constructor
  · rw [(allTrees_load source defaults undoLevels).leafy_iff_spares ops hsound]
    constructor
    · intro hall front n back hsplit t hmode hroot hleaf m hm
      exact hall front _ back hsplit n t m rfl hmode hroot hleaf hm
    · rintro hall front op back hsplit n t m rfl hmode hroot hleaf hm
      exact hall front n back hsplit t hmode hroot hleaf m hm
  · intro t hmode
    have hroot := ((hsound.run ops).tree t hmode).isLeaf_root
    exact ⟨t.pruned_eq_self_iff, fun text => t.patched_pruned hroot text,
      fun r previews queue => t.render_pruned hroot r previews queue⟩

/-- A paragraph in a box, the box made a text run. -/
def boxPage : String := "<div><p/></div>"

def boxRetyped : List Operation := [.dispatch (.update (.ofType (pageId 1) textType))]

theorem not_leafy_boxRetyped :
    ∃ t, ((load boxPage).run boxRetyped).mode = .page t ∧ ¬ t.Leafy ∧
      ((load boxPage).run boxRetyped).save = "" := by
  have hbox : ((load boxPage).run boxRetyped).tree?.any
      (fun t => (t.root.nodes.any fun n => n.isLeaf && !n.children.isEmpty)) = true := by
    decide +kernel
  have hsave : ((load boxPage).run boxRetyped).save = "" := by decide +kernel
  cases hmode : ((load boxPage).run boxRetyped).mode with
  | verbatim e => simp [tree?, hmode] at hbox
  | page t =>
    refine ⟨t, rfl, fun hleafy => ?_, hsave⟩
    simp only [tree?, hmode, Option.any_some, List.any_eq_true, Bool.and_eq_true] at hbox
    obtain ⟨n, hn, hleaf, hfull⟩ := hbox
    simp [hleafy n hn hleaf] at hfull

end Session

end PageEditor
