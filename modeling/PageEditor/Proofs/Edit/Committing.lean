import PageEditor.Proofs.Edit.Saving
import PageEditor.Proofs.Markup.Retouched

/-!
# Saving committed edits

What is saved after new values have been committed to a loaded page. Every node has the fields that
the edits for its id make of its old ones, and stands where it stood. The saved text is the loaded one
in which the open tags and the texts that have changed are replaced, one behind the other, and every
other character is kept.
-/
set_option autoImplicit false

namespace PageEditor

/-! ## Writing fields -/

/-- The fields of the node with that id when edits are written one after the other. -/
def Fields.edited (id : String) (es : List PropertyEdit) (f : Fields) : Fields :=
  es.foldl (fun f e => if e.key.nodeId = id then f.set e.value e.key.field else f) f

theorem Node.nodes_modify (id : String) (F : Fields → Fields) {n : Node} (hnodup : n.ids.Nodup) :
    (n.modify id fun m => { m with fields := F m.fields }).nodes.map
        (fun m => (m.id, m.origin, m.fields)) =
      n.nodes.map fun m => (m.id, m.origin, if m.id = id then F m.fields else m.fields) := by
  have hchildren : ∀ m : Node, { m with fields := F m.fields }.children = m.children := fun _ => rfl
  rw [map_nodes_modify (fun _ _ => rfl) hchildren hnodup]
  refine List.map_congr_left fun m _ => ?_
  split <;> rfl

namespace Session

/-! ## Writing edits -/

theorem nodes_writeEdits (es : List PropertyEdit) : ∀ t : Tree, t.WellFormed →
    (writeEdits t es).2.root.nodes.map (fun n => (n.id, n.origin, n.fields)) =
      t.root.nodes.map fun n => (n.id, n.origin, n.fields.edited n.id es) := by
  induction es with
  | nil => exact fun t _ => rfl
  | cons e es ih =>
    intro t ht
    have hstep : ∀ n : Node, n.fields.edited n.id (e :: es) =
        (if n.id = e.key.nodeId then n.fields.set e.value e.key.field else n.fields).edited n.id es := by
      intro n
      simp only [Fields.edited, List.foldl_cons, eq_comm]
    rw [writeEdits]
    split
    · rename_i hnone
      have hno : e.key.nodeId ∉ t.root.nodes.map (·.id) := by
        rw [← Node.ids_eq_map, ← Node.find?_isSome_iff]
        rw [Tree.find?] at hnone
        simp [hnone]
      rw [ih t ht]
      refine List.map_congr_left fun n hn => ?_
      have hne : n.id ≠ e.key.nodeId := by
        intro hid
        rw [← hid] at hno
        exact hno (List.mem_map_of_mem hn)
      rw [hstep, if_neg hne]
    · have hkeeps : Node.KeepsShape fun n : Node =>
          { n with fields := n.fields.set e.value e.key.field } := fun _ => ⟨rfl, rfl⟩
      have hset := Tree.wellFormed_modify ht e.key.nodeId hkeeps fun _ => Fields.set_type _ _ _
      have hnodes :=
        Node.nodes_modify e.key.nodeId (fun f => f.set e.value e.key.field) ht.nodup
      have hmap := congrArg (List.map fun x : String × Option Origin × Fields =>
        (x.1, x.2.1, x.2.2.edited x.1 es)) hnodes
      rw [List.map_map, List.map_map] at hmap
      simp only [hstep]
      exact (ih _ hset).trans hmap

/-- Edits that write text only where there is a place for it keep the outline. -/
theorem outline_writeEdits {root : Node} {es : List PropertyEdit}
    (hes : ∀ e ∈ es, e.key.field = .text →
      ∀ n ∈ root.nodes, n.id = e.key.nodeId → n.takesText = true) :
    ∀ {t : Tree}, t.root.outline = root.outline →
      (writeEdits t es).2.root.outline = root.outline := by
  induction es with
  | nil => exact fun h => h
  | cons e es ih =>
    intro t h
    obtain ⟨he, hes⟩ := List.forall_mem_cons.1 hes
    rw [writeEdits]
    split
    · exact ih hes h
    · refine ih hes (Eq.trans (Node.outline_modify fun m hm hid => ?_) h)
      refine Node.outline_set e.value fun htext => ?_
      obtain ⟨k, hk, houtline⟩ := Node.exists_mem_outline h hm
      rw [Node.takesText_of_outline houtline]
      exact he htext k hk ((Node.id_of_outline houtline).symm.trans hid)

/-! ## Saving -/

theorem mode_commit {s : Session} {t : Tree} (hmode : s.mode = .page t) (es : List PropertyEdit) :
    (s.commit es).2.mode = .page (writeEdits t es).2 ∧ (s.commit es).2.source = s.source := by
  have hnone : ∀ (es : List PropertyEdit) (t : Tree), (writeEdits t es).1 = 0 →
      (writeEdits t es).2 = t := by
    intro es
    induction es with
    | nil => exact fun _ _ => rfl
    | cons e es ih =>
      intro t h
      rw [writeEdits] at h ⊢
      split at h
      · exact ih t h
      · cases h
  rw [commit_of_page hmode]
  split
  · rw [hnone es t ‹_›]
    exact ⟨hmode, rfl⟩
  · exact ⟨rfl, rfl⟩

/-- Edits of a loaded page are patched in where they belong. New classes, styles and attributes may
be for any node, new text only for nodes that have a place for it. The nodes then have the fields that
the edits say and stand where they stood, and what is saved is the loaded text with the replacements
of the nodes. -/
theorem save_commit {source : String} {p : Page} (hp : Page.read source = .ok p) (defaults : Defaults)
    (undoLevels : Nat) (es : List PropertyEdit)
    (hes : ∀ e ∈ es, e.key.field = .text →
      ∀ n ∈ p.tree.root.nodes, n.id = e.key.nodeId → n.takesText = true) :
    ∃ t, ((load source defaults undoLevels).commit es).2.mode = .page t ∧
      t.root.nodes.map (fun n => (n.id, n.origin, n.fields)) =
        p.tree.root.nodes.map (fun n => (n.id, n.origin, n.fields.edited n.id es)) ∧
      Replaces source.toList ⟨0, Text.byteLength source.toList⟩
        ((Node.nodesAll t.root.children).flatMap (Node.replacements source.toList))
        ((load source defaults undoLevels).commit es).2.save.toList := by
  have hload := mode_load hp defaults undoLevels
  obtain ⟨hmode, hsource⟩ := mode_commit hload es
  have hwell := Page.wellFormed_of_read hp
  have houtline := outline_writeEdits hes (t := p.tree) rfl
  refine ⟨_, hmode, nodes_writeEdits es p.tree hwell, ?_⟩
  have hsave : ((load source defaults undoLevels).commit es).2.save.toList =
      (writeEdits p.tree es).2.patched source.toList := by
    simp only [save, hmode, hsource, Tree.regenerate, String.toList_ofList]
    exact syncImports_retouched hp houtline
  rw [hsave]
  exact replaces_page hp houtline

/-- A new class for the list, new text for its first item and for the run of text behind it, and an
edit for a node that is not there. -/
def listRetouches : List PropertyEdit :=
  [⟨⟨pageId 1, .className⟩, "wide"⟩, ⟨⟨pageId 2, .text⟩, "a < b"⟩, ⟨⟨pageId 4, .text⟩, "three"⟩,
    ⟨⟨"nothing", .style "color"⟩, "red"⟩]

theorem save_listRetouches :
    (Page.read listPage).isOk = true ∧
      ((load listPage).commit listRetouches).2.save =
        "import a from 'b';\n<ul className=\"wide\"><li className=\"x\">\x7b\"a < b\"\x7d</li> three</ul><p/>\n" ∧
      Replaces listPage.toList ⟨0, Text.byteLength listPage.toList⟩
        ((((load listPage).commit listRetouches).2.tree?.map fun t =>
          (Node.nodesAll t.root.children).flatMap (Node.replacements listPage.toList)).getD [])
        ((load listPage).commit listRetouches).2.save.toList := by
  have hok : (Page.read listPage).isOk = true := by decide +kernel
  refine ⟨hok, by decide +kernel, ?_⟩
  obtain ⟨p, hp⟩ := isOk_iff.1 hok
  have htexts : (Page.read listPage).toOption.all (fun p =>
      decide (∀ e ∈ listRetouches, e.key.field = .text →
        ∀ n ∈ p.tree.root.nodes, n.id = e.key.nodeId → n.takesText = true)) = true := by
    decide +kernel
  rw [hp] at htexts
  obtain ⟨t, hmode, _, hreplaces⟩ :=
    save_commit hp .standard 100 listRetouches (of_decide_eq_true htexts)
  rw [tree?, hmode]
  exact hreplaces

end Session

end PageEditor
