import PageEditor.Proofs.Edit.Saving
import PageEditor.Proofs.Markup.Updated
import PageEditor.Proofs.Tree.Moves

/-!
# Saving updates

What is saved after one element of a loaded page has been given other fields. The props of the element
count as changed just if more than the order of its styles and of its attributes differs, and more than
the sign of a setting that is zero. Then the saved text has the new open tag in the place of the old
one, and but for new text and new imports everything else is kept. An update that changes no more than
that leaves the old tag; pages on which the new one would be another are given behind the theorem.
-/
set_option autoImplicit false

namespace PageEditor

/-! ## The tree -/

namespace Tree

variable {t : Tree} {n u : Node}

theorem WellFormed.find?_below (h : t.WellFormed) (hn : n ∈ Node.nodesAll t.root.children) :
    t.find? n.id = some n :=
  Node.find?_of_mem h.nodup (Node.mem_nodes_of_below hn)

theorem update_eq (h : t.WellFormed) (hn : n ∈ Node.nodesAll t.root.children) (hid : u.id = n.id) :
    t.update u = (.ok (), t.modify n.id (·.assign u)) := by
  have hne : n.id ≠ rootId := h.root_id ▸ h.id_ne_root hn
  rw [update, hid, if_neg hne, h.find?_below hn]

theorem find?_update (h : t.WellFormed) (hn : n ∈ Node.nodesAll t.root.children) :
    (t.modify n.id (·.assign u)).find? n.id = some (n.assign u) :=
  Node.find?_modify (f := (·.assign u)) (fun _ => rfl) (h.find?_below hn)

theorem exists_modifyIn? (h : t.WellFormed) (hn : n ∈ Node.nodesAll t.root.children)
    (f : Node → Node) :
    ∃ cs, Node.modifyIn? n.id f t.root.children = some cs ∧
      (t.modify n.id f).root = { t.root with children := cs } := by
  have hne : t.root.id ≠ n.id := (h.id_ne_root hn).symm
  cases hcs : Node.modifyIn? n.id f t.root.children with
  | none =>
    have hnone := (Node.modifyIn?_eq_none_iff n.id f t.root.children).1 hcs
    rw [Node.findIn?_eq_find?, List.find?_eq_none] at hnone
    exact absurd (beq_self_eq_true n.id) (hnone n hn)
  | some cs =>
    refine ⟨cs, rfl, ?_⟩
    rw [modify, Node.modify_eq, if_neg hne, hcs]
    rfl

theorem neededAll_update (h : t.WellFormed) (hn : n ∈ Node.nodesAll t.root.children)
    (htype : u.type = n.type) (hcomponent : u.component = n.component) :
    (t.modify n.id (·.assign u)).root.neededAll = t.root.neededAll := by
  have hneeded : (n.assign u).needed? = n.needed? := by
    have htype' : (n.assign u).type = n.type := htype
    have hcomponent' : (n.assign u).component = n.component := hcomponent
    rw [Node.needed?, Node.needed?, Node.component?, Node.component?, htype', hcomponent']
  have hnodes : (t.root.modify n.id (·.assign u)).nodes.map Node.needed? =
      t.root.nodes.map Node.needed? := by
    rw [Node.map_nodes_modify (f := (·.assign u)) (fun _ _ => rfl) (fun _ => rfl) h.nodup]
    refine List.map_congr_left fun m hm => ?_
    split
    · rename_i hid
      rw [h.indexed.eq_of_id hm (Node.mem_nodes_of_below hn) hid]
      exact hneeded
    · rfl
  have hflat := congrArg (List.flatMap Option.toList) hnodes
  rw [List.flatMap_map, List.flatMap_map] at hflat
  rw [neededAll_eq_flatMap, neededAll_eq_flatMap]
  exact hflat

end Tree

/-! ## Saving -/

namespace Session

variable {source : String} {p : Page} {n u : Node}

theorem dispatch_update (hp : Page.read source = .ok p) (defaults : Defaults) (undoLevels : Nat)
    (hn : n ∈ Node.nodesAll p.tree.root.children) (hid : u.id = n.id) :
    let r := (load source defaults undoLevels).dispatch (.update u)
    r.1 = .ok (.applied (.updated n.id)) ∧ r.2.mode = .page (p.tree.modify n.id (·.assign u)) ∧
      r.2.source = source := by
  have happly : Command.apply (load source defaults undoLevels).defaults p.tree (.update u) =
      (.ok (.updated n.id), p.tree.modify n.id (·.assign u)) := by
    rw [Command.apply, Tree.update_eq (Page.wellFormed_of_read hp) hn hid, hid]
    rfl
  rw [dispatch_of_ok (mode_load hp defaults undoLevels) happly]
  exact ⟨rfl, rfl, rfl⟩

/-- The props of an updated element count as changed just if more differs than the order and the signs
of zeros. -/
theorem propsChanged_assign (hmade : n.IsMade source.toList p.imports) (hleaf : n.isLeaf = false) :
    (n.assign u).propsChanged = true ↔ ¬ n.fields.SameButOrder u.fields := by
  obtain ⟨place, hlaid⟩ := hmade.laidOut
  have horigin : (n.assign u).origin = some ⟨place, n.fields, n.childIds⟩ := hlaid.fresh
  rw [Node.propsChanged, horigin, Bool.not_eq_true', ← Bool.not_eq_true]
  exact not_congr (Fields.sameProps_iff (hmade.holdsNumbers hleaf))

/-- An update of an element of a loaded page is carried out, and the element has the new fields. Its
props count as changed just if more differs than the order of its styles and of its attributes and the
signs of its zeros. If they count as changed, the saved text is the loaded one with the new open tag in
the place of the old one. Besides, only what stands between that tag and the end of the element may be
another, if the text of the element is, and imports are put in front if a new component needs them. -/
theorem save_update (hp : Page.read source = .ok p) (defaults : Defaults) (undoLevels : Nat)
    (hn : n ∈ Node.nodesAll p.tree.root.children) (hleaf : n.isLeaf = false) (hid : u.id = n.id)
    (htype : u.type = n.type) :
    let r := (load source defaults undoLevels).dispatch (.update u)
    ∃ t place front rs, r.1 = .ok (.applied (.updated n.id)) ∧ r.2.mode = .page t ∧
      t.find? n.id = some (n.assign u) ∧ n.LaidOut source.toList place ∧
      ((n.assign u).propsChanged = true ↔ ¬ n.fields.SameButOrder u.fields) ∧
      n.Retags (n.assign u) place rs ∧
      t.InsertsImports p.imports front ∧ (u.component = n.component → front = []) ∧
      Replaces source.toList ⟨0, Text.byteLength source.toList⟩ (front ++ rs) r.2.save.toList := by
  have hwell := Page.wellFormed_of_read hp
  obtain ⟨hanswer, hmode, hsource⟩ := dispatch_update hp defaults undoLevels hn hid
  have hmade := isMade_of_read hp
  obtain ⟨place, hlaid⟩ := (hmade n hn).laidOut
  have hchanged := propsChanged_assign (u := u) (hmade n hn) hleaf
  obtain ⟨cs, hcs, hroot⟩ := Tree.exists_modifyIn? hwell hn (·.assign u)
  have hsame : ∀ m ∈ Node.nodesAll p.tree.root.children, m.id = n.id → m = n := fun m hm =>
    hwell.indexed.eq_of_id (Node.mem_nodes_of_below hm) (Node.mem_nodes_of_below hn)
  have hat : ∀ m ∈ Node.nodesAll p.tree.root.children, m.id = n.id → ∀ o d, m.origin = some o →
      ∃ rs, n.Retags (n.assign u) place rs ∧
        Replaces source.toList o.place.span rs ((m.assign u).patched source.toList d) := by
    intro m hm hmid o d ho
    obtain rfl := hsame m hm hmid
    obtain rfl := Option.some.inj (ho.symm.trans hlaid.fresh)
    exact Node.retags (n := m.assign u) (fun k hk => hmade k (Node.nodesAll_subset _ m hm k hk))
      hlaid.fresh rfl rfl htype hleaf d
  obtain ⟨front, rs, hfront, hretags, hreplaces⟩ :=
    exists_replaces_regenerate hp hcs hroot (fun _ => rfl)
      (fun m hm hmid => hsame m hm hmid ▸ htype) hat
  refine ⟨_, place, front, rs, hanswer, hmode, Tree.find?_update hwell hn, hlaid, hchanged, hretags,
    hfront, fun hcomponent => ?_, ?_⟩
  · have hnamed := allNamed_of_read hp
    rw [← Tree.neededAll_update hwell hn htype hcomponent] at hnamed
    rwa [Tree.InsertsImports, if_pos (missing_of_allNamed hnamed)] at hfront
  · rw [save, hmode, hsource]
    exact hreplaces

/-- A page with an element in a list, and what the element becomes: another class and another style, and
a text that it did not have. -/
def styledPage : String := "<ul><li style=\x7b\x7bcolor: \"red\"\x7d\x7d/>\ntwo</ul>"

def restyledItem : Node where
  id := pageId 2
  fields :=
    { type := "li", className := "lead", style := .ofList [("color", "blue")], text := some "one" }

theorem save_update_restyledItem :
    ∃ p n, Page.read styledPage = .ok p ∧ n ∈ Node.nodesAll p.tree.root.children ∧
      n.isLeaf = false ∧ restyledItem.id = n.id ∧ restyledItem.type = n.type ∧
      (n.assign restyledItem).propsChanged = true ∧
      ∃ place rs, n.LaidOut styledPage.toList place ∧ n.Retags (n.assign restyledItem) place rs ∧
        Replaces styledPage.toList ⟨0, Text.byteLength styledPage.toList⟩ rs
          ((load styledPage).dispatch (.update restyledItem)).2.save.toList ∧
        ((load styledPage).dispatch (.update restyledItem)).2.save =
          "<ul><li className=\"lead\" style=\x7b\x7b color: \"blue\" \x7d\x7d>one</li>\ntwo</ul>" := by
  have hpage : (Page.read styledPage).toOption.any (fun p =>
      (Node.nodesAll p.tree.root.children).any fun n =>
        decide (n.isLeaf = false ∧ restyledItem.id = n.id ∧ restyledItem.type = n.type ∧
          n.fields.className ≠ restyledItem.fields.className ∧
          restyledItem.component = n.component)) = true := by decide +kernel
  obtain ⟨p, n, hp, hn, hall⟩ := Page.exists_of_any hpage
  obtain ⟨hleaf, hid, htype, hclass, hcomponent⟩ := of_decide_eq_true hall
  obtain ⟨t, place, front, rs, _, _, _, hlaid, hchanged, hretags, _, hfront, hreplaces⟩ :=
    save_update hp .standard 100 hn hleaf hid htype
  rw [hfront hcomponent, List.nil_append] at hreplaces
  exact ⟨p, n, hp, hn, hleaf, hid, htype, hchanged.2 fun h => hclass h.className, place, rs, hlaid,
    hretags, hreplaces, by decide +kernel⟩

/-- The first element of a page with these fields. -/
def firstWith (fields : Fields) : Node := { id := pageId 1, fields }

/-- Pages with one element and what it becomes: the same element with its styles or its attributes in
another order, or with the other zero for a delay. -/
def reordered : List (String × Node) :=
  [("<p style=\x7b\x7ba: 1, b: 2\x7d\x7d/>",
      firstWith { type := "p", style := .ofList [("b", "2"), ("a", "1")] }),
    ("<p title=\"t\" lang=\"l\"/>",
      firstWith { type := "p", attributes := .ofList [("lang", "l"), ("title", "t")] }),
    ("<p data-animation='\x7b\"enabled\":true,\"type\":\"fade\",\"trigger\":\"load\",\"duration\":1\x7d'/>",
      firstWith
        { type := "p"
          animation := some
            { enabled := true, kind := .fade, trigger := .load, duration := 1.0, delay := -0.0 } })]

theorem not_save_update_reordered :
    reordered ≠ [] ∧ ∀ x ∈ reordered, ∃ p n, Page.read x.1 = .ok p ∧
      n ∈ Node.nodesAll p.tree.root.children ∧ n.isLeaf = false ∧ x.2.id = n.id ∧
      x.2.type = n.type ∧ x.2.component = n.component ∧
      x.2.fields.openTag true ≠ n.fields.openTag true ∧
      (n.assign x.2).propsChanged = false ∧
      ((load x.1).dispatch (.update x.2)).2.save = x.1 := by
  have hlost : ∀ x ∈ reordered, (Page.read x.1).toOption.any (fun p =>
      (Node.nodesAll p.tree.root.children).any fun n =>
        decide (n.isLeaf = false ∧ x.2.id = n.id ∧ x.2.type = n.type ∧
          x.2.component = n.component ∧ x.2.fields.openTag true ≠ n.fields.openTag true ∧
          (n.assign x.2).propsChanged = false ∧
          ((load x.1).dispatch (.update x.2)).2.save = x.1)) = true := by
    decide +kernel
  refine ⟨List.cons_ne_nil _ _, fun x hx => ?_⟩
  obtain ⟨p, n, hp, hn, hno⟩ := Page.exists_of_any (hlost x hx)
  exact ⟨p, n, hp, hn, of_decide_eq_true hno⟩

end Session

end PageEditor
