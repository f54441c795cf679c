import PageEditor.Proofs.Markup.PrintedImports
import PageEditor.Proofs.Edit.Reloading

/-!
# Added components

A component of the catalog that is added behind the last element of a page is there when the page is
saved and loaded again. Whether it is still the same component depends on the imports of the page. A
name that no import gives a meaning gets an import of its own. A name that has a meaning keeps it, and
the added component becomes what the name means.
-/
set_option autoImplicit false

namespace PageEditor

/-! ## Components of the catalog -/

namespace Descriptor

variable {d : Descriptor} {imports : List Import}

/-- What a node of the component needs. -/
def need (d : Descriptor) : Needed :=
  ⟨d.importInfo.package, d.name, d.name, d.importInfo.kind⟩

/-- The statement that imports the component. -/
def importLine (d : Descriptor) : List Char :=
  let package := " from \"".toList ++ (d.importInfo.package.toList ++ "\";".toList)
  match d.importInfo.kind with
  | .named => "import \x7b ".toList ++ (d.name.toList ++ (" \x7d".toList ++ package))
  | .default => "import ".toList ++ (d.name.toList ++ package)
  | .whole => "import * as ".toList ++ (d.name.toList ++ package)

theorem statement_need (d : Descriptor) : d.need.statement = d.importLine := by
  have hfrom : " from \"".toList = " from".toList ++ " \"".toList := rfl
  have hend : "\";".toList = "\"".toList ++ ";".toList := rfl
  have hspecifier : d.need.specifier = d.name := if_pos rfl
  have hnamed : "import \x7b ".toList = "import ".toList ++ "\x7b ".toList := rfl
  have hwhole : "import * as ".toList = "import ".toList ++ "* as ".toList := rfl
  unfold importLine Needed.statement Needed.clause Needed.source
  rw [hspecifier, hfrom, hend, hnamed, hwhole]
  cases hkind : d.importInfo.kind <;> simp only [need, hkind, List.append_assoc]

theorem lines_need (d : Descriptor) :
    (String.intercalate "\n" (Needed.lines [d.need])).toList = d.importLine := by
  rw [Needed.lines_singleton, String.intercalate_singleton, String.toList_ofList, statement_need]

/-- The imports leave its name to the component: none of them gives the name a meaning, or it means
the component. -/
def KeepsName (d : Descriptor) (imports : List Import) : Prop :=
  Import.resolve? imports d.name = none ∨
    ComponentInfo.ofTag? imports d.name = some d.importInfo

/-- The component is found under its name, what is built of it can be printed, and the statement that
imports it can be read and gives the name its meaning. -/
structure IsListed (d : Descriptor) : Prop where
  found : Catalog.standard.find? d.name = some d
  read : (Defaults.standard.build "" d.name).fields.IsRead
  closes : (Defaults.standard.build "" d.name).fields.Closes
  undotted : baseName d.name = d.name
  package : d.importInfo.package ≠ ""
  block : IsImportBlock d.importLine
  meaning : ComponentInfo.ofTag? (Import.ofBlock d.importLine) d.name = some d.importInfo

theorem isListed (hd : d ∈ Catalog.standard.descriptors) : d.IsListed := by
  have hall : ∀ d ∈ Catalog.standard.descriptors, Catalog.standard.find? d.name = some d ∧
      (Defaults.standard.build "" d.name).fields.IsRead ∧
      (Defaults.standard.build "" d.name).fields.Closes ∧ baseName d.name = d.name ∧
      d.importInfo.package ≠ "" ∧ IsImportBlock d.importLine ∧
      ComponentInfo.ofTag? (Import.ofBlock d.importLine) d.name = some d.importInfo := by
    decide +kernel
  obtain ⟨hfound, hread, hcloses, hundotted, hpackage, hblock, hmeaning⟩ := hall d hd
  exact ⟨hfound, hread, hcloses, hundotted, hpackage, hblock, hmeaning⟩

namespace IsListed

variable (hd : d.IsListed) (id : String)

include hd

theorem component_build : (Defaults.standard.build id d.name).component = some d.importInfo := by
  have hfound : Defaults.standard.catalog.find? d.name = some d := hd.found
  rw [Defaults.build, hfound]
  rfl

theorem isLeaf_build : (Defaults.standard.build id d.name).isLeaf = false :=
  Node.isLeaf_of_isName hd.read.name

theorem printable_build : (Defaults.standard.build id d.name).Printable :=
  .element hd.read hd.closes

theorem needed?_build : (Defaults.standard.build id d.name).needed? = some d.need := by
  have hcomponent : (Defaults.standard.build id d.name).component? = some d.importInfo := by
    rw [Node.component?, hd.component_build]
    rfl
  have hname : baseName d.importInfo.imported = d.name := hd.undotted
  have htype : (Defaults.standard.build id d.name).type = d.name := rfl
  rw [Node.needed?, hcomponent]
  simp only [if_neg hd.package, hname, htype, hd.undotted, ite_self]
  rfl

/-- The statement names the component, if nothing else in front of it does, and nothing is added when
the name has a meaning. -/
theorem ofTag?_eq_some_iff {js : List Import} (hjs : js.map Import.names =
    (imports ++ Import.ofBlock
      (if (Import.resolve? imports d.name).isNone then d.importLine else [])).map Import.names) :
    ComponentInfo.ofTag? js d.name = some d.importInfo ↔ d.KeepsName imports := by
  have hnames := Import.resolve?_congr hjs (baseName d.name)
  rw [Import.resolve?_append, hd.undotted] at hnames
  rw [KeepsName]
  cases hresolve : Import.resolve? imports d.name with
  | none =>
    rw [hresolve, Option.isNone_none, if_pos rfl, Option.none_or, ← hd.undotted] at hnames
    rw [ComponentInfo.ofTag?_congr hnames, hd.meaning]
    exact iff_of_true rfl (.inl rfl)
  | some r =>
    rw [hresolve, Option.some_or, ← hresolve, ← hd.undotted] at hnames
    rw [ComponentInfo.ofTag?_congr hnames]
    exact (or_iff_right (by rintro ⟨⟩)).symm

end IsListed

end Descriptor

/-! ## Nodes behind the last one -/

namespace Tree

variable {t t' : Tree} {n : Node}

theorem add_rootId (h : t.WellFormed) (d : Defaults) (type : String) :
    ∃ t', t.add d rootId type none none [] = (.ok t.freshId.1, t') ∧
      t'.root = { t.root with children := t.root.children ++ [d.build t.freshId.1 type] } := by
  have hfound : t.find? rootId = some t.root := by
    have hself := Node.find?_of_mem h.nodup t.root.mem_nodes_self
    rwa [h.root_id] at hself
  have hleaf : t.root.isLeaf = false := by
    simp [Node.isLeaf, Node.isText, Node.isExpression, h.root_type, rootType, textType, expressionType]
  refine ⟨t.freshId.2.editNode rootId fun p =>
    p.insertChild p.children.length (d.build t.freshId.1 type), ?_, ?_⟩
  · rw [add, hfound]
    simp only [hleaf, Bool.false_eq_true, if_false]
    rfl
  · show t.root.modify rootId _ = _
    rw [Node.modify_eq, if_pos h.root_id, Node.insertChild, Nat.min_self, List.insertIdx_length_self]

variable {imports : List Import}

/-- When nothing else is missing, one more node can only miss its own import. -/
theorem missing_appended {x : Needed}
    (hroot : t'.root = { t.root with children := t.root.children ++ [n] })
    (hn : n.children = []) (hneeded : n.needed? = some x) (hnamed : AllNamed imports t.root.neededAll) :
    t'.missing imports = if (Import.resolve? imports x.localName).isNone then [x] else [] := by
  have hlast : Node.neededIn [n] = [x] := by
    rw [Node.neededIn, neededAll_eq, hneeded, hn]
    rfl
  have hall : t'.root.neededAll = t.root.neededAll ++ [x] := by
    have hown : t'.root.needed? = t.root.needed? := by rw [hroot]; rfl
    have hchildren : t'.root.children = t.root.children ++ [n] := by rw [hroot]
    rw [neededAll_eq, neededAll_eq t.root, hown, hchildren, neededIn_append, hlast, List.append_assoc]
  rw [missing_eq, hall, List.filter_append, hnamed.filter, List.nil_append]
  cases hnone : (Import.resolve? imports x.localName).isNone <;> simp [hnone, addNew]

/-- A page that was read with one more element behind the last one can be read again, if this element
can be printed and what it needs to be imported can be read. -/
theorem legible_appended {source key : String} {p : Page} (hp : Page.read source key = .ok p)
    (hroot : t.root = { p.tree.root with children := p.tree.root.children ++ [n] })
    (hn : n.children = []) (horigin : n.origin = none) (hleaf : n.isLeaf = false)
    (hprintable : n.Printable) (hblock : IsImportBlock (t.importBlock p.imports)) :
    t.Legible source := by
  have hchildren : t.root.children = p.tree.root.children ++ [n] := by rw [hroot]
  refine ⟨?_, ?_, ?_⟩
  · rw [hchildren]
    intro c hc
    rcases List.mem_append.1 hc with hc | hc
    · exact isLeaf_of_read hp c hc
    · rwa [List.mem_singleton.1 hc]
  · rw [hchildren]
    intro m hm
    obtain ⟨c, hc, hm⟩ := Node.mem_anewAll.1 hm
    rcases List.mem_append.1 hc with hc | hc
    -- The nodes that were read are taken over.
    · have hnone := Node.mem_anewAll.2 ⟨c, hc, hm⟩
      rw [anewAll_of_read hp] at hnone
      cases hnone
    · rw [List.mem_singleton.1 hc, Node.anew_of_none (by rw [Node.originIn?, horigin]; rfl),
        Node.nodes_eq, hn] at hm
      rwa [List.mem_singleton.1 hm]
  · intro is his
    rw [Page.readAll_of_read hp] at his
    cases his
    exact hblock

end Tree

/-! ## Pages with one more component -/

/-- A page behind whose last element a component of the catalog was added is read again with an
element of its name behind the others, and that is the component if the imports of the page leave it
its name, and only then. -/
theorem Page.component_reread {source key : String} {p : Page} (hp : Page.read source key = .ok p)
    {d : Descriptor} (hd : d.IsListed) {t : Tree} (hremembers : p.tree.Remembers t)
    (ht : t.WellFormed) {id : String} (hroot : t.root = { p.tree.root with
      children := p.tree.root.children ++ [Defaults.standard.build id d.name] }) (key' : String) :
    ∃ q m, Page.read (t.regenerate source) key' = .ok q ∧
      q.tree.root.children.getLast? = some m ∧ m.type = d.name ∧
      (m.component = some d.importInfo ↔ d.KeepsName p.imports) := by
  have hchildren : t.root.children =
      p.tree.root.children ++ [Defaults.standard.build id d.name] := by rw [hroot]
  have hnamed : AllNamed p.imports p.tree.root.neededAll := by
    obtain ⟨imports, c, ms, _, _, rfl⟩ := Page.read_eq_ok hp
    exact allNamed_ofParts _ imports ms _
  -- All components of the old page resolve, so no other import can be missing.
  have himports : t.importBlock p.imports =
      if (Import.resolve? p.imports d.name).isNone then d.importLine else [] := by
    have hmissing := Tree.missing_appended hroot rfl (hd.needed?_build id) hnamed
    have hname : d.need.localName = d.name := rfl
    rw [Tree.importBlock, hmissing, hname]
    cases (Import.resolve? p.imports d.name).isNone with
    | true => exact d.lines_need
    | false => rfl
  have hblock : IsImportBlock (t.importBlock p.imports) := by
    rw [himports]
    split
    · exact hd.block
    · exact isImportBlock_nil
  have hlegible := Tree.legible_appended hp hroot rfl rfl (hd.isLeaf_build id) (hd.printable_build id)
    hblock
  have hne : t.root.children ≠ [] := by
    rw [hchildren]
    exact List.append_ne_nil_of_right_ne_nil _ (List.cons_ne_nil _ _)
  obtain ⟨q, hq, hrestores, hnames⟩ := Page.reread hp hremembers ht hlegible hne key'
  have hlast : t.root.elements.getLast? = some (Defaults.standard.build id d.name) := by
    rw [Node.elements_eq_children hlegible.elements, hchildren, List.getLast?_concat]
  obtain ⟨m, hm, hreads⟩ := hrestores.getLast? hlast
  rw [Node.elements_eq_children (isLeaf_of_read hq)] at hm
  rw [himports] at hnames
  have hcomponent : m.component = ComponentInfo.ofTag? q.imports d.name := hreads.component
  exact ⟨q, m, hq, hm, hreads.type, hcomponent ▸ hd.ofTag?_eq_some_iff hnames⟩

namespace Session

/-- A component of the catalog is added to the root of a page that has just been loaded. It comes
behind the last element. When the page is saved and loaded again an element of its name is there, and
it is the component if the imports of the page leave it its name, and only then. -/
theorem component_reloaded {source : String} {p : Page} (hp : Page.read source = .ok p)
    {d : Descriptor} (hd : d ∈ Catalog.standard.descriptors) (undoLevels : Nat) :
    ∃ id s t n,
      (load source .standard undoLevels).dispatch (.add rootId d.name none none none) =
        (.ok (.applied (.added id)), s) ∧
      s.mode = .page t ∧ t.root.children.getLast? = some n ∧ n.id = id ∧ n.type = d.name ∧
      n.component = some d.importInfo ∧
      ∀ defaults undoLevels, ∃ u m, (load s.save defaults undoLevels).mode = .page u ∧
        u.root.children.getLast? = some m ∧ m.type = n.type ∧
        (m.component = n.component ↔ d.KeepsName p.imports) := by
  have hload := mode_load hp .standard undoLevels
  have hwell := Page.wellFormed_of_read hp
  have hlisted := Descriptor.isListed hd
  obtain ⟨t, hadd, hroot⟩ := Tree.add_rootId hwell .standard d.name
  have hremembers := (fits_of_read hp).2.add .standard rootId d.name none none []
  have hwell' := Tree.wellFormed_add hwell .standard rootId d.name none none []
  rw [hadd] at hremembers hwell'
  have happly : (Command.add rootId d.name none none none).apply .standard p.tree =
      (.ok (.added p.tree.freshId.1), t) := by
    simp only [Command.apply, Option.map_none, Option.getD_none, hadd]
    rfl
  have hdispatch := dispatch_of_ok hload happly
  have hlast : t.root.children.getLast? = some (Defaults.standard.build p.tree.freshId.1 d.name) := by
    rw [hroot, List.getLast?_concat]
  refine ⟨_, _, t, _, hdispatch, rfl, hlast, rfl, rfl, hlisted.component_build _,
    fun defaults undoLevels => ?_⟩
  obtain ⟨q, m, hq, hm, htype, hcomponent⟩ :=
    Page.component_reread hp hlisted hremembers hwell' hroot Tree.defaultKey
  rw [hlisted.component_build]
  exact ⟨q.tree, m, mode_load hq defaults undoLevels, hm, htype, hcomponent⟩

def star : Descriptor := ⟨"Star", .icon, "svg", ["inline-block", "shrink-0"], .icon⟩

/-- A page that imports a component already. -/
def badgePage : String := "import \x7b Badge \x7d from \"@/components/ui\";\n<div/>\n"

theorem component_reloaded_star : ∃ u m,
    (load ((load badgePage).dispatch (.add rootId star.name none none none)).2.save).mode = .page u ∧
      u.root.children.getLast? = some m ∧ m.component = some star.importInfo := by
  have hok : (Page.read badgePage).isOk = true := by decide +kernel
  obtain ⟨p, hp⟩ := isOk_iff.1 hok
  have hstar : star ∈ Catalog.standard.descriptors := by decide +kernel
  obtain ⟨_, s, _, n, hdispatch, _, _, _, _, hadded, hreloaded⟩ := component_reloaded hp hstar 100
  obtain ⟨u, m, hu, hm, _, hcomponent⟩ := hreloaded .standard 100
  have hfree : (Import.readAll badgePage).toOption.all
      (fun is => (Import.resolve? is star.name).isNone) = true := by decide +kernel
  rw [Page.readAll_of_read hp] at hfree
  rw [hdispatch]
  exact ⟨u, m, hu, hm, (hcomponent.2 (.inl (Option.isNone_iff_eq_none.1 hfree))).trans hadded⟩

def card : Descriptor := ⟨"Card", .widget, "div", ["rounded-lg", "border", "shadow-sm"], .primitive⟩

/-- Pages whose imports give the name of the card to something else: an export of another package, and
another export of the same package. -/
def boundPages : List String :=
  ["import \x7b Card \x7d from './mine';\n<div/>\n",
    "import \x7b Badge as Card \x7d from \"@/components/ui\";\n<div/>\n"]

theorem not_component_reloaded_bound :
    boundPages ≠ [] ∧ card ∈ Catalog.standard.descriptors ∧ ∀ source ∈ boundPages,
      (((load source).dispatch (.add rootId card.name none none none)).2.tree?.bind
        (·.root.children.getLast?)).any (fun n => n.component = some card.importInfo) = true ∧
      ((load ((load source).dispatch (.add rootId card.name none none none)).2.save).tree?.bind
        (·.root.children.getLast?)).any
          (fun m => m.type = card.name ∧ m.component ≠ some card.importInfo) = true :=
  ⟨List.cons_ne_nil _ _, by decide +kernel, by decide +kernel⟩

end Session

end PageEditor
