import PageEditor.Proofs.Component.Snippets
import PageEditor.Proofs.Markup.ExactTags
import PageEditor.Proofs.Markup.PrintedImports

/-!
# Components that are made at once

A component that the environment knows by its very name is made at once from its fields. It can be
compiled as well, and when its snippet loses none of these fields it looks the same: the import gives the
name its meaning again, the tag gives the class, the style and the attributes, and the text stands in
front of the children.
-/
set_option autoImplicit false

namespace PageEditor

open Cursor

/-! ## Imports of snippets -/

theorem baseName_member (name member : String) :
    baseName (name ++ "." ++ member) = baseName name := by
  have hpoint : ∀ a b : List Char, (a ++ '.' :: b).takeWhile (· != '.') = a.takeWhile (· != '.') := by
    intro a b
    rw [List.takeWhile_append]
    split
    · rename_i hall
      rw [List.takeWhile_cons_of_neg (by decide), List.append_nil]
      exact ((List.takeWhile_prefix _).eq_of_length hall).symm
    · rfl
  have htext : (name ++ "." ++ member).toList = name.toList ++ '.' :: member.toList := by simp
  rw [baseName, baseName, htext, hpoint]

/-- A component with a package got it from an import that names the first part of its tag. A named
export has the first part of the component's name. -/
theorem ComponentInfo.exists_binding {is : List Import} {tag : String} {c : ComponentInfo}
    (h : ofTag? is tag = some c) (hpackage : c.package ≠ "") :
    ∃ b, Import.resolve? is (baseName tag) = some (c.package, b) ∧ c.kind = b.kind ∧
      (b.kind = .named → baseName c.imported = baseName b.imported) := by
  cases hresolve : Import.resolve? is (baseName tag) with
  | none => exact absurd (package_of_ofTag? h hpackage) (by simp [hresolve])
  | some r =>
    obtain ⟨package, b⟩ := r
    rw [baseName] at hresolve
    simp only [ofTag?, hresolve, Option.ite_none_right_eq_some] at h
    obtain ⟨_, h⟩ := h
    cases h
    refine ⟨b, rfl, rfl, fun hkind => ?_⟩
    simp only [hkind]
    cases tag.toList.dropWhile (· != '.') with
    | nil => rfl
    | cons x r => exact baseName_member b.imported (String.ofList r)

namespace Node

variable {n : Node} {c : ComponentInfo}

theorem snippetImport_of_package (h : n.component = some c) (hpackage : c.package ≠ "") :
    n.snippetImport = (⟨c.package, if c.kind = .named then baseName c.imported else "",
      baseName n.type, c.kind⟩ : Needed).statement ++ ['\n'] := by
  simp only [snippetImport, h, if_neg hpackage, Needed.lines_singleton, List.map_singleton,
    List.flatten_singleton, String.toList_ofList]

/-- What its snippet has to keep of a component that is made at once: the import gives its name the same
meaning, its tag comes back in both forms, and its text is one run. -/
structure IsFaithful (n : Node) : Prop where
  name : Token.IsName n.type.toList
  still : n.fields.animation = none
  package : ∀ c, n.component = some c → c.package = "" ∨ Token.Escaped '"' c.package.toList
  imports : ∃ is, Import.readAll (String.ofList n.snippetImport) = .ok is ∧
    ComponentInfo.ofTag? is n.type = n.component
  tags : ∀ closed, n.fields.KeepsTag closed
  text : ∀ t, n.fields.text = some t → Value.IsRun t

theorem isNamed_of_ofTag? {source : String} {is : List Import} (hname : Token.IsName n.type.toList)
    (hread : Import.readAll source = .ok is) (hc : ComponentInfo.ofTag? is n.type = some c)
    (hpackage : c.package ≠ "") (hescaped : Token.Escaped '"' c.package.toList) :
    (⟨c.package, if c.kind = .named then baseName c.imported else "", baseName n.type, c.kind⟩ :
      Needed).IsNamed := by
  refine ⟨fun hkind => ?_, isName_baseName hname, hescaped⟩
  obtain ⟨b, hresolve, hsame, hbase⟩ := ComponentInfo.exists_binding hc hpackage
  obtain ⟨i, hi, _, hb, _⟩ := Import.mem_of_resolve? hresolve
  obtain ⟨d, hprelude⟩ : ∃ d, (ofText source.toList).prelude = .ok (is, d) := by
    rw [Import.readAll] at hread
    cases hprelude : (ofText source.toList).prelude with
    | error e =>
      rw [hprelude] at hread
      cases hread
    | ok p =>
      rw [hprelude] at hread
      cases hread
      exact ⟨p.2, rfl⟩
  obtain ⟨e, hreads, _⟩ := readsImports_of_prelude hprelude
  have hproper := hreads.isProper i hi b hb (hsame.symm.trans hkind)
  simp only at hkind ⊢
  rw [if_pos hkind, hbase (hsame.symm.trans hkind)]
  exact isName_baseName hproper

theorem IsFaithful.isImportBlock (h : n.IsFaithful) : IsImportBlock n.snippetImport ∧
    ComponentInfo.ofTag? n.snippetImports n.type = n.component := by
  obtain ⟨is, his, hcomponent⟩ := h.imports
  have hnone : n.snippetImport = [] → IsImportBlock n.snippetImport ∧
      ComponentInfo.ofTag? n.snippetImports n.type = n.component := by
    intro hnil
    have hblock : Import.ofBlock [] = [] := by decide +kernel
    have hempty : Import.readAll "" = .ok [] := by decide +kernel
    rw [hnil] at his ⊢
    have hnothing : n.snippetImports = [] := by
      rw [snippetImports, hnil]
      exact hblock
    cases his.symm.trans hempty
    exact ⟨isImportBlock_nil, by rw [hnothing, hcomponent]⟩
  cases hc : n.component with
  | none => exact hc ▸ hnone (by rw [snippetImport, hc])
  | some c =>
    by_cases hpackage : c.package = ""
    · exact hc ▸ hnone (by simp only [snippetImport, hc, if_pos hpackage])
    · rw [hc] at hcomponent
      have hline := snippetImport_of_package hc hpackage
      have hnamed := isNamed_of_ofTag? h.name his hcomponent hpackage
        ((h.package c hc).resolve_left hpackage)
      obtain ⟨hblock, hnames⟩ := Needed.isImportBlock_statement hnamed
      obtain ⟨i, hread, hi⟩ := Needed.readAll_statement hnamed
      rw [← hline] at hblock hnames hread
      refine ⟨hblock, ?_⟩
      cases hread.symm.trans his
      have hsame : n.snippetImports.map Import.names = [i].map Import.names := by
        rw [List.map_singleton, hi]
        exact hnames
      rw [← hcomponent]
      exact ComponentInfo.ofTag?_congr (Import.resolve?_congr hsame _)

/-- The tag of a component that its snippet keeps is read with attributes that give it its class, its
style and its attributes. -/
theorem IsFaithful.exists_hasTags (h : n.IsFaithful) : ∃ attributes, n.HasTags attributes ∧
    ∀ closed, Plan.SameFrame (n.ofAttributes (attributes closed)) n := by
  have htags := fun closed => (h.tags closed).isOpenTag h.name h.still
  choose attributes hopens hclass hstyle hattributes using htags
  obtain ⟨hblock, hcomponent⟩ := h.isImportBlock
  exact ⟨attributes, ⟨h.name, hblock, hopens⟩, fun closed =>
    ⟨Fields.ofTag_type n.type _, hclass closed, hstyle closed, hattributes closed, hcomponent⟩⟩

theorem IsFaithful.runAll_leaves (h : n.IsFaithful) (id : String) {vs : List VNode}
    (hvs : n.children = [] → vs = []) :
    (Plan.runAll id vs (n.leaves.map Plan.ofLeaf)).1 = (Props.ofNode n).textNodes ++ vs := by
  have hslot : (Plan.runAll id vs (n.template.children.map Plan.ofLeaf)).1 = vs := by
    rw [template_children]
    split
    · rename_i hnone
      rw [List.map_nil, Plan.runAll_nil, hvs hnone]
    · exact Plan.runAll_slot id vs
  have htext : (Props.ofNode n).textNodes =
      ((n.fields.text.filter (· != "")).map VNode.text).toList := rfl
  rw [leaves, htext, text?, List.map_append]
  cases hown : n.fields.text with
  | none => exact hslot
  | some t =>
    have hrun := h.text t hown
    have hne : (some t).filter (· != "") = some t := by
      rw [Option.filter_some, if_pos (by simpa using hrun.nonempty)]
    rw [hne]
    unfold ownLeaves
    simp only [hrun.plain, Bool.false_eq_true, if_false, ofRun, hrun.trimmed?]
    exact (Plan.runAll_text id vs t _).trans (congrArg (VNode.text t :: ·) hslot)

end Node

/-! ## Both ways -/

theorem Environment.resolve_of_direct? {env : Environment} {c : ComponentInfo} {d : Descriptor}
    (h : env.direct? c = some d) : env.resolve c = .ok d := by
  unfold direct? at h
  split at h
  · cases h
  · obtain ⟨hfind, hfamily⟩ := Option.filter_eq_some_iff.1 h
    have hfamily : env.family? c.package = some d.family := by simpa using hfamily
    have hfirst : ((namesOf c.imported).filterMap env.catalog.find?).find? (·.family == d.family) =
        some d := by
      rw [namesOf, List.filterMap_cons_some hfind, List.find?_cons_of_pos (by simp)]
    rw [resolve, hfamily]
    simp only [hfirst]

/-- A component that can be made at once, and that its snippet keeps, can be compiled, and its plan shows
what is made at once, whatever is shown of its children. -/
theorem execute_eq_instantiate {env : Environment} {n : Node} (h : n.IsFaithful) {c : ComponentInfo}
    (hc : n.component? = some c) {d : Descriptor} (hd : env.direct? c = some d) :
    ∃ plan, n.compile env = .ok plan ∧ ∀ vs, (n.children = [] → vs = []) →
      plan.execute n.id vs = d.instantiate (.ofNode n) vs := by
  obtain ⟨attributes, htags, hframes⟩ := h.exists_hasTags
  obtain ⟨closed, m, plans, hcompile, hframe, hinner⟩ := htags.compile env
  have hsame := hframe.trans (hframes closed)
  have hcomponent : m.component? = some c := by
    rw [← hc, Node.component?, Node.component?, hsame.component]
  refine ⟨.component d (.ofNode m) plans, ?_, fun vs hvs => ?_⟩
  · rw [hcompile, Plan.around, hcomponent]
    simp only [Environment.resolve_of_direct? hd]
    rfl
  · have hprops : ({ Props.ofNode m with nodeId := n.id, text := none } : Props) =
        { Props.ofNode n with text := none } := by
      simp only [Props.ofNode, hsame.className, hsame.style, hsame.attributes]
    rw [Plan.execute_component, hprops, hinner, h.runAll_leaves n.id hvs, ← Descriptor.instantiate_eq]

/-- A button under another name, with an icon behind its text. -/
def saveButton : Node where
  id := "b1"
  fields :=
    { type := "Btn", className := "wide", style := .ofList [("color", "red"), ("width", "24")],
      attributes := .ofList [("disabled", "\x7btrue\x7d"), ("title", "a > b")], text := some "Save" }
  component := some ⟨true, "@/components/ui/button", "Button", .named⟩
  children := [{ id := "i1", fields := { type := "span" } }]

theorem isFaithful_saveButton : saveButton.IsFaithful := by
  refine ⟨by decide, rfl, ?_, ?_, by decide +kernel, ?_⟩
  · rintro _ ⟨⟩
    exact .inr (by decide)
  · have hread : (Import.readAll (String.ofList saveButton.snippetImport)).toOption.any (fun is =>
        decide (ComponentInfo.ofTag? is saveButton.type = saveButton.component)) = true := by
      decide +kernel
    cases his : Import.readAll (String.ofList saveButton.snippetImport) with
    | error e =>
      rw [his] at hread
      cases hread
    | ok is =>
      rw [his] at hread
      exact ⟨is, rfl, of_decide_eq_true hread⟩
  · rintro _ ⟨⟩
    exact ⟨by decide, by decide, by decide⟩

theorem execute_saveButton : ∃ d plan,
    Environment.standard.direct? ⟨true, "@/components/ui/button", "Button", .named⟩ = some d ∧
      saveButton.compile .standard = .ok plan ∧
      ∀ vs, plan.execute "b1" vs = d.instantiate (.ofNode saveButton) vs := by
  have hdirect : (Environment.standard.direct?
      ⟨true, "@/components/ui/button", "Button", .named⟩).isSome = true := by
    decide +kernel
  obtain ⟨d, hd⟩ := Option.isSome_iff_exists.1 hdirect
  obtain ⟨plan, hplan, hexecute⟩ := execute_eq_instantiate isFaithful_saveButton rfl hd
  exact ⟨d, plan, hd, hplan, fun vs => hexecute vs (by rintro ⟨⟩)⟩

end PageEditor
