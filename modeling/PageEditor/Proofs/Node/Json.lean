import PageEditor.Proofs.Json.Records
import PageEditor.Proofs.Json.RoundTrip
import PageEditor.Proofs.Tree.Nodes

/-!
# Nodes read from their JSON

What is written of a component, of an animation and of a node is read back: fields that were left out
as empty ones, maps in their order, and children at any depth that the reader has room for. Only the
origins of nodes are forgotten.
-/
set_option autoImplicit false

namespace PageEditor

open Json (required? optional? option? membersOf)

/-! ## Animations -/

namespace Animation

/-- The fields of the settings as they are written. -/
def jsonFields (a : Animation) : List (String × Option Json) :=
  [("enabled", some (.bool a.enabled)), ("type", some (.string a.kind.name)),
    ("trigger", some (.string a.trigger.name)), ("duration", some (number a.duration)),
    ("delay", some (number a.delay)), ("repeat", some (.ofNat a.repeats.toNat)),
    ("ease", some (.string a.ease)), ("direction", a.direction.map fun d => .string d.name),
    ("distance", a.distance.map number), ("angle", a.angle.map number),
    ("intensity", a.intensity.map number)]

theorem toJson_eq (a : Animation) : a.toJson = .object (membersOf a.jsonFields) := by
  simp [toJson, jsonFields]

theorem nodup_jsonFields (a : Animation) : (a.jsonFields.map Prod.fst).Nodup := by
  simp only [jsonFields, List.map_cons, List.map_nil]
  decide

theorem ofJson?_toJson (a : Animation) {room : Nat} (hroom : 0 < room) (whole : Bool) :
    ofJson? room whole a.toJson = some a := by
  have hfields := Json.fields?_membersOf (nodup_jsonFields a) 0
  have hkind : Json.required? (fun v => (v.caseName? (room - 1) whole).bind AnimationKind.ofName?)
      (some (.string a.kind.name)) = some a.kind := AnimationKind.ofName?_name a.kind
  have htrigger :
      Json.required? (fun v => (v.caseName? (room - 1) whole).bind AnimationTrigger.ofName?)
        (some (.string a.trigger.name)) = some a.trigger := AnimationTrigger.ofName?_name a.trigger
  have hrepeats : optional? 0 Json.uint32? (some (.ofNat a.repeats.toNat)) = some a.repeats :=
    (Json.optional?_some _ _ _).trans (Json.uint32?_ofNat a.repeats)
  have hdirection : optional? none
      (option? fun v => (v.caseName? (room - 1) whole).bind Direction.ofName?)
        (a.direction.map fun d => .string d.name) = some a.direction :=
    Json.optional?_map Direction.ofName?_name (by rintro _ ⟨⟩) a.direction
  have hnumber : ∀ o, optional? none (option? Json.double?) (o.map number) = some o :=
    Json.optional?_map (fun _ => rfl) (by rintro _ ⟨⟩)
  simp only [jsonFields, List.map_cons, List.map_nil] at hfields
  rw [ofJson?, toJson_eq, Json.guard_eq, if_pos hroom]
  simp only [jsonFields, hfields, Option.bind_eq_bind, Option.bind_some, Option.pure_def]
  rw [hkind, htrigger, hrepeats, hdirection, hnumber, hnumber, hnumber]
  rfl

/-- The numbers among the settings. -/
def numbers (a : Animation) : List Float :=
  [a.duration, a.delay] ++ (a.distance.toList ++ (a.angle.toList ++ a.intensity.toList))

theorem readsBack_toJson {a : Animation} (h : ∀ x ∈ a.numbers, (Number.double x).ReadsBack) :
    a.toJson.ReadsBack := by
  simp only [numbers, List.forall_mem_append, List.forall_mem_cons, Option.mem_toList] at h
  obtain ⟨⟨hduration, hdelay, -⟩, hdistance, hangle, hintensity⟩ := h
  have hrepeats : (Number.integer a.repeats.toNat).ReadsBack := by
    refine Json.readsBack_ofNat (Nat.lt_trans a.repeats.toNat_lt ?_)
    decide
  rw [toJson_eq]
  refine (Json.membersReadBack_iff _).2 (Json.forall_mem_membersOf.2 ?_)
  simp only [jsonFields, List.forall_mem_cons]
  exact ⟨Json.forall_mem_some trivial, Json.forall_mem_some trivial, Json.forall_mem_some trivial,
    Json.forall_mem_some hduration, Json.forall_mem_some hdelay, Json.forall_mem_some hrepeats,
    Json.forall_mem_some trivial, Json.forall_mem_map fun _ _ => trivial,
    Json.forall_mem_map hdistance, Json.forall_mem_map hangle, Json.forall_mem_map hintensity,
    by rintro _ ⟨⟩⟩

end Animation

/-! ## Components -/

namespace ComponentInfo

theorem ofJson?_toJson (c : ComponentInfo) {room : Nat} (hroom : 0 < room) (whole : Bool) :
    ofJson? room whole c.toJson = some c := by
  have hfields : c.toJson.fields? ["isComponent", "packageName", "importName", "importType"] =
      some [some (.bool c.isComponent), some (.string c.package), some (.string c.imported),
        some (.string c.kind.name)] := rfl
  have hkind : required? (fun v => (v.caseName? (room - 1) whole).bind ImportKind.ofName?)
      (some (.string c.kind.name)) = some c.kind := ImportKind.ofName?_name c.kind
  rw [ofJson?, Json.guard_eq, if_pos hroom]
  simp only [hfields, Option.bind_eq_bind, Option.bind_some, Option.pure_def]
  rw [hkind]
  rfl

theorem readsBack_toJson (c : ComponentInfo) : c.toJson.ReadsBack :=
  ⟨trivial, trivial, trivial, trivial, trivial⟩

end ComponentInfo

/-! ## Nodes -/

namespace Node

/-- The fields of a node as they are written. -/
def jsonFields (n : Node) : List (String × Option Json) :=
  [("id", some (.string n.id)), ("type", some (.string n.fields.type)),
    ("className", if n.fields.className = "" then none else some (.string n.fields.className)),
    ("style", if n.fields.style.isEmpty then none else some (Json.ofStringMap n.fields.style)),
    ("attributes",
      if n.fields.attributes.isEmpty then none else some (Json.ofStringMap n.fields.attributes)),
    ("textContent", n.fields.text.map .string),
    ("children", some (.array (allToJson n.children))),
    ("componentInfo", n.component.map ComponentInfo.toJson),
    ("animations", n.fields.animation.map Animation.toJson)]

theorem toJson_eq (n : Node) : n.toJson = .object (membersOf n.jsonFields) := by
  obtain ⟨id, fields, component, origin, children⟩ := n
  simp [toJson, jsonFields, mapMember]

theorem nodup_jsonFields (n : Node) : (n.jsonFields.map Prod.fst).Nodup := by
  simp only [jsonFields, List.map_cons, List.map_nil]
  decide

/-- All but the children are read back, and their value is handed on. -/
theorem headOfJson?_toJson (n : Node) {room : Nat} (hroom : 0 < room) (whole : Bool) :
    headOfJson? room whole n.toJson =
      some ({ n with origin := none, children := [] }, some (.array (allToJson n.children))) := by
  have hfields := Json.fields?_membersOf (nodup_jsonFields n) 0
  have hclass : optional? "" Json.string? (if n.fields.className = "" then none
      else some (.string n.fields.className)) = some n.fields.className :=
    Json.optional?_ite (fun hempty => hempty) rfl
  have hmap : ∀ m : OrderedMap String, optional? .empty (Json.stringMap? room)
      (if m.isEmpty then none else some (Json.ofStringMap m)) = some m := fun m =>
    Json.optional?_ite (fun hempty => OrderedMap.ext (List.isEmpty_iff.1 hempty))
      (Json.stringMap?_ofStringMap hroom m)
  have hcomponent : optional? none (option? (ComponentInfo.ofJson? room whole))
      (n.component.map ComponentInfo.toJson) = some n.component :=
    Json.optional?_map (fun c => c.ofJson?_toJson hroom whole) (by rintro _ ⟨⟩) n.component
  have hanimation : optional? none (option? (Animation.ofJson? room whole))
      (n.fields.animation.map Animation.toJson) = some n.fields.animation :=
    Json.optional?_map (fun a => a.ofJson?_toJson hroom whole) (by rintro _ ⟨⟩) n.fields.animation
  simp only [jsonFields, List.map_cons, List.map_nil] at hfields
  rw [headOfJson?, toJson_eq]
  simp only [jsonFields, hfields, Option.bind_eq_bind, Option.bind_some, Option.pure_def]
  rw [hclass, hmap, hmap, Json.optional?_string, hcomponent, hanimation]
  rfl

theorem depth_children (n : Node) : Json.itemsDepth (allToJson n.children) + 2 ≤ n.toJson.depth := by
  have hmem : ("children", Json.array (allToJson n.children)) ∈ membersOf n.jsonFields :=
    Json.mem_membersOf (by simp [jsonFields])
  have hle := Json.depth_le_membersDepth hmem
  rw [toJson_eq, Json.depth]
  rw [Json.depth] at hle
  omega

mutual

/-- A node is read back without its origins, as far as there is room for its nesting. -/
theorem ofJson?_toJson (whole : Bool) : (n : Node) → (room : Nat) → n.toJson.depth ≤ room →
    ofJson? whole room n.toJson = some n.forget
  | ⟨id, fields, component, origin, children⟩, room, h => by
    have hdepth : Json.itemsDepth (allToJson children) + 2 ≤ _ :=
      depth_children ⟨id, fields, component, origin, children⟩
    obtain ⟨room, rfl⟩ := Nat.exists_eq_add_of_le' (Nat.le_trans (Nat.le_add_left 2 _)
      (Nat.le_trans hdepth h))
    have hchildren := mapM_ofJson? whole children room (by omega)
    rw [ofJson?, headOfJson?_toJson _ (Nat.succ_pos room)]
    simp only [hchildren, Option.bind_eq_bind, Option.bind_some]
    rfl

theorem mapM_ofJson? (whole : Bool) : (ns : List Node) → (room : Nat) →
    Json.itemsDepth (allToJson ns) ≤ room →
    (allToJson ns).mapM (ofJson? whole room) = some (forgetAll ns)
  | [], _, _ => rfl
  | n :: ns, room, h => by
    rw [allToJson, Json.itemsDepth, Nat.max_le] at h
    rw [allToJson, List.mapM_cons, ofJson?_toJson whole n room h.1, mapM_ofJson? whole ns room h.2]
    rfl

end

/-- The numbers of all animations are read back from their digits. Only animations have numbers. -/
def KeepsNumbers (n : Node) : Prop :=
  ∀ m ∈ n.nodes, ∀ a ∈ m.fields.animation, ∀ x ∈ a.numbers, (Number.double x).ReadsBack

instance (n : Node) : Decidable n.KeepsNumbers :=
  inferInstanceAs (Decidable (∀ m ∈ n.nodes, ∀ a ∈ m.fields.animation, ∀ x ∈ a.numbers, _))

mutual

theorem readsBack_toJson : (n : Node) → n.KeepsNumbers → n.toJson.ReadsBack
  | ⟨id, fields, component, origin, children⟩, h => by
    rw [KeepsNumbers, nodes, List.forall_mem_cons] at h
    have hchildren := readBack_allToJson children h.2
    rw [toJson_eq]
    refine (Json.membersReadBack_iff _).2 (Json.forall_mem_membersOf.2 ?_)
    simp only [jsonFields, List.forall_mem_cons]
    exact ⟨Json.forall_mem_some trivial, Json.forall_mem_some trivial, Json.forall_mem_ite trivial,
      Json.forall_mem_ite (Json.readsBack_ofStringMap _),
      Json.forall_mem_ite (Json.readsBack_ofStringMap _), Json.forall_mem_map fun _ _ => trivial,
      Json.forall_mem_some hchildren, Json.forall_mem_map fun c _ => c.readsBack_toJson,
      Json.forall_mem_map fun a ha => Animation.readsBack_toJson (h.1 a ha), by rintro _ ⟨⟩⟩

theorem readBack_allToJson : (ns : List Node) →
    (∀ m ∈ nodesAll ns, ∀ a ∈ m.fields.animation, ∀ x ∈ a.numbers, (Number.double x).ReadsBack) →
    Json.ItemsReadBack (allToJson ns)
  | [], _ => trivial
  | n :: ns, h => by
    rw [nodesAll, List.forall_mem_append] at h
    exact ⟨readsBack_toJson n h.1, readBack_allToJson ns h.2⟩

end

mutual

theorem forget_eq_self : (n : Node) → (∀ m ∈ n.nodes, m.origin = none) → n.forget = n
  | ⟨id, fields, component, origin, children⟩, h => by
    rw [nodes, List.forall_mem_cons] at h
    obtain rfl : origin = none := h.1
    rw [forget, forgetAll_eq_self children h.2]

theorem forgetAll_eq_self : (ns : List Node) → (∀ m ∈ nodesAll ns, m.origin = none) →
    forgetAll ns = ns
  | [], _ => rfl
  | n :: ns, h => by
    rw [nodesAll, List.forall_mem_append] at h
    rw [forgetAll, forget_eq_self n h.1, forgetAll_eq_self ns h.2]

end

end Node

end PageEditor
