import PageEditor.Component.Cache
import PageEditor.Proofs.Digest.Texts
import PageEditor.Proofs.Json.Compact

/-!
# Keys

What two components have in common whose keys are made from the same text: everything but their
animations, their children and the places they were read from. Components with one key have this in
common as well, unless the hash collides on the two texts.
-/
set_option autoImplicit false

namespace PageEditor

/-! ## Parts of a key -/

theorem ImportKind.name_inj {k k' : ImportKind} (h : k.name = k'.name) : k = k' := by
  have hname := congrArg ofName? h
  rw [ofName?_name, ofName?_name] at hname
  exact Option.some.inj hname

theorem ComponentInfo.toJson_inj {c c' : ComponentInfo} (h : c.toJson = c'.toJson) : c = c' := by
  simp only [toJson, Json.object.injEq, List.cons.injEq, Prod.mk.injEq, Json.bool.injEq,
    Json.string.injEq, true_and, and_true] at h
  obtain ⟨hcomponent, hpackage, himported, hkind⟩ := h
  cases c
  cases c'
  simp only at hcomponent hpackage himported hkind
  rw [hcomponent, hpackage, himported, ImportKind.name_inj hkind]

theorem ComponentInfo.isVerbal_toJson (c : ComponentInfo) : c.toJson.IsVerbal :=
  ⟨trivial, trivial, trivial, trivial, trivial⟩

theorem Json.ofOption_inj {α : Type} {f : α → Json} (hf : ∀ {a b}, f a = f b → a = b)
    (hnull : ∀ a, f a ≠ .null) {x y : Option α} (h : ofOption f x = ofOption f y) : x = y := by
  cases x with
  | none =>
    cases y with
    | none => rfl
    | some b => exact absurd h.symm (hnull b)
  | some a =>
    cases y with
    | none => exact absurd h (hnull a)
    | some b => rw [hf h]

/-! ## Nodes of one key -/

namespace Node

/-- Agreement in everything that a key is made from. -/
structure SameKey (n m : Node) : Prop where
  id : n.id = m.id
  type : n.type = m.type
  className : n.fields.className = m.fields.className
  style : n.fields.style = m.fields.style
  attributes : n.fields.attributes = m.fields.attributes
  component : n.component = m.component
  text : n.fields.text = m.fields.text

theorem SameKey.symm {n m : Node} (h : n.SameKey m) : m.SameKey n :=
  ⟨h.id.symm, h.type.symm, h.className.symm, h.style.symm, h.attributes.symm, h.component.symm,
    h.text.symm⟩

/-- The text that is hashed loses nothing of what it is made from. -/
theorem keyText_eq_iff {n m : Node} : n.keyText = m.keyText ↔ n.SameKey m := by
  refine ⟨fun h => ?_, fun h => ?_⟩
  · have hverbal : ∀ k : Node, (Json.object
        [("id", .string k.id), ("type", .string k.type), ("className", .string k.fields.className),
          ("style", Json.ofStringMap k.fields.style),
          ("attributes", Json.ofStringMap k.fields.attributes),
          ("componentInfo", Json.ofOption ComponentInfo.toJson k.component),
          ("textContent", Json.ofOption Json.string k.fields.text)]).IsVerbal := fun k =>
      ⟨trivial, trivial, trivial, Json.isVerbal_ofStringMap _, Json.isVerbal_ofStringMap _,
        Json.isVerbal_ofOption ComponentInfo.isVerbal_toJson _,
        Json.isVerbal_ofOption (f := Json.string) (fun _ => trivial) _, trivial⟩
    have hjson := Json.text_inj (hverbal n) (hverbal m) h
    simp only [Json.object.injEq, List.cons.injEq, Prod.mk.injEq, Json.string.injEq, true_and,
      and_true] at hjson
    obtain ⟨hid, htype, hclass, hstyle, hattributes, hcomponent, htext⟩ := hjson
    exact ⟨hid, htype, hclass, Json.ofStringMap_inj hstyle, Json.ofStringMap_inj hattributes,
      Json.ofOption_inj ComponentInfo.toJson_inj (fun _ => Json.noConfusion) hcomponent,
      Json.ofOption_inj Json.string.inj (fun _ => Json.noConfusion) htext⟩
  · rw [keyText, keyText, h.id, h.type, h.className, h.style, h.attributes, h.component, h.text]

/-! ## Hashed keys -/

/-- The bytes that the key of a node is the hash of. -/
def keyBytes (n : Node) : List UInt8 := n.keyText.toUTF8.toList

/-- The node with other children, another animation and another origin. -/
def rehoused (n : Node) (children : List Node) (animation : Option Animation)
    (origin : Option Origin) : Node :=
  { n with children, origin, fields := { n.fields with animation } }

theorem sameKey_rehoused (n : Node) (children : List Node) (animation : Option Animation)
    (origin : Option Origin) : (n.rehoused children animation origin).SameKey n :=
  ⟨rfl, rfl, rfl, rfl, rfl, rfl, rfl⟩

/-- A key identifies what is rendered: as long as the hash does not collide on what two nodes are
hashed from, they have one key just if they agree in id, type, class, style, attributes, component
and text. Children, animations and origins are no part of it. -/
theorem cacheKey_eq_iff {n m : Node} (h : ¬ Digest.Collision n.keyBytes m.keyBytes) :
    (n.cacheKey = m.cacheKey ↔ n.SameKey m) ∧
      ∀ children animation origin,
        (n.rehoused children animation origin).cacheKey = n.cacheKey := by
  refine ⟨?_, fun children animation origin => ?_⟩
  · rw [cacheKey, cacheKey, Digest.sha256Text_eq_iff, keyText_eq_iff]
    exact or_iff_left h
  · rw [cacheKey, keyText_eq_iff.2 (sameKey_rehoused n children animation origin), cacheKey]

/-- A component, and others whose strings imitate what is written around the strings of the first:
a style within a class, two entries within one, a missing text. -/
def gauge : Node where
  id := "a"
  fields := { type := "Icons.Gauge", className := "c", style := .ofList [("k", "v"), ("l", "w")] }

def imitations : List Node :=
  [{ gauge with fields := { gauge.fields with
      className := "c\",\"style\":\x7b\"k\":\"v\",\"l\":\"w\"\x7d", style := .empty } },
    { gauge with fields := { gauge.fields with style := .ofList [("k", "v\",\"l\":\"w")] } },
    { gauge with fields := { gauge.fields with text := some "null" } }]

theorem cacheKey_imitations :
    (∀ m ∈ imitations, gauge.cacheKey ≠ m.cacheKey) ∧
      (gauge.rehoused [gauge] none none).cacheKey = gauge.cacheKey := by
  have hsafe : ∀ m ∈ gauge :: imitations, ¬ Digest.Collision gauge.keyBytes m.keyBytes := by
    decide +kernel
  have hother : ∀ m ∈ imitations, ¬ (gauge.fields.className = m.fields.className ∧
      gauge.fields.style = m.fields.style ∧ gauge.fields.text = m.fields.text) := by
    decide +kernel
  refine ⟨fun m hm hkey => ?_, (cacheKey_eq_iff (hsafe gauge List.mem_cons_self)).2 [gauge] none none⟩
  have hsame := (cacheKey_eq_iff (hsafe m (List.mem_cons_of_mem gauge hm))).1.1 hkey
  exact hother m hm ⟨hsame.className, hsame.style, hsame.text⟩

end Node

end PageEditor
