import PageEditor.Edit.Command
import PageEditor.Proofs.Node.Json

/-!
# Commands as texts

A command that is written as a text is read from it again, with its maps in their order and all that was
left out as empty. What it may lack is a node's memory of the text it was read from, which is not
written, and what it may be refused for is the nesting of the node that it carries.
-/
set_option autoImplicit false

namespace PageEditor

open Json (required? optional? option? membersOf)

namespace Command

/-! ## Commands as records -/

def caseName : Command → String
  | add .. => "add"
  | duplicate _ => "duplicate"
  | delete _ => "delete"
  | move .. => "move"
  | update _ => "update"

/-- The fields of a command as they are written. -/
def jsonFields : Command → List (String × Option Json)
  | add parentId type index text attributes =>
    [("parentId", some (.string parentId)), ("type", some (.string type)),
      ("position", index.map fun i => .ofNat i.toNat), ("text", text.map Json.string),
      ("attributes", attributes.map Json.ofStringMap)]
  | duplicate id => [("id", some (.string id))]
  | delete id => [("id", some (.string id))]
  | move source target position =>
    [("sourceId", some (.string source)), ("targetId", some (.string target)),
      ("position", some (.string position.name))]
  | update node => [("node", some node.toJson)]

/-- The command without the origins of its node. -/
def forget : Command → Command
  | update node => .update node.forget
  | c => c

variable (c : Command)

theorem toJson_eq :
    c.toJson = .object (("command", .string c.caseName) :: membersOf c.jsonFields) := by
  cases c <;> simp [toJson, caseName, jsonFields]

theorem nodup_jsonFields : (c.jsonFields.map Prod.fst).Nodup := by
  cases c <;> simp [jsonFields]

theorem command_notMem_jsonFields : "command" ∉ c.jsonFields.map Prod.fst := by
  cases c <;> simp [jsonFields]

/-! ## Reading -/

theorem ofFields?_add (parentId type : String) (index : Option UInt64) (text : Option String)
    (attributes : Option (OrderedMap String)) :
    ofFields? "add" (.object (membersOf (add parentId type index text attributes).jsonFields)) =
      some (add parentId type index text attributes) := by
  have hfields := Json.fields?_membersOf
    (nodup_jsonFields (add parentId type index text attributes)) 0
  have hindex : optional? none (option? Json.uint64?) (index.map fun i => .ofNat i.toNat) =
      some index := Json.optional?_map Json.uint64?_ofNat (by rintro _ ⟨⟩) index
  have hattributes : optional? none (option? (Json.stringMap? Json.depthLimit))
      (attributes.map Json.ofStringMap) = some attributes :=
    Json.optional?_map (Json.stringMap?_ofStringMap (by decide)) (by rintro _ ⟨⟩) attributes
  simp only [jsonFields, List.map_cons, List.map_nil] at hfields
  rw [ofFields?, if_pos rfl]
  simp only [jsonFields, hfields, Option.bind_eq_bind, Option.bind_some, Option.pure_def]
  rw [hindex, Json.optional?_string, hattributes]
  rfl

theorem ofFields?_move (source target : String) (position : DropPosition) :
    ofFields? "move" (.object (membersOf (move source target position).jsonFields)) =
      some (move source target position) := by
  have hposition : required? (Json.case? DropPosition.ofName?) (some (.string position.name)) =
      some position := DropPosition.ofName?_name position
  have hfields := Json.fields?_membersOf (nodup_jsonFields (move source target position)) 0
  simp only [jsonFields, List.map_cons, List.map_nil] at hfields
  rw [ofFields?, if_neg (by decide), if_neg (by decide), if_neg (by decide), if_pos rfl]
  simp only [jsonFields, hfields, Option.bind_eq_bind, Option.bind_some, Option.pure_def]
  rw [hposition]
  rfl

theorem ofFields?_update {n : Node} (h : n.toJson.depth ≤ Json.depthLimit) :
    ofFields? "update" (.object (membersOf (update n).jsonFields)) = some (update n.forget) := by
  have hnode : required? (Node.ofJson? true Json.depthLimit) (some n.toJson) = some n.forget :=
    n.ofJson?_toJson true _ h
  have hfields := Json.fields?_membersOf (nodup_jsonFields (update n)) 0
  simp only [jsonFields, List.map_cons, List.map_nil] at hfields
  rw [ofFields?, if_neg (by decide), if_neg (by decide), if_neg (by decide), if_neg (by decide),
    if_pos rfl]
  simp only [jsonFields, hfields, Option.bind_eq_bind, Option.bind_some, Option.pure_def]
  rw [hnode]
  rfl

theorem depth_update (n : Node) : (update n).toJson.depth = n.toJson.depth + 1 := by
  simp only [toJson, Json.depth, Json.membersDepth]
  omega

theorem ofFields?_jsonFields (h : c.toJson.depth ≤ Json.depthLimit) :
    ofFields? c.caseName (.object (membersOf c.jsonFields)) = some c.forget := by
  cases c with
  | add parentId type index text attributes => exact ofFields?_add parentId type index text attributes
  | duplicate id => rfl
  | delete id => rfl
  | move source target position => exact ofFields?_move source target position
  | update n =>
    rw [depth_update] at h
    exact ofFields?_update (Nat.le_of_succ_le h)

/-! ## Texts -/

/-- Every number that a command carries is read back from its digits. -/
def KeepsNumbers (c : Command) : Prop := ∀ n, c = .update n → n.KeepsNumbers

theorem forall_mem_jsonFields {P : Json → Prop} (hstring : ∀ s, P (.string s))
    (hindex : ∀ i : UInt64, P (.ofNat i.toNat)) (hmap : ∀ m, P (Json.ofStringMap m))
    (hnode : ∀ n, c = .update n → P n.toJson) : ∀ e ∈ c.jsonFields, ∀ v ∈ e.2, P v := by
  have hfield : ∀ s, ∀ v ∈ some (Json.string s), P v := fun s => Json.forall_mem_some (hstring s)
  cases c with
  | add parentId type index text attributes =>
    simp only [jsonFields, List.forall_mem_cons]
    exact ⟨hfield _, hfield _, Json.forall_mem_map fun i _ => hindex i,
      Json.forall_mem_map fun s _ => hstring s, Json.forall_mem_map fun m _ => hmap m,
      by rintro _ ⟨⟩⟩
  | duplicate id =>
    simp only [jsonFields, List.forall_mem_cons]
    exact ⟨hfield _, by rintro _ ⟨⟩⟩
  | delete id =>
    simp only [jsonFields, List.forall_mem_cons]
    exact ⟨hfield _, by rintro _ ⟨⟩⟩
  | move source target position =>
    simp only [jsonFields, List.forall_mem_cons]
    exact ⟨hfield _, hfield _, hfield _, by rintro _ ⟨⟩⟩
  | update n =>
    simp only [jsonFields, List.forall_mem_cons]
    exact ⟨Json.forall_mem_some (hnode n rfl), by rintro _ ⟨⟩⟩

theorem readsBack_toJson {c : Command} (h : c.KeepsNumbers) : c.toJson.ReadsBack := by
  have hfields := c.forall_mem_jsonFields (P := Json.ReadsBack) (fun _ => trivial)
    (fun i => Json.readsBack_ofNat i.toNat_lt) Json.readsBack_ofStringMap
    fun n hn => n.readsBack_toJson (h n hn)
  rw [toJson_eq]
  exact (Json.membersReadBack_iff _).2
    (List.forall_mem_cons.2 ⟨trivial, Json.forall_mem_membersOf.2 hfields⟩)

/-- Without a node a command is nested two levels deep at most. -/
theorem depth_le (h : ∀ n, c ≠ .update n) : c.toJson.depth ≤ 2 := by
  have hfields := c.forall_mem_jsonFields (P := (·.depth ≤ 1)) (fun _ => Nat.zero_le 1)
    (fun _ => Nat.zero_le 1) (fun m => Nat.le_of_eq (Json.depth_ofStringMap m))
    fun n hn => absurd hn (h n)
  have hmembers : ∀ m ∈ ("command", Json.string c.caseName) :: membersOf c.jsonFields,
      m.2.depth ≤ 1 :=
    List.forall_mem_cons.2 ⟨Nat.zero_le 1, Json.forall_mem_membersOf.2 hfields⟩
  have hle := Json.membersDepth_le hmembers
  rw [toJson_eq, Json.depth]
  omega

theorem ofText?_text {c : Command} (h : c.KeepsNumbers) :
    ofText? c.toJson.text =
      if c.toJson.depth ≤ Json.depthLimit then some c.forget else none := by
  have hread := Json.read?_compact (readsBack_toJson h)
  have htagged : c.toJson.tagged? false "command" caseNames =
      some (c.caseName, .object (membersOf c.jsonFields)) := by
    rw [toJson_eq]
    exact Json.tagged?_membersOf c.command_notMem_jsonFields false caseNames c.caseName
  have hsound := Json.isSound_iff_of_readsBack (readsBack_toJson h)
  rw [ofText?, Json.text, String.toList_ofList, hread, Option.bind_some, ofJson?]
  by_cases hdepth : c.toJson.depth ≤ Json.depthLimit
  · rw [if_pos hdepth, Json.guard_eq, if_pos (hsound.2 hdepth)]
    simp only [htagged, Option.bind_eq_bind, Option.bind_some]
    exact c.ofFields?_jsonFields hdepth
  · rw [if_neg hdepth, Json.guard_eq, if_neg fun hs => hdepth (hsound.1 hs)]
    rfl

/-- Every command is read back from its text. One that carries a node is read back if no node in it
remembers a text, if the numbers of its animations are read back from their digits, and just if it is
not nested too deep. -/
theorem ofText?_text_iff (c : Command)
    (h : ∀ n, c = .update n → n.KeepsNumbers ∧ ∀ m ∈ n.nodes, m.origin = none) :
    ofText? c.toJson.text = some c ↔
      ∀ n, c = .update n → c.toJson.depth ≤ Json.depthLimit := by
  have hforget : c.forget = c := by
    cases c with
    | update n => rw [forget, n.forget_eq_self (h n rfl).2]
    | _ => rfl
  rw [ofText?_text fun n hn => (h n hn).1, hforget]
  constructor
  · intro hread n hn
    refine Decidable.byContradiction fun hdeep => ?_
    rw [if_neg hdeep] at hread
    cases hread
  · intro hdepth
    refine if_pos ?_
    by_cases hn : ∃ n, c = .update n
    · obtain ⟨n, hn⟩ := hn
      exact hdepth n hn
    · exact Nat.le_trans (c.depth_le fun n hc => hn ⟨n, hc⟩) (by decide)

/-- A component with fields of all kinds, with quotes, braces, line breaks and control characters in
them, an empty text, and children two levels deep. -/
def reworkedCard : Node where
  id := "card-1"
  fields := {
    type := "Card"
    className := "wide \"C:\\\""
    style := .ofList [("z-index", "1"), ("", "\x7bcolor\x7d")]
    attributes := .ofList [("title", "a\nb\x01"), ("alt", "</p>")]
    text := some ""
    animation := some {
      enabled := true, kind := .slide, trigger := .inView, duration := 0.3, delay := -0.0,
      distance := some 1e300 } }
  component := some ⟨true, "@/components/ui/card", "Card", .whole⟩
  children := [
    { Node.ofType "list" "ul" with children := [.ofType "item" "li"] },
    .ofType "caption" textType]

theorem ofText?_reworkedCard :
    ofText? (update reworkedCard).toJson.text = some (update reworkedCard) ∧
    ofText? (add "list" "li" (some 0) none (some .empty)).toJson.text =
      some (add "list" "li" (some 0) none (some .empty)) := by
  have hcard : reworkedCard.KeepsNumbers ∧ ∀ m ∈ reworkedCard.nodes, m.origin = none := by
    decide +kernel
  constructor
  · refine (ofText?_text_iff _ fun n hn => ?_).2 fun n hn => ?_
    · cases hn
      exact hcard
    · decide +kernel
  · exact (ofText?_text_iff _ (by rintro _ ⟨⟩)).2 (by rintro _ ⟨⟩)

end Command

end PageEditor
