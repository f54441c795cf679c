import PageEditor.Json.Decode

/-!
# Records written as objects

The object of a record holds the fields that are there, under names of their own, so each of them is
found again and the ones that were left out are missing.
-/
set_option autoImplicit false

namespace PageEditor.Json

/-! ## Fields -/

/-- The members of the fields that are there. -/
def membersOf (fields : List (String × Option Json)) : List (String × Json) :=
  fields.filterMap fun e => e.2.map (e.1, ·)

variable {fields : List (String × Option Json)} {name : String} {o : Option Json}

@[simp] theorem membersOf_nil : membersOf [] = [] := rfl

@[simp] theorem membersOf_cons_some (v : Json) :
    membersOf ((name, some v) :: fields) = (name, v) :: membersOf fields := rfl

@[simp] theorem membersOf_cons_map {α : Type} (f : α → Json) (o : Option α) :
    membersOf ((name, o.map f) :: fields) = member? name f o ++ membersOf fields := by
  cases o <;> rfl

@[simp] theorem membersOf_cons_ite {p : Prop} [Decidable p] (v : Json) :
    membersOf ((name, if p then none else some v) :: fields) =
      (if p then [] else [(name, v)]) ++ membersOf fields := by
  by_cases hp : p
  · rw [if_pos hp, if_pos hp]
    rfl
  · rw [if_neg hp, if_neg hp]
    rfl

theorem mem_membersOf {v : Json} (h : (name, some v) ∈ fields) : (name, v) ∈ membersOf fields :=
  List.mem_filterMap.2 ⟨(name, some v), h, rfl⟩

theorem forall_mem_membersOf {P : Json → Prop} :
    (∀ m ∈ membersOf fields, P m.2) ↔ ∀ e ∈ fields, ∀ v ∈ e.2, P v := by
  refine ⟨fun h e he v hv => ?_, fun h m hm => ?_⟩
  · exact h (e.1, v) (List.mem_filterMap.2 ⟨e, he, Option.map_eq_some_iff.2 ⟨v, hv, rfl⟩⟩)
  · obtain ⟨e, he, hm⟩ := List.mem_filterMap.1 hm
    obtain ⟨v, hv, rfl⟩ := Option.map_eq_some_iff.1 hm
    exact h e he v hv

section Written

variable {α : Type} {P : Json → Prop} {f : α → Json} {o : Option α} {p : Prop} [Decidable p] {v : Json}

theorem forall_mem_some (h : P v) : ∀ w ∈ some v, P w := by
  rintro w ⟨⟩
  exact h

theorem forall_mem_ite (h : P v) : ∀ w ∈ if p then none else some v, P w := by
  split
  · rintro w ⟨⟩
  · exact forall_mem_some h

theorem forall_mem_map (h : ∀ a ∈ o, P (f a)) : ∀ w ∈ o.map f, P w := by
  intro w hw
  obtain ⟨a, ha, rfl⟩ := Option.map_eq_some_iff.1 hw
  exact h a ha

end Written

theorem filter_membersOf_of_notMem (h : name ∉ fields.map Prod.fst) :
    (membersOf fields).filter (·.1 == name) = [] := by
  refine List.filter_eq_nil_iff.2 fun m hm hname => h ?_
  obtain ⟨e, he, hm⟩ := List.mem_filterMap.1 hm
  obtain ⟨v, _, rfl⟩ := Option.map_eq_some_iff.1 hm
  exact List.mem_map.2 ⟨e, he, beq_iff_eq.1 hname⟩

theorem filter_membersOf (hnodup : (fields.map Prod.fst).Nodup) (h : (name, o) ∈ fields) :
    (membersOf fields).filter (·.1 == name) = (o.map (name, ·)).toList := by
  induction fields with
  | nil => cases h
  | cons e fields ih =>
    obtain ⟨hkey, hnodup⟩ := List.nodup_cons.1 hnodup
    have hsplit : membersOf (e :: fields) = (e.2.map (e.1, ·)).toList ++ membersOf fields := by
      rw [membersOf, List.filterMap_cons]
      cases e.2 <;> rfl
    rw [hsplit, List.filter_append]
    rcases List.mem_cons.1 h with rfl | h
    · rw [filter_membersOf_of_notMem hkey, List.append_nil]
      cases o with
      | none => rfl
      | some v => simp
    · have hne : e.1 ≠ name := by
        rintro rfl
        exact hkey (List.mem_map.2 ⟨_, h, rfl⟩)
      rw [ih hnodup h]
      cases e.2 with
      | none => rfl
      | some v => simp [hne]

/-- Each field is found again, and nothing under the name of a field that was left out. -/
theorem fields?_membersOf (hnodup : (fields.map Prod.fst).Nodup) (least : Nat) :
    (object (membersOf fields)).fields? (fields.map Prod.fst) least =
      some (fields.map Prod.snd) := by
  have hsingle : ∀ e ∈ fields, single? (membersOf fields) e.1 = some e.2 := by
    intro e he
    have hfilter := filter_membersOf hnodup (o := e.2) he
    rw [single?]
    cases ho : e.2 with
    | none =>
      rw [ho] at hfilter
      rw [hfilter]
      rfl
    | some v =>
      rw [ho] at hfilter
      rw [hfilter]
      rfl
  rw [fields?]
  generalize membersOf fields = ms at hsingle
  induction fields with
  | nil => rfl
  | cons e fields ih =>
    rw [List.map_cons, List.mapM_cons, hsingle e List.mem_cons_self,
      ih (List.nodup_cons.1 hnodup).2 fun e he => hsingle e (List.mem_cons_of_mem _ he)]
    rfl

/-- A case that is written in front of the fields is found again, and the fields without it. -/
theorem tagged?_membersOf (h : name ∉ fields.map Prod.fst) (whole : Bool) (cases : List String)
    (case : String) :
    (object ((name, string case) :: membersOf fields)).tagged? whole name cases =
      some (case, object (membersOf fields)) := by
  have hno := filter_membersOf_of_notMem h
  have hsingle : single? ((name, string case) :: membersOf fields) name =
      some (some (string case)) := by
    rw [single?, List.filter_cons_of_pos (by simp), hno]
  have hothers : ((name, string case) :: membersOf fields).filter (·.1 != name) =
      membersOf fields := by
    rw [List.filter_cons_of_neg (by simp), List.filter_eq_self]
    intro m hm
    have hne := List.filter_eq_nil_iff.1 hno m hm
    simpa using hne
  rw [tagged?, hsingle, hothers]
  rfl

/-! ## Values of fields -/

theorem guard_eq (p : Prop) [Decidable p] :
    (guard p : Option Unit) = if p then some () else none := rfl

theorem optional?_some {α : Type} (default : α) (f : Json → Option α) (v : Json) :
    optional? default f (some v) = f v := rfl

theorem optional?_map {α : Type} {f : Json → Option α} {g : α → Json}
    (h : ∀ a, f (g a) = some a) (hnull : ∀ a, g a ≠ null) (o : Option α) :
    optional? none (option? f) (o.map g) = some o := by
  cases o with
  | none => rfl
  | some a =>
    rw [Option.map_some, optional?, option?, h]
    · rfl
    · exact hnull a

theorem optional?_string (o : Option String) :
    optional? none (option? string?) (o.map string) = some o :=
  optional?_map (g := string) (fun _ => rfl) (by rintro _ ⟨⟩) o

theorem optional?_ite {α : Type} {default a : α} {f : Json → Option α} {v : Json} {p : Prop}
    [Decidable p] (hdefault : p → a = default) (hvalue : f v = some a) :
    optional? default f (if p then none else some v) = some a := by
  by_cases hp : p
  · rw [if_pos hp, hdefault hp]
    rfl
  · rw [if_neg hp]
    exact hvalue

theorem stringMap?_ofStringMap {room : Nat} (h : 0 < room) (m : OrderedMap String) :
    stringMap? room (ofStringMap m) = some m := by
  have hentries : (m.entries.map fun e => (e.1, string e.2)).mapM
      (fun e => e.2.string?.map (e.1, ·)) = some m.entries := by
    induction m.entries with
    | nil => rfl
    | cons e es ih =>
      rw [List.map_cons, List.mapM_cons, ih]
      rfl
  rw [stringMap?, ofStringMap, ofMap, map?, if_pos h, hentries, Option.map_some,
    OrderedMap.ofList_entries]

theorem uint32?_ofNat (n : UInt32) : (ofNat n.toNat).uint32? = some n := by
  have hlt : (n.toNat : Int) < ((1 <<< 32 : Nat) : Int) := by exact_mod_cast n.toNat_lt
  rw [uint32?, ofNat, natBelow?, if_pos ⟨Int.natCast_nonneg _, hlt⟩]
  simp

theorem uint64?_ofNat (n : UInt64) : (ofNat n.toNat).uint64? = some n := by
  have hlt : (n.toNat : Int) < ((1 <<< 64 : Nat) : Int) := by exact_mod_cast n.toNat_lt
  rw [uint64?, ofNat, natBelow?, if_pos ⟨Int.natCast_nonneg _, hlt⟩]
  simp

/-! ## Depth -/

theorem depth_le_membersDepth {ms : List (String × Json)} {m : String × Json} (h : m ∈ ms) :
    m.2.depth ≤ membersDepth ms := by
  induction ms with
  | nil => cases h
  | cons n ms ih =>
    rw [membersDepth]
    rcases List.mem_cons.1 h with rfl | h
    · exact Nat.le_max_left _ _
    · exact Nat.le_trans (ih h) (Nat.le_max_right _ _)

theorem membersDepth_le {ms : List (String × Json)} {k : Nat} (h : ∀ m ∈ ms, m.2.depth ≤ k) :
    membersDepth ms ≤ k := by
  induction ms with
  | nil => exact Nat.zero_le k
  | cons m ms ih =>
    obtain ⟨hm, hms⟩ := List.forall_mem_cons.1 h
    exact Nat.max_le.2 ⟨hm, ih hms⟩

theorem depth_ofStringMap (m : OrderedMap String) : (ofStringMap m).depth = 1 := by
  have hzero : membersDepth (m.entries.map fun e => (e.1, string e.2)) ≤ 0 := by
    refine membersDepth_le fun e he => ?_
    obtain ⟨e, -, rfl⟩ := List.mem_map.1 he
    exact Nat.le_refl 0
  rw [ofStringMap, ofMap, depth, Nat.le_zero.1 hzero]

end PageEditor.Json
