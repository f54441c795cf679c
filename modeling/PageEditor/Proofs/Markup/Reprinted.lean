import PageEditor.Proofs.Json.Compact
import PageEditor.Proofs.Json.Strings
import PageEditor.Proofs.Markup.Canonical

/-!
# Printed attributes

What an open tag that was printed from an element's fields gives the element back. A string under any
name but a few comes back as what it means, whatever characters it has. A class comes back if there is
no double quote in it: one that has a quote is printed as an expression, and an expression is no class.
-/
set_option autoImplicit false

namespace PageEditor

/-! ## What values mean -/

namespace Value

theorem isExpression_quoted (s : String) : isExpression (quoted s) = true :=
  isExpression_of_isGroup (isGroup_quoted s)

theorem literal_of_string {value : String} (h : isExpression value = false) :
    literal value = value := by
  rw [literal, h, if_neg Bool.false_ne_true]

theorem literal_quoted (s : String) : literal (quoted s) = s := by
  rw [literal, isExpression_quoted, if_pos rfl, quoted, inside_braced, trim_quote, Json.read?_quote,
    String.ofList_toList]

theorem literal_ofLiteral (s : String) : literal (ofLiteral s) = s := by
  unfold ofLiteral
  split
  · exact literal_quoted s
  · rename_i hno
    exact literal_of_string (by simpa using hno)

/-- The values that an expression can mean: strings, numbers and truth values. -/
def isMeant : Json → Bool
  | .string _ | .number _ | .bool _ => true
  | _ => false

/-- Braces that hold a JSON string, a number or a truth value, which the expression means. -/
def IsBracedScalar (value : String) : Prop :=
  isExpression value = true ∧ (Json.read? (Text.trim (inside value))).any isMeant = true

instance (value : String) : Decidable (IsBracedScalar value) :=
  inferInstanceAs (Decidable (_ ∧ _))

theorem length_trim_inside {value : String} (h : isExpression value = true) :
    (Text.trim (inside value)).length + 2 ≤ value.toList.length := by
  have htrim : (Text.trim (inside value)).length ≤ (inside value).length := by
    rw [Text.trim, Text.trimEnd, List.length_reverse]
    refine (List.dropWhile_sublist _).length_le.trans ?_
    rw [List.length_reverse]
    exact (List.dropWhile_sublist _).length_le
  have htwo : 2 ≤ value.toList.length := by
    unfold isExpression at h
    split at h
    · rename_i hvalue
      simp [hvalue]
    · cases h
  rw [inside, List.length_dropLast, List.length_tail] at htrim
  rw [inside]
  omega

/-- What an expression means has no brace in front, or it is shorter than the expression. -/
theorem literal_ne_self {value : String} (h : IsBracedScalar value) : literal value ≠ value := by
  obtain ⟨hexpression, hread⟩ := h
  obtain ⟨r, hopen⟩ : ∃ r, value.toList = '\x7b' :: r := by
    unfold isExpression at hexpression
    split at hexpression
    · rename_i hvalue
      exact ⟨_, hvalue⟩
    · cases hexpression
  have hbrace : '\x7b' ∈ value.toList := hopen ▸ List.mem_cons_self
  intro hself
  rw [literal, if_pos hexpression] at hself
  cases hjson : Json.read? (Text.trim (inside value)) with
  | none =>
    rw [hjson] at hread
    cases hread
  | some v =>
    rw [hjson] at hread hself
    cases v with
    | string s =>
      obtain rfl : s = value := hself
      have hshort := Json.length_of_read?_string hjson
      have hinside := length_trim_inside hexpression
      omega
    | number n =>
      rw [← hself, String.toList_ofList] at hbrace
      exact absurd (isNumberChar_numberText n _ hbrace) (by decide)
    | bool b =>
      have htext : (Json.bool b).text = value := hself
      rw [← htext] at hbrace
      cases b <;> exact absurd hbrace (by decide)
    | null => cases hread
    | array items => cases hread
    | object members => cases hread
    | unreadable => cases hread

theorem literal_eq_self_iff {value : String} : literal value = value ↔ ¬ IsBracedScalar value := by
  refine ⟨fun hself h => literal_ne_self h hself, fun hno => ?_⟩
  cases hexpression : isExpression value with
  | false => exact literal_of_string hexpression
  | true =>
    rw [literal, if_pos hexpression]
    cases hjson : Json.read? (Text.trim (inside value)) with
    | none => rfl
    | some v =>
      have hother : isMeant v = false := by
        refine Bool.eq_false_iff.2 fun hmeant => hno ⟨hexpression, ?_⟩
        rw [hjson]
        exact hmeant
      cases v <;> first
        | rfl
        | cases hother

end Value

namespace Fields

variable {f : Fields} {name value : String}

/-! ## Strings -/

/-- What the attribute of that name means. -/
def literal? (f : Fields) (name : String) : Option String :=
  (f.attributes.get? name).map Value.literal

/-- The names of the attributes that are kept as a class or a style. -/
def fieldNames : List String := ["class", "className", "style"]

theorem literal?_setAttribute (g : Fields) (name value : String) :
    (g.setAttribute name value).literal? name = some (Value.literal value) := by
  rw [literal?, setAttribute, OrderedMap.get?_insert, if_pos rfl, Option.map_some]

theorem get?_take {a : Attribute} (h : a.name ≠ name) (g : Fields) :
    (g.take a).attributes.get? name = g.attributes.get? name := by
  fun_cases take g a
  all_goals first
    | rfl
    | rw [setAttribute, OrderedMap.get?_insert, if_neg h.symm]

theorem get?_foldl_take {as : List Attribute} (has : ∀ a ∈ as, a.name ≠ name) :
    ∀ g : Fields, (as.foldl take g).attributes.get? name = g.attributes.get? name := by
  induction as with
  | nil => exact fun _ => rfl
  | cons a as ih =>
    intro g
    rw [List.foldl_cons, ih (fun b hb => has b (List.mem_cons_of_mem a hb)),
      get?_take (has a List.mem_cons_self)]

theorem take_expression (hname : name ∉ fieldNames) (raw : String) (g : Fields) :
    g.take ⟨name, .expression raw⟩ = g.setAttribute name raw := by
  simp only [fieldNames, List.mem_cons, List.not_mem_nil, or_false, not_or] at hname
  simp only [take, if_neg hname.2.2]

/-- A string between quotes is kept as an attribute, if it is not read as settings. -/
theorem take_literal (hname : name ∉ fieldNames)
    (hsettings : name = animationAttribute → Animation.ofText? value = none) (g : Fields) :
    g.take ⟨name, .literal value⟩ =
      g.setAttribute name (if name = animationAttribute then value else Value.ofLiteral value) := by
  simp only [fieldNames, List.mem_cons, List.not_mem_nil, or_false, not_or] at hname
  simp only [take, if_neg (not_or.2 ⟨hname.2.1, hname.1⟩)]
  split
  · rename_i hanimation
    rw [hsettings hanimation]
  · rfl

theorem written_of_string (h : Value.isExpression value = false) :
    Value.written value = Value.writtenString value := by
  have hflag : value ≠ Value.flag := by
    rintro rfl
    exact absurd h (by decide)
  rw [Value.written, if_neg hflag, h, if_neg Bool.false_ne_true]

/-- What an attribute is printed as means what the attribute means. -/
theorem literal?_take_written (hname : name ∉ fieldNames)
    (hsettings : name = animationAttribute → Value.isExpression value = false →
      Animation.ofText? value = none) (g : Fields) :
    (g.take ⟨name, Value.written value⟩).literal? name = some (Value.literal value) := by
  cases hstring : Value.isExpression value with
  | true =>
    rw [Value.written, hstring, if_pos rfl]
    split
    · rename_i hflag
      rw [hflag]
      exact literal?_setAttribute g name Value.flag
    · rw [take_expression hname, literal?_setAttribute]
  | false =>
    rw [written_of_string hstring, Value.writtenString, Value.literal_of_string hstring]
    split
    · rw [take_expression hname, literal?_setAttribute, Value.literal_quoted]
    · rw [take_literal hname fun hanimation => hsettings hanimation hstring, literal?_setAttribute]
      split
      · rw [Value.literal_of_string hstring]
      · rw [Value.literal_ofLiteral]

theorem isSuperseded_of_fieldNames (hname : name ∉ fieldNames) : f.isSuperseded name = false := by
  simp only [fieldNames, List.mem_cons, List.not_mem_nil, or_false, not_or] at hname
  rw [isSuperseded, if_neg (not_or.2 ⟨hname.2.1, hname.1⟩), if_neg hname.2.2]

/-- An attribute is written once under its name. Behind it no other attribute is written under that
name, but settings may be. -/
theorem exists_written (hname : name ∉ fieldNames)
    (hvalue : (name, value) ∈ f.attributes.entries) :
    ∃ front back, f.written = front ++ ⟨name, Value.written value⟩ :: (back ++ f.writtenAnimation) ∧
      ∀ a ∈ back, a.name ≠ name := by
  obtain ⟨es, more, hsplit⟩ := List.append_of_mem hvalue
  have hmore : ∀ e ∈ more, e.1 ≠ name := by
    have hnodup := f.attributes.nodup
    rw [hsplit, List.map_append, List.nodup_append] at hnodup
    have hkey := (List.nodup_cons.1 hnodup.2.1).1
    rintro e he rfl
    exact hkey (List.mem_map.2 ⟨e, he, rfl⟩)
  have hkeep : (!f.isSuperseded name) = true := by rw [isSuperseded_of_fieldNames hname]; rfl
  have hfilter : ((name, value) :: more).filter (fun e => !f.isSuperseded e.1) =
      (name, value) :: more.filter fun e => !f.isSuperseded e.1 := List.filter_cons_of_pos hkeep
  obtain ⟨front, back, hattributes, hback⟩ : ∃ front back,
      f.writtenAttributes = front ++ ⟨name, Value.written value⟩ :: back ∧
        ∀ a ∈ back, a.name ≠ name := by
    rw [writtenAttributes, hsplit, List.filter_append, hfilter, List.map_append, List.map_cons]
    refine ⟨_, _, rfl, fun a ha => ?_⟩
    obtain ⟨e, he, rfl⟩ := List.mem_map.1 ha
    exact hmore e (List.mem_filter.1 he).1
  refine ⟨f.writtenClass ++ (f.writtenStyle ++ front), back, ?_, hback⟩
  rw [written, hattributes]
  simp only [List.append_assoc, List.cons_append]

/-! ## Settings -/

/-- The settings are settings again when they are read from what is printed of them. -/
def KeepsSettings (f : Fields) : Prop :=
  ∀ a ∈ f.animation,
    (Animation.ofText? (String.ofList (numberApostrophes a.toJson.compact))).isSome = true

instance (f : Fields) : Decidable f.KeepsSettings :=
  inferInstanceAs (Decidable (∀ a ∈ f.animation, _))

theorem get?_foldl_writtenAnimation (h : name = animationAttribute → f.KeepsSettings) (g : Fields) :
    (f.writtenAnimation.foldl take g).attributes.get? name = g.attributes.get? name := by
  unfold writtenAnimation
  cases hsettings : f.animation with
  | none => rfl
  | some a =>
    rw [Option.toList_some, List.map_singleton, List.foldl_cons, List.foldl_nil]
    by_cases hname : animationAttribute = name
    · obtain ⟨b, hb⟩ := Option.isSome_iff_exists.1 (h hname.symm a hsettings)
      simp only [take, hb]
      rfl
    · exact get?_take hname g

/-- Under a name of its own, an attribute means the same when it is read from the printed tag. -/
theorem literal?_ofTag_written (hname : name ∉ fieldNames)
    (hvalue : f.attributes.get? name = some value)
    (hsettings : name = animationAttribute → f.KeepsSettings ∧
      (Value.isExpression value = false → Animation.ofText? value = none)) :
    (ofTag f.type f.written).literal? name = some (Value.literal value) := by
  obtain ⟨front, back, hwritten, hback⟩ :=
    exists_written hname (f.attributes.get?_eq_some_iff.1 hvalue)
  rw [literal?, ofTag, hwritten, List.foldl_append, List.foldl_cons, List.foldl_append,
    get?_foldl_writtenAnimation fun h => (hsettings h).1, get?_foldl_take hback]
  exact literal?_take_written hname (fun h => (hsettings h).2) _

/-! ## Classes -/

end Fields

/-- The names of attributes that hold a class. -/
def isClassName (name : String) : Bool := name == "className" || name == "class"

/-- The class that an attribute gives an element, if it is one. -/
def Attribute.class? (a : Attribute) : Option String :=
  match a.value with
  | .literal body => if isClassName a.name then some body else none
  | _ => none

namespace Fields

variable {f : Fields}

theorem className_take (g : Fields) (a : Attribute) :
    (g.take a).className = a.class?.getD g.className := by
  have hname : ∀ name, isClassName name = true ↔ name = "className" ∨ name = "class" := by
    simp [isClassName]
  fun_cases take g a
  all_goals simp_all [Attribute.class?, setAttribute]

theorem isExpression_ofTag_className {type name value : String} {as : List Attribute}
    (has : ∀ a ∈ as, a.IsRead) (hname : isClassName name = true)
    (hvalue : (ofTag type as).attributes.get? name = some value) :
    Value.isExpression value = true := by
  suffices hfold : ∀ g : Fields,
      (∀ v, g.attributes.get? name = some v → Value.isExpression v = true) →
      ∀ v, (as.foldl take g).attributes.get? name = some v → Value.isExpression v = true from
    hfold { type } (by rintro _ ⟨⟩) value hvalue
  clear hvalue
  induction as with
  | nil => exact fun _ hg => hg
  | cons a as ih =>
    obtain ⟨ha, has⟩ := List.forall_mem_cons.1 has
    intro g hg
    refine ih has (g.take a) fun v hv => ?_
    by_cases hother : a.name = name
    · subst hother
      have hclass : a.name = "className" ∨ a.name = "class" := by simpa [isClassName] using hname
      have hstyle : a.name ≠ "style" := by rcases hclass with h | h <;> simp [h]
      cases hvalue : a.value with
      | literal body =>
        simp only [take, hvalue, if_pos hclass] at hv
        exact hg v hv
      | expression raw =>
        simp only [take, hvalue, if_neg hstyle, setAttribute, OrderedMap.get?_insert, if_true] at hv
        cases hv
        exact Value.isExpression_of_isGroup (ha.group _ hvalue)
      | flag =>
        simp only [take, hvalue, setAttribute, OrderedMap.get?_insert, if_true] at hv
        cases hv
        decide
    · rw [get?_take hother] at hv
      exact hg v hv

theorem className_foldl_take (as : List Attribute) : ∀ g : Fields,
    (as.foldl take g).className = (as.filterMap Attribute.class?).getLast?.getD g.className := by
  induction as with
  | nil => exact fun _ => rfl
  | cons a as ih =>
    intro g
    rw [List.foldl_cons, ih, className_take]
    cases hclass : a.class? with
    | none => rw [List.filterMap_cons_none hclass, Option.getD_none]
    | some c =>
      rw [List.filterMap_cons_some hclass, List.getLast?_cons, Option.getD_some, Option.getD_some]

/-- The classes among the attributes that are printed between quotes. -/
def spelledClasses (f : Fields) : List String :=
  f.attributes.entries.filterMap fun e =>
    if isClassName e.1 && !Value.isExpression e.2 && !e.2.toList.contains '"' then some e.2
    else none

/-- The class that the printed tag gives. An element's own class comes back if there is no quote in
it; an element without one gets the last class that is printed as an attribute. -/
def printedClass (f : Fields) : String :=
  if f.className = "" then f.spelledClasses.getLast?.getD ""
  else if f.className.toList.contains '"' then "" else f.className

theorem class?_written (e : String × String) : Attribute.class? ⟨e.1, Value.written e.2⟩ =
    if isClassName e.1 && !Value.isExpression e.2 && !e.2.toList.contains '"' then some e.2
    else none := by
  cases hstring : Value.isExpression e.2 with
  | false =>
    rw [written_of_string hstring, Value.writtenString]
    split <;> simp_all [Attribute.class?]
  | true =>
    have hno : Attribute.class? ⟨e.1, Value.written e.2⟩ = none := by
      rw [Value.written, hstring, if_pos rfl]
      split <;> rfl
    rw [hno, Bool.not_true, Bool.and_false, Bool.false_and, if_neg Bool.false_ne_true]

theorem isSuperseded_className {name : String} (h : isClassName name = true) :
    f.isSuperseded name = decide (f.className ≠ "") := by
  have hname : name = "className" ∨ name = "class" := by simpa [isClassName] using h
  rw [isSuperseded, if_pos hname]

theorem filterMap_writtenAttributes (f : Fields) :
    f.writtenAttributes.filterMap Attribute.class? =
      if f.className = "" then f.spelledClasses else [] := by
  have hall : f.writtenAttributes.filterMap Attribute.class? =
      f.attributes.entries.filterMap fun e => if f.className = "" then
        if isClassName e.1 && !Value.isExpression e.2 && !e.2.toList.contains '"' then some e.2
        else none else none := by
    rw [writtenAttributes, List.filterMap_map, List.filterMap_filter]
    refine congrArg (List.filterMap · _) (funext fun e => ?_)
    rw [Function.comp, class?_written]
    cases hname : isClassName e.1 with
    | false => simp
    | true => simp [isSuperseded_className hname]
  rw [hall, spelledClasses]
  split
  · rfl
  · exact List.filterMap_eq_nil_iff.2 fun _ _ => rfl

theorem className_ofTag_written (f : Fields) :
    (ofTag f.type f.written).className = f.printedClass := by
  have hstyle : f.writtenStyle.filterMap Attribute.class? = [] := by
    unfold writtenStyle
    split <;> rfl
  have hanimation : f.writtenAnimation.filterMap Attribute.class? = [] := by
    unfold writtenAnimation
    cases f.animation <;> rfl
  rw [ofTag, className_foldl_take, written, List.filterMap_append, List.filterMap_append,
    List.filterMap_append, hstyle, hanimation, filterMap_writtenAttributes, List.nil_append,
    List.append_nil, printedClass, writtenClass]
  by_cases hown : f.className = ""
  · simp [hown]
  · simp only [if_neg hown, List.append_nil]
    rw [Value.writtenString]
    split <;> rfl

end Fields

end PageEditor
