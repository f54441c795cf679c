import PageEditor.Proofs.Edit.Reloading

/-!
# Saved attributes and classes

What becomes of an attribute or a class that was committed when the page is saved and loaded again. An
attribute is there and means the same string. A class is there if it has no double quote and, when it
was committed as an attribute, no other class stands in its way.
-/
set_option autoImplicit false

namespace PageEditor

/-! ## What an edit leaves behind -/

/-- The edits of classes and attributes that write a string: any text as the class, and a text that is
not in braces under any name but those of the style and the animation. -/
inductive EditField.Spells (value : String) : EditField → Prop
  | className : Spells value .className
  | attr {name : String} (hstyle : name ≠ "style") (hanimation : name ≠ animationAttribute)
      (hstring : Value.isExpression value = false) : Spells value (.attr name)

instance (value : String) : (field : EditField) → Decidable (field.Spells value)
  | .text => .isFalse (by rintro ⟨⟩)
  | .className => .isTrue .className
  | .style _ => .isFalse (by rintro ⟨⟩)
  | .attr name =>
    decidable_of_iff
      (name ≠ "style" ∧ name ≠ animationAttribute ∧ Value.isExpression value = false)
      ⟨fun h => .attr h.1 h.2.1 h.2.2, by rintro ⟨⟩; exact ⟨‹_›, ‹_›, ‹_›⟩⟩

namespace Fields

/-- Whether the value of an edit is found where it is looked for: a class as the class of the
element, and any other value as what the attribute means. -/
def Carries (f : Fields) (value : String) : EditField → Prop
  | .text => f.text = some value
  | .className => f.className = value
  | .style name => f.style.get? name = some value
  | .attr name =>
    if isClassName name then f.className = value
    else (f.attributes.get? name).map Value.literal = some value

instance (f : Fields) (value : String) : (field : EditField) → Decidable (f.Carries value field)
  | .text => inferInstanceAs (Decidable (_ = _))
  | .className => inferInstanceAs (Decidable (_ = _))
  | .style _ => inferInstanceAs (Decidable (_ = _))
  | .attr _ => inferInstanceAs (Decidable (ite ..))

/-- Whether a committed class is the one that the printed tag gives. Every other string comes back. -/
def KeepsEdit (f : Fields) (value : String) : EditField → Prop
  | .className => '"' ∉ value.toList
  | .attr name => isClassName name → (f.set value (.attr name)).printedClass = value
  | _ => True

variable {f g : Fields} {value : String} {field : EditField}

theorem get?_set_attr (hvalue : value ≠ "") (name : String) :
    (f.set value (.attr name)).attributes.get? name = some value := by
  rw [set, if_neg hvalue, OrderedMap.get?_insert, if_pos rfl]

theorem printedClass_set_className (hvalue : value ≠ "") :
    (f.set value .className).printedClass =
      if value.toList.contains '"' then "" else value := by
  rw [set, if_neg hvalue, printedClass, if_neg hvalue]

/-- What a newly printed tag gives carries the value just if the edit is kept. -/
theorem carries_written (hvalue : value ≠ "") (hfield : field.Spells value) :
    (ofTag (f.set value field).type (f.set value field).written).Carries value field ↔
      f.KeepsEdit value field := by
  cases hfield with
  | className =>
    rw [Carries, className_ofTag_written, printedClass_set_className hvalue, KeepsEdit]
    by_cases hquote : '"' ∈ value.toList
    · simp [hquote, hvalue.symm]
    · simp [hquote]
  | @attr name hstyle hanimation hstring =>
    rw [Carries, KeepsEdit]
    cases hclass : isClassName name with
    | true => simp [className_ofTag_written]
    | false =>
      have hname : name ∉ fieldNames := by
        simp only [isClassName, Bool.or_eq_false_iff, beq_eq_false_iff_ne] at hclass
        simp [fieldNames, hstyle, hclass]
      have hback := literal?_ofTag_written (f := f.set value (.attr name)) hname
        (get?_set_attr hvalue name) fun h => absurd h hanimation
      rw [literal?, Value.literal_of_string hstring] at hback
      simpa using hback

/-- A tag that is taken over carries the value if the value is the one that was read. -/
theorem carries_kept {type : String} {as : List Attribute} (has : ∀ a ∈ as, a.IsRead)
    (hsame : (ofTag type as).sameProps (f.set value field) = true) (hvalue : value ≠ "")
    (hfield : field.Spells value) : (ofTag type as).Carries value field := by
  simp only [sameProps, Bool.and_eq_true, beq_iff_eq] at hsame
  obtain ⟨⟨⟨hclassName, _⟩, hattributes⟩, _⟩ := hsame
  cases hfield with
  | className =>
    rw [Carries, hclassName, set, if_neg hvalue]
  | @attr name hstyle hanimation hstring =>
    have hback := (OrderedMap.get?_of_same hattributes name).trans (get?_set_attr hvalue name)
    rw [Carries]
    cases hclass : isClassName name with
    | true =>
      rw [isExpression_ofTag_className has hclass hback] at hstring
      cases hstring
    | false =>
      rw [if_neg Bool.false_ne_true, hback, Option.map_some, Value.literal_of_string hstring]

theorem carries_congr (hg : { g with text := none } = f) (hfield : field.Spells value) :
    g.Carries value field ↔ f.Carries value field := by
  subst hg
  cases hfield <;> rfl

end Fields

namespace Node

variable {imports : List Import} {n m : Node} {f : Fields} {value : String} {field : EditField}

/-- The element that is read where an edited element was written carries the value if the edit is
kept, and if the tag has been printed anew then only if it is. -/
theorem ReadsAs.carries (h : n.ReadsAs imports m) (hn : n.fields = f.set value field)
    (hvalue : value ≠ "") (hfield : field.Spells value) :
    (f.KeepsEdit value field → m.fields.Carries value field) ∧
      (n.propsChanged = true → m.fields.Carries value field → f.KeepsEdit value field) := by
  obtain ⟨as, htag, hfields⟩ := h.fields
  rw [Fields.carries_congr hfields hfield]
  cases htag with
  | written has =>
    have hiff := Fields.carries_written (f := f) hvalue hfield
    rw [← hn, ← has] at hiff
    exact ⟨hiff.2, fun _ => hiff.1⟩
  | @kept o ho hsame hread horigin =>
    have hprops := hsame
    rw [propsChanged, ho, Bool.not_eq_false', hn] at hprops
    refine ⟨fun _ => Fields.carries_kept (f := f) hread ?_ hvalue hfield, fun hchanged => ?_⟩
    · rw [horigin]
      exact hprops
    · rw [hsame] at hchanged
      cases hchanged

end Node

namespace Session

variable {s : Session}

/-- In every page of a session that one can get to, an attribute or a class of an element is
committed, and the page is saved and loaded again. If what has been edited can be read at all, the
element is there at its place, and it carries the value if the edit is kept; if the edit has changed
anything, it carries the value only then. -/
theorem carries_reloaded (hs : s.Reachable) {t : Tree} (hmode : s.mode = .page t) {k : Nat}
    {ks : List Nat} {n : Node} (hn : t.root.elementAt? (k :: ks) = some n) {value : String}
    {field : EditField} (hvalue : value ≠ "") (hfield : field.Spells value) :
    ∃ t' n', (s.commit [⟨⟨n.id, field⟩, value⟩]).2.mode = .page t' ∧
      t'.root.elementAt? (k :: ks) = some n' ∧ n'.fields = n.fields.set value field ∧
      (t'.Legible s.source → ∀ defaults undoLevels, ∃ u m,
        (load (s.commit [⟨⟨n.id, field⟩, value⟩]).2.save defaults undoLevels).mode = .page u ∧
        u.root.elementAt? (k :: ks) = some m ∧ m.type = n.type ∧
        (n.fields.KeepsEdit value field → m.fields.Carries value field) ∧
        (n'.propsChanged = true → m.fields.Carries value field →
          n.fields.KeepsEdit value field)) := by
  obtain ⟨t', _, hmode', hn', rfl, hreread⟩ := hs.commit_reread hmode hn field value
  refine ⟨t', _, hmode', hn', rfl, fun hlegible defaults undoLevels => ?_⟩
  obtain ⟨q, m, hq, hm, hreads⟩ := hreread hlegible
  refine ⟨q.tree, m, mode_load hq defaults undoLevels, hm, ?_, hreads.carries rfl hvalue hfield⟩
  exact hreads.type.trans (Fields.set_type n.fields value field)

/-- A title with quotes for the first item of the list. -/
def titleEdit : PropertyEdit := ⟨⟨pageId 2, .attr "title"⟩, "say \"hi\""⟩

theorem carries_reloaded_title : ∃ u m,
    (load ((load listPage).commit [titleEdit]).2.save).mode = .page u ∧
      u.root.elementAt? [0, 0] = some m ∧ m.fields.Carries "say \"hi\"" (.attr "title") := by
  have hok : (Page.read listPage).isOk = true := by decide +kernel
  obtain ⟨p, hp⟩ := isOk_iff.1 hok
  have hload := mode_load hp .standard 100
  have hplace : ((load listPage).tree?.bind (·.root.elementAt? [0, 0])).any
      (·.id == pageId 2) = true := by decide +kernel
  rw [tree?, hload, Option.any_eq_true] at hplace
  obtain ⟨n, hn, hid⟩ := hplace
  have hvalue : "say \"hi\"" ≠ "" := by decide
  have hspells : EditField.Spells "say \"hi\"" (.attr "title") := by decide
  obtain ⟨t, _, hmode, _, _, hreloaded⟩ :=
    carries_reloaded (.load listPage .standard 100) hload hn hvalue hspells
  rw [beq_iff_eq.1 hid] at hmode hreloaded
  have hlegible : ((load listPage).commit [titleEdit]).2.tree?.all
      (fun t => decide (t.Legible listPage)) = true := by decide +kernel
  rw [tree?, titleEdit, hmode] at hlegible
  obtain ⟨u, m, hu, hm, _, hkept, _⟩ := hreloaded (of_decide_eq_true hlegible) .standard 100
  have hkeeps : n.fields.KeepsEdit "say \"hi\"" (.attr "title") := by
    rintro ⟨⟩
  exact ⟨u, m, hu, hm, hkept hkeeps⟩

/-- Edits that are lost: a class with a quote in it is printed as an expression, a class among the
attributes gives way to the class of the element, and a backslash hides the quote behind it. -/
def lostEdits : List (String × EditField × String) :=
  [("<p/>", .className, "say \"hi\""), ("<p className=\"a\"/>", .attr "class", "b"),
    ("<p/>", .attr "title", "\\")]

theorem not_carries_reloaded_lost :
    lostEdits ≠ [] ∧ ∀ x ∈ lostEdits,
      ((load x.1).tree?.bind (·.root.elementAt? [0])).any (·.id == pageId 1) = true ∧
        x.2.2 ≠ "" ∧ x.2.1.Spells x.2.2 ∧
        ∀ m ∈ (load ((load x.1).commit [⟨⟨pageId 1, x.2.1⟩, x.2.2⟩]).2.save).tree?.bind
          (·.root.elementAt? [0]), ¬m.fields.Carries x.2.2 x.2.1 :=
  ⟨List.cons_ne_nil _ _, by decide +kernel⟩

end Session

end PageEditor
