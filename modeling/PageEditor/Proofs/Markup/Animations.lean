import PageEditor.Proofs.Markup.Restyled
import PageEditor.Proofs.Node.Json

/-!
# Animations in markup

The settings of an animation are printed into the open tag of an element as JSON between apostrophes.
Reading the tag gives the element the same settings, whatever text its easing is, as long as its
numbers are read back from their digits.
-/
set_option autoImplicit false

namespace PageEditor

/-! ## Settings between apostrophes -/

namespace Animation

theorem ofText?_numberApostrophes {a : Animation}
    (h : ∀ x ∈ a.numbers, (Number.double x).ReadsBack) :
    ofText? (String.ofList (numberApostrophes a.toJson.compact)) = some a := by
  rw [ofText?, String.toList_ofList, Json.read?_numberApostrophes (readsBack_toJson h)]
  exact ofJson?_toJson a (by decide) false

end Animation

/-! ## Open tags -/

/-- The fields of an element that has an animation and nothing else. -/
def Fields.animated (type : String) (a : Animation) : Fields := { type, animation := some a }

/-- An element with settings and nothing else is read back from its open tag: with the same settings,
and without an attribute that would hold their text. -/
theorem read_animated {type : String} {a : Animation} (htype : Token.IsName type.toList)
    (hnumbers : ∀ x ∈ a.numbers, (Number.double x).ReadsBack) (closed : Bool) (key : String) :
    ∃ q m, Page.read (String.ofList ((Fields.animated type a).tagAlone closed)) key = .ok q ∧
      q.tree.root.children = [m] ∧ m.fields = Fields.animated type a := by
  have hread : (Fields.animated type a).IsRead :=
    ⟨htype, (by decide : Value.IsQuotable ""), by rintro _ ⟨⟩, by rintro _ ⟨⟩, by rintro _ ⟨⟩⟩
  have hcloses : (Fields.animated type a).Closes := ⟨.inl rfl, by rintro _ ⟨⟩⟩
  obtain ⟨q, m, hq, hroot, hfields⟩ := Fields.read_tagAlone hread hcloses closed key
  refine ⟨q, m, hq, hroot, hfields.trans ?_⟩
  have hwritten : (Fields.animated type a).written =
      [⟨animationAttribute, .literal (String.ofList (numberApostrophes a.toJson.compact))⟩] := rfl
  have hsettings := Animation.ofText?_numberApostrophes hnumbers
  rw [Fields.reprinted, hwritten, Fields.ofTag, List.foldl_cons, List.foldl_nil, Fields.take]
  simp only [hsettings]
  rfl

/-- Fractions, a negative zero, a number that needs a power of ten, and an easing with a quote, runs of
backslashes in front of apostrophes, a brace, a line break and a tag. -/
def flourish : Animation where
  enabled := true
  kind := .slide
  trigger := .inView
  duration := 0.3
  delay := -0.0
  repeats := 3
  ease := "'\\' \\\\' \"\x7d\n</p>"
  direction := some .left
  distance := some 1.25
  intensity := some 1e300

theorem read_animated_flourish : ∃ q m,
    Page.read (String.ofList ((Fields.animated "section" flourish).tagAlone true)) Tree.defaultKey =
      .ok q ∧
    q.tree.root.children = [m] ∧ m.fields = Fields.animated "section" flourish :=
  read_animated (by decide) (by decide +kernel) true Tree.defaultKey

end PageEditor
