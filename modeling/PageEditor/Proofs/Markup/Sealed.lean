import PageEditor.Proofs.Markup.Reprinted

/-!
# Sealed texts

A text that markup could not hold as it is stands there as a JSON string in braces. That seals it: no
quote, backslash or brace in the text ends the expression early or carries it on into what stands
behind it, and what the expression means is the text. A text that is not sealed has none of the
signs that its place gives a meaning to.
-/
set_option autoImplicit false

namespace PageEditor

/-! ## Groups where they stand -/

namespace Cursor

variable {cs : List Char}

theorem braced_mk_append (h : IsGroup cs) (offset : Nat) (rest : List Char) :
    (⟨offset, cs ++ rest⟩ : Cursor).braced = .ok ⟨offset + Text.byteLength cs, rest⟩ := by
  rw [braced_of_isGroup h rfl, advance_append]

theorem attributeValue_mk_append (h : IsGroup cs) (offset : Nat) (rest : List Char) :
    (⟨offset, cs ++ rest⟩ : Cursor).attributeValue =
      .ok (.expression (String.ofList cs), ⟨offset + Text.byteLength cs, rest⟩) := by
  have hskip : (⟨offset, cs ++ rest⟩ : Cursor).skipSpace = ⟨offset, cs ++ rest⟩ :=
    skipSpace_of_group h rfl
  rw [attributeValue_group h (congrArg Cursor.rest hskip), hskip, advance_append]

end Cursor

/-! ## Sealed texts -/

namespace Value

/-- An expression that means the text `s`. Whatever stands behind it, the reader of braces stops
right behind its last brace, and so does the reader of attributes, which keeps all of it. -/
structure IsSealed (s : String) (cs : List Char) : Prop where
  braced (offset : Nat) (rest : List Char) :
    (⟨offset, cs ++ rest⟩ : Cursor).braced = .ok ⟨offset + Text.byteLength cs, rest⟩
  attributeValue (offset : Nat) (rest : List Char) :
    (⟨offset, cs ++ rest⟩ : Cursor).attributeValue =
      .ok (.expression (String.ofList cs), ⟨offset + Text.byteLength cs, rest⟩)
  isExpression : isExpression (String.ofList cs) = true
  literal : literal (String.ofList cs) = s

theorem isSealed_quoted (s : String) : IsSealed s (quoted s).toList where
  braced := Cursor.braced_mk_append (isGroup_quoted s)
  attributeValue := Cursor.attributeValue_mk_append (isGroup_quoted s)
  isExpression := by
    rw [String.ofList_toList]
    exact isExpression_quoted s
  literal := by
    rw [String.ofList_toList]
    exact literal_quoted s

/-! ## What is written for a text -/

/-- The signs that end a run of text in markup. -/
def markupSigns : List Char := ['<', '>', '\x7b', '\x7d']

theorem isSealed_escapeText (s : String) :
    IsSealed s (escapeText s) ∨ escapeText s = s.toList ∧ ∀ c ∈ s.toList, c ∉ markupSigns := by
  unfold escapeText
  split
  · exact .inl (isSealed_quoted s)
  · rename_i hplain
    refine .inr ⟨rfl, fun c hc hsign => hplain (List.any_eq_true.2 ⟨c, hc, ?_⟩)⟩
    simpa [markupSigns, or_assoc] using hsign

theorem isSealed_quoteAttribute (s : String) :
    IsSealed s (quoteAttribute s) ∨
      quoteAttribute s = '"' :: s.toList ++ ['"'] ∧ '"' ∉ s.toList := by
  unfold quoteAttribute
  split
  · exact .inl (isSealed_quoted s)
  · rename_i hplain
    exact .inr ⟨rfl, fun hquote => hplain (List.contains_iff_mem.2 hquote)⟩

theorem attributeText_quoted (s : String) :
    attributeText (quoted s) = '=' :: (quoted s).toList := by
  have hflag : quoted s ≠ flag := by
    intro h
    have hsecond := congrArg (fun value => value.toList[1]?) h
    simp [quoted, braced, Json.quote, flag] at hsecond
  rw [attributeText, if_neg hflag, isExpression_quoted, if_pos rfl]

theorem isSealed_ofLiteral (s : String) :
    IsSealed s (ofLiteral s).toList ∧
        attributeText (ofLiteral s) = '=' :: (ofLiteral s).toList ∨
      ofLiteral s = s ∧ isExpression s = false := by
  unfold ofLiteral
  split
  · exact .inl ⟨isSealed_quoted s, attributeText_quoted s⟩
  · rename_i hplain
    exact .inr ⟨rfl, Bool.eq_false_iff.2 hplain⟩

/-- A text in an expression cannot break out of it. What the writers of texts, of attributes and of
literals put in braces is sealed, and they put in braces whatever has a sign in it that could end
the text where it stands. -/
theorem quoted_seals (s : String) :
    IsSealed s (quoted s).toList ∧
      (IsSealed s (escapeText s) ∨ escapeText s = s.toList ∧ ∀ c ∈ s.toList, c ∉ markupSigns) ∧
      (IsSealed s (quoteAttribute s) ∨
        quoteAttribute s = '"' :: s.toList ++ ['"'] ∧ '"' ∉ s.toList) ∧
      (IsSealed s (ofLiteral s).toList ∧
          attributeText (ofLiteral s) = '=' :: (ofLiteral s).toList ∨
        ofLiteral s = s ∧ isExpression s = false) :=
  ⟨isSealed_quoted s, isSealed_escapeText s, isSealed_quoteAttribute s, isSealed_ofLiteral s⟩

example : (Cursor.ofText (escapeText "\x7d\\\\\"\x7b'`<b>" ++ "</p>".toList)).braced =
    .ok ⟨17, "</p>".toList⟩ := by
  decide

end Value

end PageEditor
