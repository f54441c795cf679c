import PageEditor.Markup.Patch

/-!
# Cuts of a text

A cursor leads to another one if the text between them is what the second one has read and the first
one has not. Every reader of markup leads forward, so all the positions that it passes lie on one
chain. Between two positions of a chain that starts at the beginning of a text, a slice of the text
is the text between them, and slices that meet join to the slice from end to end.
-/
set_option autoImplicit false

namespace PageEditor

/-! ## Slices -/

namespace Text

theorem slice_append (a b c : List Char) :
    slice (a ++ (b ++ c)) ⟨byteLength a, byteLength a + byteLength b⟩ = some b := by
  have hsize : byteLength a + byteLength b - byteLength a = byteLength b := by omega
  simp [slice, Span.size, hsize, splitBytes_byteLength]

theorem splitBytes_eq_some {n : Nat} {cs a b : List Char} :
    splitBytes n cs = some (a, b) ↔ cs = a ++ b ∧ byteLength a = n := by
  constructor
  · intro h
    induction cs generalizing n a with
    | nil =>
      rw [splitBytes] at h
      split at h
      · cases h
        exact ⟨rfl, by rw [byteLength, ‹n = 0›]⟩
      · cases h
    | cons c cs ih =>
      rw [splitBytes] at h
      split at h
      · cases h
        exact ⟨rfl, by rw [byteLength, ‹n = 0›]⟩
      · split at h
        · obtain ⟨⟨front, back⟩, hsplit, hpair⟩ := Option.map_eq_some_iff.1 h
          cases hpair
          obtain ⟨rfl, hlength⟩ := ih hsplit
          refine ⟨rfl, ?_⟩
          rw [byteLength, hlength]
          omega
        · cases h
  · rintro ⟨rfl, rfl⟩
    exact splitBytes_byteLength a b

/-- A slice is what stands between a front and a back of these lengths. -/
theorem slice_eq_some {source cs : List Char} {s : Span} :
    slice source s = some cs ↔
      ∃ front back, source = front ++ (cs ++ back) ∧ byteLength front = s.start ∧
        s.start + byteLength cs = s.stop := by
  constructor
  · intro h
    rw [slice] at h
    split at h
    · rename_i hle
      obtain ⟨⟨front, more⟩, hfront, h⟩ := Option.bind_eq_some_iff.1 h
      obtain ⟨⟨middle, back⟩, hmiddle, h⟩ := Option.bind_eq_some_iff.1 h
      cases h
      obtain ⟨rfl, hstart⟩ := splitBytes_eq_some.1 hfront
      obtain ⟨rfl, hsize⟩ := splitBytes_eq_some.1 hmiddle
      refine ⟨front, back, rfl, hstart, ?_⟩
      rw [hsize, Span.size]
      omega
    · cases h
  · rintro ⟨front, back, rfl, hstart, hstop⟩
    obtain ⟨start, stop⟩ := s
    simp only at hstart hstop
    subst hstart hstop
    exact slice_append front cs back

theorem byteLength_append_inj {a b a' b' : List Char} (h : a ++ b = a' ++ b')
    (hlength : byteLength a = byteLength a') : a = a' ∧ b = b' := by
  have hsplit := splitBytes_byteLength a b
  rw [h, hlength, splitBytes_byteLength] at hsplit
  cases hsplit
  exact ⟨rfl, rfl⟩

/-- Of two fronts of a text the longer one goes on where the shorter one ends. -/
theorem exists_of_byteLength_le {a b a' b' : List Char} (h : a ++ b = a' ++ b')
    (hlength : byteLength a ≤ byteLength a') : ∃ m, a' = a ++ m ∧ b = m ++ b' := by
  rcases List.append_eq_append_iff.1 h with ⟨m, ha', hb⟩ | ⟨m, ha, hb'⟩
  · exact ⟨m, ha', hb⟩
  · cases m with
    | nil =>
      rw [List.append_nil] at ha
      exact ⟨[], by rw [ha, List.append_nil], hb'.symm⟩
    | cons x m =>
      have hx := x.utf8Size_pos
      rw [ha, byteLength_append, byteLength] at hlength
      omega

section Slices

variable {source x y : List Char} {a b c : Nat}

theorem slice_start (h : slice source ⟨a, b⟩ = some x) : slice source ⟨a, a⟩ = some [] := by
  obtain ⟨front, back, hsource, hstart, _⟩ := slice_eq_some.1 h
  exact slice_eq_some.2 ⟨front, x ++ back, hsource, hstart, rfl⟩

theorem slice_stop (h : slice source ⟨a, b⟩ = some x) : slice source ⟨b, b⟩ = some [] := by
  obtain ⟨front, back, hsource, hstart, hstop⟩ := slice_eq_some.1 h
  refine slice_eq_some.2 ⟨front ++ x, back, ?_, ?_, rfl⟩
  · rw [hsource, List.append_assoc, List.nil_append]
  · rw [byteLength_append, hstart]
    exact hstop

theorem slice_join (hx : slice source ⟨a, b⟩ = some x) (hy : slice source ⟨b, c⟩ = some y) :
    slice source ⟨a, c⟩ = some (x ++ y) := by
  obtain ⟨front, back, hsource, hstart, hstop⟩ := slice_eq_some.1 hx
  obtain ⟨front', back', hsource', hstart', hstop'⟩ := slice_eq_some.1 hy
  simp only at hstart hstop hstart' hstop'
  have hsame : (front ++ x) ++ back = front' ++ (y ++ back') := by
    rw [List.append_assoc, ← hsource, ← hsource']
  have hlength : byteLength (front ++ x) = byteLength front' := by
    rw [byteLength_append, hstart, hstop, hstart']
  obtain ⟨-, rfl⟩ := byteLength_append_inj hsame hlength
  refine slice_eq_some.2 ⟨front, back', ?_, hstart, ?_⟩
  · rw [hsource, List.append_assoc]
  · rw [byteLength_append, ← Nat.add_assoc, hstop]
    exact hstop'

theorem slice_of_agree {source' : List Char} {outer s : Span} (h : slice source outer = some x)
    (h' : slice source' outer = some x) (hstart : outer.start ≤ s.start)
    (hstop : s.stop ≤ outer.stop) (hs : slice source s = some y) : slice source' s = some y := by
  obtain ⟨front, back, hsource, hfront, hend⟩ := slice_eq_some.1 h
  obtain ⟨front', back', hsource', hfront', -⟩ := slice_eq_some.1 h'
  obtain ⟨start, rest, hsplit, hstartLength, hsize⟩ := slice_eq_some.1 hs
  obtain ⟨u, rfl, hu⟩ := exists_of_byteLength_le (hsource.symm.trans hsplit) (by omega)
  rw [byteLength_append] at hstartLength
  have hinside : (u ++ y) ++ rest = x ++ back := by rw [hu, List.append_assoc]
  have hlength : byteLength (u ++ y) ≤ byteLength x := by
    rw [byteLength_append]
    omega
  obtain ⟨v, rfl, -⟩ := exists_of_byteLength_le hinside hlength
  refine slice_eq_some.2 ⟨front' ++ u, v ++ back', ?_, ?_, hsize⟩
  · rw [hsource']
    simp only [List.append_assoc]
  · rw [byteLength_append, hfront', ← hfront, hstartLength]

theorem slice_front (h : slice source ⟨a, b⟩ = some x) :
    ∃ front, slice source ⟨0, a⟩ = some front := by
  obtain ⟨front, back, hsource, hstart, _⟩ := slice_eq_some.1 h
  exact ⟨front, slice_eq_some.2 ⟨[], x ++ back, hsource, rfl, (Nat.zero_add _).trans hstart⟩⟩

theorem slice_back (h : slice source ⟨a, b⟩ = some x) :
    ∃ back, slice source ⟨b, byteLength source⟩ = some back := by
  obtain ⟨front, back, hsource, hstart, hstop⟩ := slice_eq_some.1 h
  simp only at hstart hstop
  refine ⟨back, slice_eq_some.2 ⟨front ++ x, [], ?_, ?_, ?_⟩⟩
  · rw [hsource, List.append_assoc, List.append_nil]
  · rw [byteLength_append, hstart]
    exact hstop
  · rw [hsource, byteLength_append, byteLength_append, hstart, ← hstop, Nat.add_assoc]

theorem le_of_slice (h : slice source ⟨a, b⟩ = some x) : a ≤ b := by
  obtain ⟨_, _, _, _, hstop⟩ := slice_eq_some.1 h
  simp only at hstop
  omega

end Slices

end Text

/-! ## Chains of positions -/

namespace Cursor

/-- The text between the two positions, and what is left behind the second one, is what is left
behind the first one. -/
structure Leads (c d : Cursor) : Prop where
  rest : c.upTo d ++ d.rest = c.rest
  offset : c.offset + Text.byteLength (c.upTo d) = d.offset

theorem upTo_of_append {c d : Cursor} {m : List Char} (h : c.rest = m ++ d.rest) :
    c.upTo d = m := by
  have hlen : c.rest.length - d.rest.length = m.length := by
    rw [h, List.length_append]
    omega
  rw [upTo, hlen, h, List.take_left]

theorem Leads.of_append {c d : Cursor} {m : List Char} (h : c.rest = m ++ d.rest)
    (ho : d.offset = c.offset + Text.byteLength m) : c.Leads d := by
  have hm := upTo_of_append h
  exact ⟨by rw [hm, h], by rw [hm, ho]⟩

theorem Leads.refl (c : Cursor) : c.Leads c :=
  Leads.of_append (m := []) rfl rfl

theorem upTo_self (c : Cursor) : c.upTo c = [] :=
  upTo_of_append (m := []) rfl

theorem Leads.upTo_append {c d e : Cursor} (h : c.Leads d) (h' : d.Leads e) :
    c.upTo d ++ d.upTo e = c.upTo e := by
  refine (upTo_of_append ?_).symm
  rw [List.append_assoc, h'.rest, h.rest]

theorem Leads.trans {c d e : Cursor} (h : c.Leads d) (h' : d.Leads e) : c.Leads e := by
  refine Leads.of_append (m := c.upTo d ++ d.upTo e) ?_ ?_
  · rw [List.append_assoc, h'.rest, h.rest]
  · rw [Text.byteLength_append, ← h'.offset, ← h.offset, Nat.add_assoc]

theorem Leads.offset_le {c d : Cursor} (h : c.Leads d) : c.offset ≤ d.offset := by
  have := h.offset
  omega

theorem Leads.length_le {c d : Cursor} (h : c.Leads d) : d.rest.length ≤ c.rest.length := by
  rw [← h.rest, List.length_append]
  exact Nat.le_add_left _ _

theorem Leads.rest_ne_nil {c d : Cursor} (h : c.Leads d) (hne : d.rest ≠ []) : c.rest ≠ [] := by
  rw [← h.rest]
  exact List.append_ne_nil_of_right_ne_nil _ hne

theorem leads_advance (c : Cursor) (n : Nat) : c.Leads (c.advance n) := by
  refine Leads.of_append (m := c.rest.take n) ?_ rfl
  rw [advance_rest, List.take_append_drop]

theorem upTo_advance_take (c : Cursor) (n : Nat) : c.upTo (c.advance n) = c.rest.take n :=
  upTo_of_append (by rw [advance_rest, List.take_append_drop])

theorem advance_takeWhile_rest (c : Cursor) (p : Char → Bool) :
    (c.advance (c.rest.takeWhile p).length).rest = c.rest.dropWhile p := by
  have h := List.takeWhile_append_dropWhile (p := p) (l := c.rest)
  rw [advance_rest]
  generalize c.rest.takeWhile p = front at h ⊢
  generalize c.rest.dropWhile p = back at h ⊢
  rw [← h, List.drop_left]

theorem upTo_advance_takeWhile (c : Cursor) (p : Char → Bool) :
    c.upTo (c.advance (c.rest.takeWhile p).length) = c.rest.takeWhile p :=
  upTo_of_append (by rw [advance_takeWhile_rest, List.takeWhile_append_dropWhile])

theorem advance_append (o : Nat) (a b : List Char) :
    (⟨o, a ++ b⟩ : Cursor).advance a.length = ⟨o + Text.byteLength a, b⟩ := by
  simp [advance]

/-! ## Chains in a text -/

variable {source : List Char} {c d e : Cursor}

theorem slice_of_leads (hc : (ofText source).Leads c) (h : c.Leads d) :
    Text.slice source (c.span d) = some (c.upTo d) := by
  have hs : source = (ofText source).upTo c ++ (c.upTo d ++ d.rest) := by
    rw [h.rest, hc.rest]
    rfl
  have ho : c.offset = Text.byteLength ((ofText source).upTo c) := by
    have := hc.offset
    simp only [ofText, Nat.zero_add] at this
    exact this.symm
  rw [span, ← h.offset, ho]
  generalize (ofText source).upTo c = front at hs
  rw [hs]
  exact Text.slice_append _ _ _

theorem sliceOr_of_leads (hc : (ofText source).Leads c) (h : c.Leads d) :
    sliceOr source (c.span d) = c.upTo d := by
  rw [sliceOr, slice_of_leads hc h]
  rfl

theorem upTo_ofText (hc : (ofText source).Leads c) :
    sliceOr source ⟨0, c.offset⟩ = (ofText source).upTo c :=
  sliceOr_of_leads (Leads.refl _) hc

theorem slice_rest (hc : (ofText source).Leads c) :
    Text.slice source ⟨c.offset, Text.byteLength source⟩ = some c.rest := by
  have hend : c.Leads ⟨Text.byteLength source, []⟩ := by
    refine Leads.of_append (m := c.rest) (List.append_nil _).symm ?_
    have ho := hc.offset
    have hb := congrArg Text.byteLength hc.rest
    rw [Text.byteLength_append] at hb
    simp only [ofText, Nat.zero_add] at ho hb
    rw [← hb, ho]
  have h := slice_of_leads hc hend
  rw [upTo_of_append (m := c.rest) (List.append_nil _).symm] at h
  exact h

theorem sliceOr_rest (hc : (ofText source).Leads c) :
    sliceOr source ⟨c.offset, Text.byteLength source⟩ = c.rest := by
  rw [sliceOr, slice_rest hc]
  rfl

theorem upTo_ofText_append_rest (hc : (ofText source).Leads c) :
    (ofText source).upTo c ++ c.rest = source :=
  hc.rest

end Cursor

end PageEditor
