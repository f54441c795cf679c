import PageEditor.Digest.Sha256

/-!
# Hashes of texts

Nothing is lost on the way from a text to the bytes that are hashed, nor on the way from the eight
words of the hash to its digits. Two texts with one hash are therefore the same text, or else their
bytes are a collision.
-/
set_option autoImplicit false

namespace PageEditor.Digest

/-! ## Bytes of texts -/

theorem toList_loop_eq (bs : ByteArray) (i : Nat) (r : List UInt8) :
    ByteArray.toList.loop bs i r = r.reverse ++ bs.data.toList.drop i := by
  fun_induction ByteArray.toList.loop bs i r with
  | case1 i r hi ih =>
    have hi' : i < bs.data.toList.length := hi
    have hget : bs.get! i = bs.data.toList[i] := getElem!_pos bs.data i hi
    rw [ih, List.drop_eq_getElem_cons hi', hget]
    simp
  | case2 i r hi =>
    have hi' : bs.data.toList.length ≤ i := Nat.le_of_not_lt hi
    rw [List.drop_eq_nil_of_le hi', List.append_nil]

theorem toList_eq (bs : ByteArray) : bs.toList = bs.data.toList := toList_loop_eq bs 0 []

theorem bytes_inj {s t : String} (h : s.toUTF8.toList = t.toUTF8.toList) : s = t := by
  rw [toList_eq, toList_eq] at h
  exact String.toByteArray_inj.1 (ByteArray.ext (Array.toList_inj.1 h))

/-! ## Digits of words -/

theorem hexDigit_inj {m n : Nat} (hm : m < 16) (hn : n < 16)
    (h : Text.hexDigit m = Text.hexDigit n) : m = n := by
  have hvalue := congrArg Text.hexValue? h
  rw [Text.hexValue?_hexDigit m hm, Text.hexValue?_hexDigit n hn] at hvalue
  exact Option.some.inj hvalue

theorem hexWord_inj {v w : UInt32} (h : hexWord v = hexWord w) : v = w := by
  have hdigit : ∀ s ∈ [28, 24, 20, 16, 12, 8, 4, 0],
      (v.toNat >>> s) % 16 = (w.toNat >>> s) % 16 := fun s hs =>
    hexDigit_inj (Nat.mod_lt _ (by decide)) (Nat.mod_lt _ (by decide))
      (List.map_inj_left.1 h s hs)
  simp only [List.forall_mem_cons, Nat.shiftRight_eq_div_pow] at hdigit
  have hv := v.toNat_lt
  have hw := w.toNat_lt
  refine UInt32.toNat_inj.1 ?_
  omega

theorem flatMap_hexWord_inj {vs ws : List UInt32} (hlength : vs.length = ws.length)
    (h : vs.flatMap hexWord = ws.flatMap hexWord) : vs = ws := by
  induction vs generalizing ws with
  | nil => exact (List.length_eq_zero_iff.1 hlength.symm).symm
  | cons v vs ih =>
    cases ws with
    | nil => cases hlength
    | cons w ws =>
      rw [List.flatMap_cons, List.flatMap_cons] at h
      obtain ⟨hword, hmore⟩ := List.append_inj h rfl
      rw [hexWord_inj hword, ih (Nat.succ.inj hlength) hmore]

theorem State.words_inj {s t : State} (h : s.words = t.words) : s = t := by
  cases s
  cases t
  simpa [State.words] using h

/-! ## Collisions -/

/-- Two byte strings that differ and have one hash. -/
def Collision (x y : List UInt8) : Prop := x ≠ y ∧ sha256 x = sha256 y

instance (x y : List UInt8) : Decidable (Collision x y) := inferInstanceAs (Decidable (_ ∧ _))

/-- Texts have one hash when they are the same, or else their bytes collide. -/
theorem sha256Text_eq_iff {s t : String} :
    sha256Text s = sha256Text t ↔ s = t ∨ Collision s.toUTF8.toList t.toUTF8.toList := by
  refine ⟨fun h => ?_, ?_⟩
  · rw [sha256Text, sha256Text] at h
    have hlength : (sha256 s.toUTF8.toList).words.length = (sha256 t.toUTF8.toList).words.length := rfl
    have hstate := State.words_inj (flatMap_hexWord_inj hlength (String.ofList_inj.1 h))
    by_cases hsame : s = t
    · exact .inl hsame
    · exact .inr ⟨fun hbytes => hsame (bytes_inj hbytes), hstate⟩
  · rintro (rfl | ⟨-, hstate⟩)
    · rfl
    · rw [sha256Text, sha256Text, hstate]

end PageEditor.Digest
