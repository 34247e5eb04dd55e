/-
  PhaseCert.Proofs.Text.ByteOrder — texts are in the order of their bytes.

  Texts are compared character by character, by the characters' codes. Of two characters the one
  with the smaller code has bytes that are smaller where they first differ, so neither's bytes
  begin the other's and what follows does not matter (`codeBytes_lt`). The bytes of two texts are
  then in the order of the texts (`encode_lt_iff`): what is sorted by one is sorted by the other.
-/
import PhaseCert.Proofs.Text.Utf8

namespace PhaseCert.Utf8

/-- A larger code has no fewer bytes. With more of them its first byte is larger, and with as many
    the bytes are digits of the code, the most significant ones first. -/
theorem codeBytes_lt {v w : Nat} (h : v < w) (hw : w < 0x110000) (rest rest' : List Nat) :
    codeBytes v ++ rest < codeBytes w ++ rest' := by
  have hdigits : ∀ n : Nat, n / 4096 = n / 64 / 64 ∧ n / 262144 = n / 64 / 64 / 64 := by
    intro n
    omega
  simp only [codeBytes, hdigits]
  repeat' split
  all_goals
    simp only [List.cons_append, List.nil_append, List.cons_lt_cons_iff]
    omega

theorem encodeChar_lt {c d : Char} (h : c < d) (rest rest' : List Nat) :
    encodeChar c ++ rest < encodeChar d ++ rest' := by
  have hd : d.toNat < 0x110000 := by
    have hvalid : d.toNat < 0xD800 ∨ 0xDFFF < d.toNat ∧ d.toNat < 0x110000 := d.valid
    omega
  rw [encodeChar_eq, encodeChar_eq]
  exact codeBytes_lt h hd rest rest'

theorem encodeChar_ne_nil (c : Char) : encodeChar c ≠ [] := by
  intro h
  have hnext := next_encodeChar c []
  rw [h] at hnext
  cases hnext

theorem flatMap_encodeChar_lt {cs ds : List Char} (h : cs < ds) : cs.flatMap encodeChar < ds.flatMap encodeChar := by
  induction cs generalizing ds with
  | nil =>
    cases ds with
    | nil => exact absurd h (List.not_lt_nil [])
    | cons d ds =>
      obtain ⟨b, bytes, hb⟩ := List.exists_cons_of_ne_nil (encodeChar_ne_nil d)
      rw [List.flatMap_nil, List.flatMap_cons, hb]
      exact List.nil_lt_cons b _
  | cons c cs ih =>
    cases ds with
    | nil => exact absurd h (List.not_lt_nil _)
    | cons d ds =>
      rw [List.flatMap_cons, List.flatMap_cons]
      rcases List.cons_lt_cons_iff.1 h with hlt | ⟨rfl, hrest⟩
      · exact encodeChar_lt hlt _ _
      · exact List.append_left_lt (ih hrest)

theorem encode_lt {s t : String} (h : s < t) : encode s < encode t := by
  rw [encode_eq, encode_eq]
  exact flatMap_encodeChar_lt h

/-- Texts are in the order of their bytes. -/
theorem encode_lt_iff {s t : String} : encode s < encode t ↔ s < t := by
  constructor
  · intro h
    rcases Std.lt_trichotomy s t with hlt | rfl | hgt
    · exact hlt
    · exact absurd h (List.lt_irrefl _)
    · exact absurd h (List.lt_asymm (encode_lt hgt))
  · exact encode_lt

end PhaseCert.Utf8
