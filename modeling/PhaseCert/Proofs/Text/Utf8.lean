/-
  PhaseCert.Proofs.Text.Utf8 — the bytes of a text, read back.

  The bytes of a character are a well-formed sequence, which is read as that character
  (`next_encodeChar`). So the bytes of a text are read as the text (`strict?_encode`).
-/
import PhaseCert.Text.Utf8

namespace PhaseCert.Utf8

/-! ## Bytes -/

theorem toList_loop (bytes : ByteArray) (i : Nat) (read : List UInt8) :
    ByteArray.toList.loop bytes i read = read.reverse ++ bytes.data.toList.drop i := by
  fun_induction ByteArray.toList.loop bytes i read with
  | case1 i read h ih =>
    have hi : i < bytes.data.toList.length := h
    have hget : bytes.get! i = bytes.data.toList[i] := by
      rw [ByteArray.get!, getElem!_pos bytes.data i h]
      rfl
    rw [ih, List.reverse_cons, List.append_assoc, List.drop_eq_getElem_cons hi, hget]
    rfl
  | case2 i read h =>
    have hi : bytes.data.toList.length ≤ i := Nat.le_of_not_lt h
    rw [List.drop_eq_nil_of_le hi, List.append_nil]

def encodeChar (c : Char) : List Nat := (String.utf8EncodeChar c).map UInt8.toNat

/-- The bytes of a text are those of its characters. -/
theorem encode_eq (s : String) : encode s = s.toList.flatMap encodeChar := by
  have hbytes : s.toUTF8.toList = s.toList.flatMap String.utf8EncodeChar := by
    rw [String.toUTF8, ← String.utf8Encode_toList, ByteArray.toList, toList_loop, List.utf8Encode,
      List.toList_data_toByteArray]
    rfl
  rw [encode, hbytes, List.map_flatMap]
  rfl

/-! ## Sequences -/

variable {b b1 b2 b3 low high : Nat} {rest : List Nat}

theorem next_one (h : b < 0x80) : next (b :: rest) = some (some (Char.ofNat b), rest) := by
  rw [next, if_pos h]

theorem next_two (h : lead? b = some (2, low, high)) (hb : ¬b < 0x80) (h1 : low ≤ b1 ∧ b1 ≤ high) :
    next (b :: b1 :: rest) = some (some (Char.ofNat (leadBits 2 b * 64 + b1 % 64)), rest) := by
  simp only [next, if_neg hb, h, if_pos h1, if_true]

theorem next_three (h : lead? b = some (3, low, high)) (hb : ¬b < 0x80) (h1 : low ≤ b1 ∧ b1 ≤ high)
    (h2 : isContinuation b2 = true) :
    next (b :: b1 :: b2 :: rest) =
      some (some (Char.ofNat ((leadBits 3 b * 64 + b1 % 64) * 64 + b2 % 64)), rest) := by
  simp only [next, if_neg hb, h, if_pos h1, h2, if_true]
  rfl

theorem next_four (h : lead? b = some (4, low, high)) (hb : ¬b < 0x80) (h1 : low ≤ b1 ∧ b1 ≤ high)
    (h2 : isContinuation b2 = true) (h3 : isContinuation b3 = true) :
    next (b :: b1 :: b2 :: b3 :: rest) =
      some (some (Char.ofNat (((leadBits 4 b * 64 + b1 % 64) * 64 + b2 % 64) * 64 + b3 % 64)), rest) := by
  simp only [next, if_neg hb, h, if_pos h1, h2, h3, if_true]
  rfl

theorem isContinuation_tail (n : Nat) : isContinuation (n % 64 + 128) = true := by
  simp only [isContinuation, Bool.and_eq_true, decide_eq_true_eq]
  omega

/-- The second byte of three stands within the range of the first, surrogates being no characters. -/
theorem lead?_three {v : Nat} (h1 : 2047 < v) (h2 : v ≤ 65535) (hv : v < 0xD800 ∨ 0xDFFF < v) :
    ∃ low high, lead? (v / 4096 % 16 + 224) = some (3, low, high) ∧
      low ≤ v / 64 % 64 + 128 ∧ v / 64 % 64 + 128 ≤ high := by
  have hsmall : ¬(0xC2 ≤ v / 4096 % 16 + 224 ∧ v / 4096 % 16 + 224 ≤ 0xDF) := by omega
  unfold lead?
  rw [if_neg hsmall]
  by_cases h0 : v / 4096 % 16 + 224 = 0xE0
  · rw [if_pos h0]
    exact ⟨_, _, rfl, by omega, by omega⟩
  rw [if_neg h0]
  by_cases hd : v / 4096 % 16 + 224 = 0xED
  · rw [if_pos hd]
    exact ⟨_, _, rfl, by omega, by omega⟩
  rw [if_neg hd, if_pos (by omega)]
  exact ⟨_, _, rfl, by omega, by omega⟩

/-- The second byte of four stands within the range of the first. -/
theorem lead?_four {v : Nat} (h1 : 65535 < v) (h2 : v < 0x110000) :
    ∃ low high, lead? (v / 262144 % 8 + 240) = some (4, low, high) ∧
      low ≤ v / 4096 % 64 + 128 ∧ v / 4096 % 64 + 128 ≤ high := by
  unfold lead?
  rw [if_neg (by omega), if_neg (by omega), if_neg (by omega), if_neg (by omega)]
  by_cases h0 : v / 262144 % 8 + 240 = 0xF0
  · rw [if_pos h0]
    exact ⟨_, _, rfl, by omega, by omega⟩
  rw [if_neg h0]
  by_cases hm : 0xF1 ≤ v / 262144 % 8 + 240 ∧ v / 262144 % 8 + 240 ≤ 0xF3
  · rw [if_pos hm]
    exact ⟨_, _, rfl, by omega, by omega⟩
  rw [if_neg hm, if_pos (by omega)]
  exact ⟨_, _, rfl, by omega, by omega⟩

/-- The bytes of the character with this code. -/
def codeBytes (v : Nat) : List Nat :=
  if v ≤ 127 then [v]
  else if v ≤ 2047 then [v / 64 % 32 + 192, v % 64 + 128]
  else if v ≤ 65535 then [v / 4096 % 16 + 224, v / 64 % 64 + 128, v % 64 + 128]
  else [v / 262144 % 8 + 240, v / 4096 % 64 + 128, v / 64 % 64 + 128, v % 64 + 128]

theorem encodeChar_eq (c : Char) : encodeChar c = codeBytes c.toNat := by
  have hbyte : ∀ n, n < 256 → (UInt8.ofNat n).toNat = n := fun n hn => UInt8.toNat_ofNat_of_lt' hn
  unfold encodeChar String.utf8EncodeChar codeBytes
  simp only
  rw [show c.val.toNat = c.toNat from rfl]
  generalize c.toNat = v
  by_cases h1 : v ≤ 127
  · simp only [if_pos h1, List.map_cons, List.map_nil, hbyte v (by omega)]
  rw [if_neg h1, if_neg h1]
  by_cases h2 : v ≤ 2047
  · simp only [if_pos h2, List.map_cons, List.map_nil, hbyte (v / 64 % 32 + 192) (by omega),
      hbyte (v % 64 + 128) (by omega)]
  rw [if_neg h2, if_neg h2]
  by_cases h3 : v ≤ 65535
  · simp only [if_pos h3, List.map_cons, List.map_nil, hbyte (v / 4096 % 16 + 224) (by omega),
      hbyte (v / 64 % 64 + 128) (by omega), hbyte (v % 64 + 128) (by omega)]
  · simp only [if_neg h3, List.map_cons, List.map_nil, hbyte (v / 262144 % 8 + 240) (by omega),
      hbyte (v / 4096 % 64 + 128) (by omega), hbyte (v / 64 % 64 + 128) (by omega), hbyte (v % 64 + 128) (by omega)]

theorem next_encodeChar (c : Char) (rest : List Nat) : next (encodeChar c ++ rest) = some (some c, rest) := by
  have hvalid : c.toNat < 0xD800 ∨ 0xDFFF < c.toNat ∧ c.toNat < 0x110000 := c.valid
  have hchar : ∀ n, n = c.toNat → Char.ofNat n = c := by
    rintro n rfl
    exact Char.ofNat_toNat c
  rw [encodeChar_eq, codeBytes]
  generalize hv : c.toNat = v at *
  by_cases h1 : v ≤ 127
  · rw [if_pos h1, List.singleton_append, next_one (by omega), hchar v rfl]
  rw [if_neg h1]
  by_cases h2 : v ≤ 2047
  · have hlead : lead? (v / 64 % 32 + 192) = some (2, 0x80, 0xBF) := by
      rw [lead?, if_pos (by omega)]
    rw [if_pos h2, List.cons_append, List.cons_append, List.nil_append, next_two hlead (by omega) (by omega)]
    rw [hchar _ (by simp only [leadBits, show Nat.pow 2 (7 - 2) = 32 from rfl]; omega)]
  rw [if_neg h2]
  by_cases h3 : v ≤ 65535
  · obtain ⟨low, high, hlead, hrange⟩ := lead?_three (v := v) (by omega) h3 (by omega)
    rw [if_pos h3, List.cons_append, List.cons_append, List.cons_append, List.nil_append]
    rw [next_three hlead (by omega) hrange (isContinuation_tail v)]
    rw [hchar _ (by simp only [leadBits, show Nat.pow 2 (7 - 3) = 16 from rfl]; omega)]
  · obtain ⟨low, high, hlead, hrange⟩ := lead?_four (v := v) (by omega) (by omega)
    rw [if_neg h3, List.cons_append, List.cons_append, List.cons_append, List.cons_append, List.nil_append]
    rw [next_four hlead (by omega) hrange (isContinuation_tail (v / 64)) (isContinuation_tail v)]
    rw [hchar _ (by simp only [leadBits, show Nat.pow 2 (7 - 4) = 8 from rfl]; omega)]

/-! ## Texts -/

theorem pieces_of_next {bytes rest : List Nat} {c : Option Char} (h : next bytes = some (c, rest)) :
    pieces bytes = c :: pieces rest := by
  rw [pieces]
  split
  · rename_i hn
    rw [h] at hn
    cases hn
  · rename_i c' rest' hn
    rw [h, Option.some.injEq, Prod.mk.injEq] at hn
    rw [hn.1, hn.2]

theorem pieces_flatMap (cs : List Char) : pieces (cs.flatMap encodeChar) = cs.map some := by
  induction cs with
  | nil => rw [List.flatMap_nil, pieces]; rfl
  | cons c cs ih => rw [List.flatMap_cons, pieces_of_next (next_encodeChar c _), ih, List.map_cons]

/-- A text's bytes are read as the text. -/
theorem strict?_encode (s : String) : strict? (encode s) = some s := by
  have hread : ∀ cs : List Char, (cs.map some).mapM id = some cs := by
    intro cs
    induction cs with
    | nil => rfl
    | cons c cs ih =>
      rw [List.map_cons, List.mapM_cons, ih]
      rfl
  rw [strict?, encode_eq, pieces_flatMap, hread, Option.map_some, String.ofList_toList]

end PhaseCert.Utf8
