/-
  PhaseCert.Text.Utf8 — bytes read as UTF-8.

  `strict?` takes well-formed UTF-8 only. `lossy` takes any bytes: each longest piece that
  begins a well-formed sequence and cannot be continued becomes one replacement character,
  as does each byte that begins none.
-/

namespace PhaseCert.Utf8

/-- How many bytes a sequence with this first byte has, and the range of its second byte.
    The ranges keep out overlong forms, surrogates and codes past the last character. -/
def lead? (b : Nat) : Option (Nat × Nat × Nat) :=
  if 0xC2 ≤ b ∧ b ≤ 0xDF then some (2, 0x80, 0xBF)
  else if b = 0xE0 then some (3, 0xA0, 0xBF)
  else if b = 0xED then some (3, 0x80, 0x9F)
  else if 0xE1 ≤ b ∧ b ≤ 0xEF then some (3, 0x80, 0xBF)
  else if b = 0xF0 then some (4, 0x90, 0xBF)
  else if 0xF1 ≤ b ∧ b ≤ 0xF3 then some (4, 0x80, 0xBF)
  else if b = 0xF4 then some (4, 0x80, 0x8F)
  else none

def isContinuation (b : Nat) : Bool := 0x80 ≤ b && b ≤ 0xBF

/-- The bits that a first byte of a sequence of this length carries. -/
def leadBits (length b : Nat) : Nat := b % Nat.pow 2 (7 - length)

/-- The first character of the bytes, or `none` in its place for an ill-formed piece, and
    the bytes after it. -/
def next : List Nat → Option (Option Char × List Nat)
  | [] => none
  | b :: rest =>
    if b < 0x80 then some (some (Char.ofNat b), rest)
    else
      match lead? b with
      | none => some (none, rest)
      | some (length, low, high) =>
        match rest with
        | b1 :: rest1 =>
          if low ≤ b1 ∧ b1 ≤ high then
            let code1 := leadBits length b * 64 + b1 % 64
            if length = 2 then some (some (Char.ofNat code1), rest1)
            else
              match rest1 with
              | b2 :: rest2 =>
                if isContinuation b2 then
                  let code2 := code1 * 64 + b2 % 64
                  if length = 3 then some (some (Char.ofNat code2), rest2)
                  else
                    match rest2 with
                    | b3 :: rest3 =>
                      if isContinuation b3 then some (some (Char.ofNat (code2 * 64 + b3 % 64)), rest3)
                      else some (none, rest2)
                    | [] => some (none, [])
                else some (none, rest1)
              | [] => some (none, [])
          else some (none, rest)
        | [] => some (none, [])

theorem next_shorter {bytes rest : List Nat} {c : Option Char} (h : next bytes = some (c, rest)) :
    rest.length < bytes.length := by
  unfold next at h
  repeat' split at h
  all_goals simp_all
  all_goals omega

/-- The pieces of the bytes: characters, and `none` for each ill-formed piece. -/
def pieces (bytes : List Nat) : List (Option Char) :=
  match _h : next bytes with
  | none => []
  | some (c, rest) => c :: pieces rest
  termination_by bytes.length
  decreasing_by exact next_shorter (by assumption)

def strict? (bytes : List Nat) : Option String :=
  ((pieces bytes).mapM id).map String.ofList

def lossy (bytes : List Nat) : String :=
  String.ofList ((pieces bytes).map (·.getD '\uFFFD'))

/-- The bytes of a text. -/
def encode (s : String) : List Nat := s.toUTF8.toList.map UInt8.toNat

end PhaseCert.Utf8
