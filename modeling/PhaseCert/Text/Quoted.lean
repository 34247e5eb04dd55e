/-
  PhaseCert.Text.Quoted — a text between double quotes.

  `shown` is the form used in messages: quotes, backslashes and the common controls have
  short escapes, other unprintable characters are given by number, the rest stands as it is.
-/
import PhaseCert.Text.Unprintable

namespace PhaseCert

def shownChar (c : Char) : List Char :=
  match c with
  | '"' => ['\\', '"']
  | '\\' => ['\\', '\\']
  | '\n' => ['\\', 'n']
  | '\r' => ['\\', 'r']
  | '\t' => ['\\', 't']
  | '\x00' => ['\\', '0']
  | c =>
    if isUnprintable c then
      '\\' :: 'u' :: '\x7b' :: (Nat.toDigits 16 c.toNat ++ ['\x7d'])
    else [c]

def shown (s : String) : String :=
  String.ofList ('"' :: (s.toList.flatMap shownChar ++ ['"']))

end PhaseCert
