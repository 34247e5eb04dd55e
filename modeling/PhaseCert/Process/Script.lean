/-
  PhaseCert.Process.Script — a small command language.

  A script is a list of commands, each a list of words, on lines or with semicolons between
  them; `&&` and `||` make a command depend on the one before. Words may be quoted and hold
  variables, and a command's output may go to standard error. The commands are those that
  print, read a line, and end the script.
-/
import PhaseCert.Decimal.Numeral
import PhaseCert.Process.Basic

namespace PhaseCert.Script

inductive Part where
  | char (c : Char)
  | variable (name : String)
  /-- The number of the running process. -/
  | self
  deriving DecidableEq

abbrev Word := List Part

inductive Token where
  | word (w : Word)
  /-- A line's end or a semicolon; the first counts lines. -/
  | newline
  | semicolon
  | andThen
  | orElse
  | toError
  deriving DecidableEq

inductive Quoting where
  | bare
  | single
  | double
  deriving DecidableEq

def isNameChar (c : Char) : Bool := c.isAlphanum || c = '_'

def flush (w : Option Word) (ts : List Token) : List Token :=
  match w with
  | some w => .word w.reverse :: ts
  | none => ts

def add (w : Option Word) (p : Part) : Option Word := some (p :: w.getD [])

/-- The tokens of a script; `none` where a quote is left open. The word so far is reversed. -/
def lex : (fuel : Nat) → Quoting → Option Word → List Char → Option (List Token)
  | 0, _, _, _ => none
  | _ + 1, .bare, w, [] => some (flush w [])
  | _ + 1, _, _, [] => none
  | fuel + 1, .single, w, c :: cs =>
    if c = '\'' then lex fuel .bare w cs else lex fuel .single (add w (.char c)) cs
  | fuel + 1, q, w, '$' :: '$' :: cs => lex fuel q (add w .self) cs
  | fuel + 1, q, w, '$' :: cs =>
    let name := cs.takeWhile isNameChar
    if name = [] then lex fuel q (add w (.char '$')) cs
    else lex fuel q (add w (.variable (String.ofList name))) (cs.dropWhile isNameChar)
  | fuel + 1, .double, w, '\\' :: c :: cs =>
    if c = '"' ∨ c = '\\' ∨ c = '$' then lex fuel .double (add w (.char c)) cs
    else lex fuel .double (add (add w (.char '\\')) (.char c)) cs
  | fuel + 1, .double, w, c :: cs =>
    if c = '"' then lex fuel .bare w cs else lex fuel .double (add w (.char c)) cs
  | fuel + 1, .bare, w, '\\' :: c :: cs => lex fuel .bare (add w (.char c)) cs
  | fuel + 1, .bare, w, '&' :: '&' :: cs => (lex fuel .bare none cs).map (flush w [] ++ .andThen :: ·)
  | fuel + 1, .bare, w, '|' :: '|' :: cs => (lex fuel .bare none cs).map (flush w [] ++ .orElse :: ·)
  | fuel + 1, .bare, w, '>' :: '&' :: '2' :: cs =>
    (lex fuel .bare none cs).map fun ts =>
      (if w = some [.char '1'] then [] else flush w []) ++ .toError :: ts
  | fuel + 1, .bare, w, c :: cs =>
    if c = '\'' then lex fuel .single (some (w.getD [])) cs
    else if c = '"' then lex fuel .double (some (w.getD [])) cs
    else if c = '\n' then (lex fuel .bare none cs).map (flush w [] ++ .newline :: ·)
    else if c = ';' then (lex fuel .bare none cs).map (flush w [] ++ .semicolon :: ·)
    else if c = ' ' ∨ c = '\t' then (lex fuel .bare none cs).map (flush w [] ++ ·)
    else if c = '#' ∧ w = none then lex fuel .bare none (cs.dropWhile (· ≠ '\n'))
    else lex fuel .bare (add w (.char c)) cs

/-- When a command runs, by how the one before it ended. -/
inductive Condition where
  | always
  | onSuccess
  | onFailure
  deriving DecidableEq

structure Command where
  line : Nat
  condition : Condition
  words : List Word
  toError : Bool

def Command.start (line : Nat) (condition : Condition) : Command := ⟨line, condition, [], false⟩

/-- The commands of a list of tokens, given the one that is being put together. -/
def commands (now : Command) : List Token → List Command
  | [] => [now]
  | .word w :: ts => commands { now with words := now.words ++ [w] } ts
  | .toError :: ts => commands { now with toError := true } ts
  | .newline :: ts =>
    if now.words = [] then commands { now with line := now.line + 1 } ts
    else now :: commands (.start (now.line + 1) .always) ts
  | .semicolon :: ts => now :: commands (.start now.line .always) ts
  | .andThen :: ts => now :: commands (.start now.line .onSuccess) ts
  | .orElse :: ts => now :: commands (.start now.line .onFailure) ts

def octalValue? (c : Char) : Option Nat :=
  if '0' ≤ c ∧ c ≤ '7' then some (c.toNat - '0'.toNat) else none

/-- Up to `n` octal digits. -/
def octal : (n : Nat) → Nat → List Char → Nat × List Char
  | 0, value, cs => (value, cs)
  | _ + 1, value, [] => (value, [])
  | n + 1, value, c :: cs =>
    match octalValue? c with
    | some v => octal n (8 * value + v) cs
    | none => (value, c :: cs)

def simpleEscape? : Char → Option Nat
  | 'n' => some 10
  | 't' => some 9
  | 'r' => some 13
  | 'a' => some 7
  | 'b' => some 8
  | 'f' => some 12
  | 'v' => some 11
  | '\\' => some 92
  | _ => none

def charBytes (c : Char) : Bytes := Utf8.encode (String.singleton c)

/-- The bytes of a text with escapes. A number needs a zero in front where `zero` is set, and
    with `args` each `%s` stands for the next of them. -/
def escapedBytes (zero : Bool) : (fuel : Nat) → (args : Option (List String)) → List Char → Bytes
  | 0, _, _ => []
  | _ + 1, _, [] => []
  | fuel + 1, args, '\\' :: c :: cs =>
    match simpleEscape? c with
    | some b => b :: escapedBytes zero fuel args cs
    | none =>
      if (octalValue? c).isSome ∧ (zero → c = '0') then
        let (value, rest) := octal 3 0 (if zero then cs else c :: cs)
        value % 256 :: escapedBytes zero fuel args rest
      else 92 :: (charBytes c ++ escapedBytes zero fuel args cs)
  | fuel + 1, some args, '%' :: 's' :: cs =>
    Utf8.encode (args.head?.getD "") ++ escapedBytes zero fuel (some args.tail) cs
  | fuel + 1, some args, '%' :: '%' :: cs => 37 :: escapedBytes zero fuel (some args) cs
  | fuel + 1, args, c :: cs => charBytes c ++ escapedBytes zero fuel args cs

structure State where
  bindings : List (String × String)
  stdout : Bytes
  stderr : Bytes
  status : Nat

def State.initial : State := ⟨[], [], [], 0⟩

/-- What the number of the running process is written as; no script can tell which it is. -/
def selfText : String := "$$"

def expand (s : State) (w : Word) : String :=
  String.join (w.map fun
    | .char c => String.singleton c
    | .variable name => (s.bindings.lookup name).getD ""
    | .self => selfText)

/-- Output goes to one of the two streams. -/
def State.print (s : State) (toError : Bool) (bytes : Bytes) : State :=
  if toError then { s with stderr := s.stderr ++ bytes, status := 0 }
  else { s with stdout := s.stdout ++ bytes, status := 0 }

inductive Next where
  | goOn (s : State)
  | stop (s : State) (code : Option Nat)

def isSignal (w : String) : Bool :=
  ["-9", "-15", "-KILL", "-TERM", "-SIGKILL", "-SIGTERM"].contains w

/-- One command, the script's name being `name`. -/
def runCommand (name : String) (line : Nat) (toError : Bool) (s : State) : List String → Next
  | [] => .goOn s
  | "echo" :: "-n" :: args =>
    let text := String.intercalate " " args
    .goOn (s.print toError (escapedBytes true (text.length + 1) none text.toList))
  | "echo" :: args =>
    let text := String.intercalate " " args
    .goOn (s.print toError (escapedBytes true (text.length + 1) none text.toList ++ [10]))
  | "printf" :: format :: args =>
    .goOn (s.print toError (escapedBytes false (format.length + 1) (some args) format.toList))
  | "exit" :: args =>
    match args.head?.bind Numeral.nat? with
    | some n => .stop s (some (n % 256))
    | none => .stop s (some s.status)
  | ["kill", signal, target] =>
    if isSignal signal ∧ target = selfText then .stop s none else .goOn { s with status := 1 }
  | ["kill", target] =>
    if target = selfText then .stop s none else .goOn { s with status := 1 }
  | "read" :: names =>
    .goOn { s with bindings := names.map (·, "") ++ s.bindings, status := 1 }
  | ["cat"] => .goOn { s with status := 0 }
  | "true" :: _ => .goOn { s with status := 0 }
  | ":" :: _ => .goOn { s with status := 0 }
  | "false" :: _ => .goOn { s with status := 1 }
  | command :: _ =>
    .goOn { s with
      stderr := s.stderr
        ++ Utf8.encode (name ++ ": " ++ toString line ++ ": " ++ command ++ ": not found\n")
      status := 127 }

def runAll (name : String) (s : State) : List Command → RunOutcome
  | [] => .ended (some s.status) s.stdout s.stderr
  | c :: rest =>
    let due := match c.condition with
      | .always => true
      | .onSuccess => s.status = 0
      | .onFailure => s.status ≠ 0
    if due then
      match runCommand name c.line c.toError s (c.words.map (expand s)) with
      | .goOn s => runAll name s rest
      | .stop s code => .ended code s.stdout s.stderr
    else runAll name s rest

/-- A script that cannot be divided into tokens ends at once. -/
def run (name : String) (source : String) : RunOutcome :=
  match lex (source.length + 1) .bare none source.toList with
  | none =>
    .ended (some 2) []
      (Utf8.encode (name ++ ": 1: Syntax error: Unterminated quoted string\n"))
  | some ts => runAll name .initial (commands (.start 1 .always) ts)

end PhaseCert.Script
