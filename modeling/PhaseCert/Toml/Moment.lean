/-
  PhaseCert.Toml.Moment — dates and times.

  A moment is a date, a time of day, or both with or without a zone. Its text has a `T`
  between date and time, no trailing zeros in the fraction of a second, and `Z` for the
  zone of universal time.
-/
import PhaseCert.Decimal.Layout
import PhaseCert.Decimal.Numeral

namespace PhaseCert.Toml

structure Day where
  year : Nat
  month : Nat
  day : Nat

def isLeap (year : Nat) : Bool := year % 4 = 0 && (year % 100 ≠ 0 || year % 400 = 0)

def daysIn (year month : Nat) : Nat :=
  if month = 2 then (if isLeap year then 29 else 28)
  else if month = 4 ∨ month = 6 ∨ month = 9 ∨ month = 11 then 30
  else 31

/-- A time of day; the second 60 is a leap second. -/
structure Clock where
  hour : Nat
  minute : Nat
  second : Nat
  nanosecond : Nat

inductive Zone where
  | universal
  /-- Minutes before or after universal time. -/
  | offset (behind : Bool) (minutes : Nat)

inductive Moment where
  | date (day : Day)
  | time (clock : Clock)
  | both (day : Day) (clock : Clock) (zone : Option Zone)

def Day.text (d : Day) : List Char :=
  paddedDigits 4 d.year ++ '-' :: paddedDigits 2 d.month ++ '-' :: paddedDigits 2 d.day

def dropZerosEnd (ds : List Char) : List Char := (ds.reverse.dropWhile (· = '0')).reverse

def Clock.text (t : Clock) : List Char :=
  paddedDigits 2 t.hour ++ ':' :: paddedDigits 2 t.minute ++ ':' :: paddedDigits 2 t.second
    ++ (if t.nanosecond = 0 then [] else '.' :: dropZerosEnd (paddedDigits 9 t.nanosecond))

def Zone.text : Zone → List Char
  | .universal => ['Z']
  | .offset behind minutes =>
    (if behind && minutes ≠ 0 then '-' else '+')
      :: paddedDigits 2 (minutes / 60) ++ ':' :: paddedDigits 2 (minutes % 60)

def Moment.text : Moment → List Char
  | .date d => d.text
  | .time t => t.text
  | .both d t zone => d.text ++ 'T' :: t.text ++ ((zone.map Zone.text).getD [])

/-- The number of exactly so many digits. -/
def fixedDigits? (length : Nat) (cs : List Char) : Option (Nat × List Char) :=
  let ds := cs.take length
  if ds.length = length ∧ ds.all Char.isDigit then some (Numeral.natOfDigits ds, cs.drop length)
  else none

def mark? (c : Char) : List Char → Option (List Char)
  | [] => none
  | d :: cs => if d = c then some cs else none

def day? (cs : List Char) : Option (Day × List Char) := do
  let (year, cs) ← fixedDigits? 4 cs
  let (month, cs) ← fixedDigits? 2 (← mark? '-' cs)
  let (day, cs) ← fixedDigits? 2 (← mark? '-' cs)
  if 1 ≤ month ∧ month ≤ 12 ∧ 1 ≤ day ∧ day ≤ daysIn year month then
    return (⟨year, month, day⟩, cs)
  else none

/-- The hour and the minute. -/
def hourMinute? (cs : List Char) : Option (Nat × Nat × List Char) := do
  let (hour, cs) ← fixedDigits? 2 cs
  let (minute, cs) ← fixedDigits? 2 (← mark? ':' cs)
  if hour ≤ 23 ∧ minute ≤ 59 then return (hour, minute, cs) else none

/-- The digits of a fraction as nanoseconds; what is finer is cut off. -/
def nanoseconds (ds : List Char) : Nat :=
  let kept := ds.take 9
  Numeral.natOfDigits kept * Nat.pow 10 (9 - kept.length)

def clock? (cs : List Char) : Option (Clock × List Char) := do
  let (hour, minute, cs) ← hourMinute? cs
  let (second, cs) ← fixedDigits? 2 (← mark? ':' cs)
  if 60 < second then none
  else
    match cs with
    | '.' :: cs =>
      let (ds, cs) := Numeral.digits cs
      if ds = [] then none else return (⟨hour, minute, second, nanoseconds ds⟩, cs)
    | cs => return (⟨hour, minute, second, 0⟩, cs)

/-- A zone, where one comes next; `none` for one that is broken off. -/
def zone? : List Char → Option (Option Zone × List Char)
  | [] => some (none, [])
  | c :: cs =>
    if c = 'Z' ∨ c = 'z' then some (some .universal, cs)
    else if c = '+' ∨ c = '-' then
      (hourMinute? cs).map fun (hour, minute, rest) =>
        (some (.offset (c = '-') (60 * hour + minute)), rest)
    else some (none, c :: cs)

def moment? (cs : List Char) : Option (Moment × List Char) :=
  match day? cs with
  | none => (clock? cs).map fun (t, rest) => (.time t, rest)
  | some (d, rest) =>
    match rest with
    | c :: after =>
      if c = 'T' ∨ c = 't' ∨ c = ' ' then
        match clock? after with
        | some (t, rest) => (zone? rest).map fun (z, rest) => (.both d t z, rest)
        | none => some (.date d, c :: after)
      else some (.date d, c :: after)
    | [] => some (.date d, [])

/-- Do the characters begin like a date or a time? -/
def startsMoment : List Char → Bool
  | a :: b :: ':' :: _ => a.isDigit && b.isDigit
  | a :: b :: c :: d :: '-' :: _ => a.isDigit && b.isDigit && c.isDigit && d.isDigit
  | _ => false

end PhaseCert.Toml
