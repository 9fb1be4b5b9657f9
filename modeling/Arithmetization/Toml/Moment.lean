import Arithmetization.Code.Decimal

/-!
This module contains the dates and times of TOML documents: a date, a time, or both, and with both
of them the distance from universal time. Fields have a fixed number of digits. A time may leave out
the seconds.
-/

namespace Arithmetization

namespace Toml

def daysInMonth (year month : Nat) : Nat :=
  if month = 2 then
    if year % 4 = 0 ∧ (year % 100 ≠ 0 ∨ year % 400 = 0) then 29 else 28
  else if month = 4 ∨ month = 6 ∨ month = 9 ∨ month = 11 then
    30
  else
    31

def field? (digits : Nat) (cs : List Char) : Option (Nat × List Char) :=
  let ds := cs.take digits
  if ds.length = digits ∧ Decimal.isDigits ds then
    some (Decimal.value ds, cs.drop digits)
  else
    none

def mark? (c : Char) : List Char → Option (List Char)
  | d :: rest => if d = c then some rest else none
  | [] => none

def date? (cs : List Char) : Option (List Char) := do
  let (year, cs) ← field? 4 cs
  let cs ← mark? '-' cs
  let (month, cs) ← field? 2 cs
  let cs ← mark? '-' cs
  let (day, cs) ← field? 2 cs
  if 1 ≤ month ∧ month ≤ 12 ∧ 1 ≤ day ∧ day ≤ daysInMonth year month then some cs else none

def clock? (cs : List Char) : Option (List Char) := do
  let (hour, cs) ← field? 2 cs
  let cs ← mark? ':' cs
  let (minute, cs) ← field? 2 cs
  if hour ≤ 23 ∧ minute ≤ 59 then some cs else none

def fraction? : List Char → Option (List Char)
  | '.' :: cs => if (cs.head?.any Char.isDigit) then some (cs.dropWhile Char.isDigit) else none
  | cs => some cs

def second? : List Char → Option (List Char)
  | ':' :: cs => do
    let (second, cs) ← field? 2 cs
    -- The second 60 is a leap second.
    if second ≤ 60 then fraction? cs else none
  | cs => some cs

def time? (cs : List Char) : Option (List Char) := do
  let cs ← clock? cs
  second? cs

def offset? : List Char → Option (List Char)
  | 'Z' :: cs => some cs
  | 'z' :: cs => some cs
  | '+' :: cs => clock? cs
  | '-' :: cs => clock? cs
  | _ => none

def isDate (cs : List Char) : Bool :=
  date? cs = some []

def isMoment (cs : List Char) : Bool :=
  match date? cs with
  | some [] => true
  | some (c :: rest) =>
    (c = 'T' ∨ c = 't' ∨ c = ' ') &&
      match time? rest with
      | some [] => true
      | some rest => offset? rest = some []
      | none => false
  | none => time? cs = some []

end Toml

end Arithmetization
