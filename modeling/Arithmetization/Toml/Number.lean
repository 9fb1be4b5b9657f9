import Arithmetization.Code.Decimal
import Arithmetization.Toml.Value

/-!
This module contains the numbers of TOML documents. Digits may be grouped by single underscores.
Integers are written in decimal without leading zeros, or without sign in base sixteen, eight or
two; they must fit in 128 bits, and floating-point numbers must not exceed the range of 64-bit ones.
-/

namespace Arithmetization

namespace Toml

def digitRun? (isDigit : Char → Bool) (cs : List Char) : Option (List Char) :=
  let groups := cs.splitOn '_'
  if groups.all fun g => !g.isEmpty && g.all isDigit then some groups.flatten else none

def decimalRun? (cs : List Char) : Option (List Char) := do
  let ds ← digitRun? Char.isDigit cs
  if ds.head? = some '0' ∧ ds.length ≠ 1 then none else some ds

def digitValue (c : Char) : Nat :=
  if c.isDigit then c.toNat - '0'.toNat else 10 + (c.toLower.toNat - 'a'.toNat)

def isDigitIn (base : Nat) (c : Char) : Bool :=
  (c.isDigit || ('a' ≤ c.toLower && c.toLower ≤ 'f')) && digitValue c < base

def radixInteger? (base : Nat) (cs : List Char) : Option Int := do
  let ds ← digitRun? (isDigitIn base) cs
  return ds.foldl (fun n c => base * n + digitValue c) 0

def integer? (cs : List Char) : Option Int := do
  let n ← match cs with
    | '0' :: 'x' :: ds => radixInteger? 16 ds
    | '0' :: 'o' :: ds => radixInteger? 8 ds
    | '0' :: 'b' :: ds => radixInteger? 2 ds
    | '+' :: ds => (decimalRun? ds).map fun ds => (Decimal.value ds : Int)
    | '-' :: ds => (decimalRun? ds).map fun ds => -(Decimal.value ds : Int)
    | ds => (decimalRun? ds).map fun ds => (Decimal.value ds : Int)
  if (-n).toNat ≤ 1 <<< 127 ∧ n.toNat < 1 <<< 128 then some n else none

/--
Whether a positive number of so many units of a power of ten rounds to a finite 64-bit float. Its
digits alone decide unless they begin near the largest such float, which has 309 of them.
-/
def roundsToFinite (significand : Nat) (exponent : Int) : Bool :=
  let places := Decimal.length significand + exponent
  if significand = 0 ∨ places < 309 then
    true
  else if 309 < places then
    false
  else
    significand * Nat.pow 10 exponent.toNat <
      ((1 <<< 1024) - (1 <<< 970)) * Nat.pow 10 (-exponent).toNat

def exponent? : List Char → Option Int
  | '+' :: ds => (digitRun? Char.isDigit ds).map fun ds => (Decimal.value ds : Int)
  | '-' :: ds => (digitRun? Char.isDigit ds).map fun ds => -(Decimal.value ds : Int)
  | ds => (digitRun? Char.isDigit ds).map fun ds => (Decimal.value ds : Int)

def significand? (cs : List Char) : Option (List Char × List Char) :=
  match cs.splitOn '.' with
  | [whole] => do
    let whole ← decimalRun? whole
    return (whole, [])
  | [whole, part] => do
    let whole ← decimalRun? whole
    let part ← digitRun? Char.isDigit part
    return (whole, part)
  | _ => none

def isUnsignedFloat (cs : List Char) : Bool :=
  if cs = "inf".toList ∨ cs = "nan".toList then
    true
  else
    match cs.splitOn 'e' with
    | [body] =>
      match significand? body with
      | some (whole, part) =>
        body.contains '.' && roundsToFinite (Decimal.value (whole ++ part)) (-part.length)
      | none => false
    | [body, exponent] =>
      match significand? body, exponent? exponent with
      | some (whole, part), some e =>
        roundsToFinite (Decimal.value (whole ++ part)) (e - part.length)
      | _, _ => false
    | _ => false

def isFloat (cs : List Char) : Bool :=
  let cs := cs.map fun c => if c = 'E' then 'e' else c
  match cs with
  | '+' :: rest => isUnsignedFloat rest
  | '-' :: rest => isUnsignedFloat rest
  | rest => isUnsignedFloat rest

end Toml

end Arithmetization
