import Arithmetization.Code.Table
import Arithmetization.Code.Word

/-!
This module contains the numbering of words. The codes of the symbols of a word, written in decimal
and separated, form a digit string; the number that it denotes is the Gödel number of the word.
-/

namespace Arithmetization

namespace CodeTable

def codes (t : CodeTable) (w : Word) : List UInt32 :=
  w.map t.code

def codeTexts (t : CodeTable) (w : Word) : List String :=
  (t.codes w).map fun c => Decimal.text c.toNat

def digits (t : CodeTable) (w : Word) : String :=
  Decimal.join (t.codes w) t.separator

def number? (t : CodeTable) (w : Word) : Option Nat :=
  Decimal.read? (t.digits w)

def number (t : CodeTable) (w : Word) : Nat :=
  (t.number? w).getD 0

def encode (t : CodeTable) (w : Word) : Logged Nat := do
  let digits := t.digits w
  Logged.emit (.assembled digits)
  Logged.emit (.encoded w.length digits.length)
  return t.number w

@[simp]
theorem answer_encode (t : CodeTable) (w : Word) : (t.encode w).answer = t.number w := by
  simp [encode]

end CodeTable

end Arithmetization
