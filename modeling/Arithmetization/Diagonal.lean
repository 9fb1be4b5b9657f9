import Arithmetization.Code.Number
import Arithmetization.Numeral

/-!
This module contains the diagonal construction. From a template, a formula with one free variable,
it makes the sentence that says of the template's own code what the template says of its variable:
a numeral of the code takes the place of the variable.

The variable must be free in the template, bound nowhere in it, and its only free variable, in this
order of precedence among the refusals.
-/

namespace Arithmetization

inductive NumeralForm where
  | unary
  | compact
deriving DecidableEq

structure Diagonalizer where
  table : CodeTable := .standard
  form : NumeralForm := .unary
  limit : Option Nat := some 10000
deriving DecidableEq

namespace Diagonalizer

instance : Inhabited Diagonalizer := ⟨{}⟩

def numeral (d : Diagonalizer) (code : Nat) : Attempt Term :=
  match d.form, d.limit with
  | .compact, _ => compactNumeral code
  | .unary, some limit => boundedNumeral code limit
  | .unary, none => standardNumeral code

theorem result_numeral (d : Diagonalizer) (code : Nat) :
    (d.numeral code).result =
      match d.form, d.limit with
      | .compact, _ => .ok (.compact code)
      | .unary, some limit =>
        if limit < code then .error (.numeralTooLarge code limit) else .ok (.chain code)
      | .unary, none => .ok (.chain code) := by
  unfold numeral
  cases d.form with
  | compact => rfl
  | unary =>
    cases d.limit with
    | none => rfl
    | some limit =>
      simp only [boundedNumeral]
      split
      . rfl
      . rfl

def check (f : Formula) (v : Variable) : Except Error Unit :=
  if ¬ f.occursFree v then
    .error (.unsubstitutable v .notFree)
  else if v ∈ f.boundVariables then
    .error (.unsubstitutable v .boundElsewhere)
  else if 1 < f.freeVariables.size then
    .error (.unsubstitutable v .otherFreeVariables)
  else
    .ok ()

def diagonalize (d : Diagonalizer) (f : Formula) (v : Variable) : Attempt Formula := do
  liftExcept (check f v)
  let code ← d.table.encode f.word
  let numeral ← d.numeral code
  let sentence := f.subst v numeral
  Logged.emit (.diagonalized v (Decimal.length code) sentence.size)
  return sentence

theorem result_diagonalize (d : Diagonalizer) (f : Formula) (v : Variable) :
    (d.diagonalize f v).result = do
      check f v
      let numeral ← (d.numeral (d.table.number f.word)).result
      return f.subst v numeral := by
  simp [diagonalize]

end Diagonalizer

def unprovability (x y : Variable) : Formula :=
  .all y (.not (.proof (.var y) (.var x)))

def Diagonalizer.goedelSentence (d : Diagonalizer) : Attempt Formula :=
  d.diagonalize (unprovability .x Variable.x.next) .x

end Arithmetization
