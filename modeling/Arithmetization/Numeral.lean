import Arithmetization.Code.Decimal
import Arithmetization.Language.Term
import Arithmetization.Log

/-!
This module contains numerals, which are closed terms that denote a given number. The standard
numeral of `n` is the chain of `n` successors over zero. The compact numeral is built from the
binary digits of `n` by Horner's rule, so that its size grows with the number of these digits.
-/

namespace Arithmetization

namespace Term

def chain (n : Nat) : Term :=
  Nat.repeat Term.succ n .zero

@[simp]
theorem chain_zero : chain 0 = .zero := rfl

@[simp]
theorem chain_succ (n : Nat) : chain (n + 1) = .succ (chain n) := rfl

theorem value?_chain (n : Nat) : (chain n).value? = some n := by
  induction n with
  | zero => rfl
  | succ n ih => simp [value?, ih]

def twice (t : Term) : Term :=
  .mul (.succ (.succ .zero)) t

def hornerStep (t? : Option Term) (digit : Bool) : Term :=
  match t? with
  -- The first digit is always one.
  | none => .succ .zero
  | some t => if digit then .succ t.twice else t.twice

def horner (n : Nat) : Nat → Option Term → Option Term
  | 0, t? => t?
  | k + 1, t? => horner n k (some (hornerStep t? (n.testBit k)))

end Term

def bitLength (n : Nat) : Nat :=
  if n = 0 then 0 else n.log2 + 1

namespace Term

def compact (n : Nat) : Term :=
  (horner n (bitLength n) none).getD .zero

end Term

def chainNumeral (n : Nat) : Logged Term := do
  Logged.emit (.standardNumeral n)
  return Term.chain n

def compactNumeral (n : Nat) : Logged Term := do
  let t := Term.compact n
  Logged.emit (.compactNumeral t.size (bitLength n))
  return t

@[simp]
theorem answer_compactNumeral (n : Nat) : (compactNumeral n).answer = .compact n := rfl

def standardNumeral : Int → Attempt Term
  | .negSucc n => throw (.negativeNumeral (.negSucc n))
  | .ofNat n => chainNumeral n

@[simp]
theorem result_standardNumeral (n : Nat) : (standardNumeral n).result = .ok (.chain n) := rfl

def boundedNumeral (value : Int) (limit : Nat) : Attempt Term :=
  match value with
  | .negSucc n => throw (.negativeNumeral (.negSucc n))
  | .ofNat n => do
    if limit < n then
      Logged.emit (.rejectedNumeral (Decimal.length n) limit)
      throw (.numeralTooLarge n limit)
    chainNumeral n

end Arithmetization
