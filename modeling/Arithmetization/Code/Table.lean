import Arithmetization.Code.Decimal
import Arithmetization.Log

/-!
This module contains code tables. A table gives every symbol a code and fixes the separator digit
that stands between two codes. Its validity makes numbering unambiguous: codes are positive, no two
symbols share one, and the separator is a digit that occurs in none of them.

The main statement, `fault?_eq_none_iff`, says that the search for a fault finds none exactly in
valid tables; building a table runs this search and so reports the first fault in symbol order.
-/

namespace Arithmetization

namespace CodeTable

structure Valid (code : Symbol → UInt32) (separator : UInt8) : Prop where
  separator_le : separator ≤ 9
  code_ne_zero : ∀ s, code s ≠ 0
  separator_not_mem : ∀ s,
    ¬ Decimal.separatorChar separator ∈ Decimal.digits (code s).toNat
  injective : ∀ s t, code s = code t → s = t

def earlier (s : Symbol) : List Symbol :=
  Symbol.alphabet.take s.index

theorem mem_earlier_iff {s t : Symbol} : t ∈ earlier s ↔ t.index < s.index := by
  revert s t
  decide

def faultAt? (code : Symbol → UInt32) (separator : UInt8) (s : Symbol) : Option Error :=
  if code s = 0 then
    some (.zeroCode s)
  else if Decimal.containsDigit (code s) separator then
    some (.separatorInCode s (code s) separator)
  else
    ((earlier s).find? fun t => code t = code s).map fun t => .duplicateCode (code s) t s

theorem faultAt?_eq_none_iff {code : Symbol → UInt32} {separator : UInt8} {s : Symbol} :
    faultAt? code separator s = none ↔
      code s ≠ 0 ∧ ¬ Decimal.separatorChar separator ∈ Decimal.digits (code s).toNat ∧
        ∀ t, t.index < s.index → code t ≠ code s := by
  rw [← Decimal.containsDigit_eq_true_iff]
  unfold faultAt?
  split
  . simp [*]
  . split
    . simp [*]
    . simp [*, List.find?_eq_none, mem_earlier_iff]

def fault? (code : Symbol → UInt32) (separator : UInt8) : Option Error :=
  if 9 < separator then
    some (.invalidSeparator separator)
  else
    Symbol.alphabet.findSome? (faultAt? code separator)

theorem fault?_eq_none_iff {code : Symbol → UInt32} {separator : UInt8} :
    fault? code separator = none ↔ Valid code separator := by
  unfold fault?
  split
  . rename_i h
    simp only [reduceCtorEq, false_iff]
    exact fun hv => absurd hv.separator_le (UInt8.not_le.2 h)
  . rename_i h
    simp only [List.findSome?_eq_none_iff, Symbol.mem_alphabet, forall_const,
      faultAt?_eq_none_iff]
    constructor
    . refine fun hf => ⟨UInt8.not_lt.1 h, fun s => (hf s).1, fun s => (hf s).2.1, ?_⟩
      intro s t hst
      -- Of two symbols that share a code, the later one is at fault.
      rcases Nat.lt_trichotomy s.index t.index with hlt | heq | hgt
      . exact absurd hst ((hf t).2.2 s hlt)
      . exact Symbol.index_injective (Fin.ext heq)
      . exact absurd hst.symm ((hf s).2.2 t hgt)
    . refine fun hv s => ⟨hv.code_ne_zero s, hv.separator_not_mem s, ?_⟩
      intro t hts hc
      rw [hv.injective t s hc] at hts
      exact Nat.lt_irrefl _ hts

end CodeTable

structure CodeTable where
  code : Symbol → UInt32
  separator : UInt8
  valid : CodeTable.Valid code separator

namespace CodeTable

theorem ext {t u : CodeTable} (hcode : ∀ s, t.code s = u.code s)
    (hseparator : t.separator = u.separator) : t = u := by
  cases t
  cases u
  obtain rfl := funext hcode
  obtain rfl := hseparator
  rfl

instance : DecidableEq CodeTable := fun t u =>
  decidable_of_iff ((∀ s, t.code s = u.code s) ∧ t.separator = u.separator)
    ⟨fun h => ext h.1 h.2, fun h => h ▸ ⟨fun _ => rfl, rfl⟩⟩

def ofCodes (code : Symbol → UInt32) (separator : UInt8) : Except Error CodeTable :=
  match h : fault? code separator with
  | none => .ok ⟨code, separator, fault?_eq_none_iff.1 h⟩
  | some e => .error e

def standard : CodeTable :=
  ⟨Symbol.standardCode, 0, by decide, by decide, by decide, by decide⟩

instance : Inhabited CodeTable := ⟨standard⟩

def isFaultless (t : CodeTable) : Bool :=
  (fault? t.code t.separator).isNone

theorem isFaultless_eq_true (t : CodeTable) : t.isFaultless = true := by
  simp [isFaultless, fault?_eq_none_iff.2 t.valid]

def toPairs (t : CodeTable) : List (Symbol × UInt32) :=
  Symbol.alphabet.map fun s => (s, t.code s)

end CodeTable

end Arithmetization
