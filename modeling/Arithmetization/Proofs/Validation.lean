import Arithmetization.Code.Table
import Mathlib.Tactic.ByContra

/-!
This module contains the validation of code tables. A symbol is at fault if its code is zero, has
the separator among its digits, or is the code of an earlier symbol. Codes make a table if no symbol
is at fault and the separator is a digit; otherwise the error is about the first symbol at fault.
-/

namespace Arithmetization

namespace Symbol

theorem alphabet_ascending : alphabet.Pairwise fun s t => s.index < t.index := by
  decide

theorem findSome?_alphabet_eq_some_iff {α : Type} {f : Symbol → Option α} {a : α} :
    alphabet.findSome? f = some a ↔ ∃ s, f s = some a ∧ ∀ t, t.index < s.index → f t = none := by
  rw [List.findSome?_eq_some_iff]
  constructor
  . rintro ⟨before, s, after, hsplit, hs, hbefore⟩
    refine ⟨s, hs, ?_⟩
    intro t hts
    have hascending := alphabet_ascending
    have ht := mem_alphabet t
    rw [hsplit] at hascending ht
    rw [List.pairwise_append, List.pairwise_cons] at hascending
    rw [List.mem_append, List.mem_cons] at ht
    rcases ht with ht | rfl | ht
    . exact hbefore t ht
    . exact absurd hts (Nat.lt_irrefl _)
    . exact absurd hts (Nat.lt_asymm (hascending.2.1.1 t ht))
  . rintro ⟨s, hs, hearlier⟩
    obtain ⟨before, after, hsplit⟩ := List.append_of_mem (mem_alphabet s)
    refine ⟨before, s, after, hsplit, hs, ?_⟩
    intro t ht
    have hascending := alphabet_ascending
    rw [hsplit, List.pairwise_append] at hascending
    exact hearlier t (hascending.2.2 t ht s (List.mem_cons_self ..))

end Symbol

namespace CodeTable

variable {code : Symbol → UInt32} {separator : UInt8} {s : Symbol} {e : Error}

def HasSeparator (code : Symbol → UInt32) (separator : UInt8) (s : Symbol) : Prop :=
  Decimal.separatorChar separator ∈ Decimal.digits (code s).toNat

def AtFault (code : Symbol → UInt32) (separator : UInt8) (s : Symbol) : Prop :=
  code s = 0 ∨ HasSeparator code separator s ∨ ∃ t, t.index < s.index ∧ code t = code s

/--
The error that reports a symbol at fault. Of several faults of one symbol, a code of zero comes
first, then the separator, then the one earlier symbol with the same code.
-/
inductive Reported (code : Symbol → UInt32) (separator : UInt8) (s : Symbol) : Error → Prop where
  | zeroCode (hzero : code s = 0) : Reported code separator s (.zeroCode s)
  | separatorInCode (hpos : code s ≠ 0) (hseparator : HasSeparator code separator s) :
    Reported code separator s (.separatorInCode s (code s) separator)
  | duplicateCode {t : Symbol} (hpos : code s ≠ 0) (hseparator : ¬ HasSeparator code separator s)
    (hearlier : t.index < s.index) (hcode : code t = code s)
    (hunique : ∀ u, u.index < s.index → code u = code s → u = t) :
    Reported code separator s (.duplicateCode (code s) t s)

theorem faultAt?_eq_none_iff_not_atFault :
    faultAt? code separator s = none ↔ ¬ AtFault code separator s := by
  rw [faultAt?_eq_none_iff, AtFault, HasSeparator]
  grind

theorem eq_of_not_atFault (h : ∀ t, t.index < s.index → ¬ AtFault code separator t)
    {t u : Symbol} (ht : t.index < s.index) (hu : u.index < s.index) (hcode : code t = code u) :
    t = u := by
  rcases Nat.lt_trichotomy t.index u.index with hlt | heq | hgt
  . exact absurd (.inr (.inr ⟨t, hlt, hcode⟩)) (h u hu)
  . exact Symbol.index_injective (Fin.ext heq)
  . exact absurd (.inr (.inr ⟨u, hgt, hcode.symm⟩)) (h t ht)

theorem faultAt?_of_reported (h : Reported code separator s e) :
    faultAt? code separator s = some e := by
  cases h with
  | zeroCode hzero => rw [faultAt?, if_pos hzero]
  | separatorInCode hpos hseparator =>
    rw [faultAt?, if_neg hpos, if_pos ((Decimal.containsDigit_eq_true_iff _ _).2 hseparator)]
  | @duplicateCode t hpos hseparator hearlier hcode hunique =>
    rw [faultAt?, if_neg hpos, if_neg (mt (Decimal.containsDigit_eq_true_iff _ _).1 hseparator)]
    -- Something is found, since `t` is there to be found, and nothing else is.
    have hfound : ((earlier s).find? fun u => code u = code s).isSome = true := by
      rw [List.find?_isSome]
      exact ⟨t, mem_earlier_iff.2 hearlier, by simpa using hcode⟩
    obtain ⟨u, hu⟩ := Option.isSome_iff_exists.1 hfound
    have hcodeu : code u = code s := by simpa using List.find?_some hu
    have hut : u = t := hunique u (mem_earlier_iff.1 (List.mem_of_find?_eq_some hu)) hcodeu
    rw [hu, hut, Option.map_some]

theorem exists_reported (hs : AtFault code separator s)
    (hearlier : ∀ t, t.index < s.index → ¬ AtFault code separator t) :
    ∃ e, Reported code separator s e := by
  by_cases hzero : code s = 0
  . exact ⟨_, .zeroCode hzero⟩
  . by_cases hseparator : HasSeparator code separator s
    . exact ⟨_, .separatorInCode hzero hseparator⟩
    . obtain h | h | ⟨t, ht, hcode⟩ := hs
      . contradiction
      . contradiction
      . refine ⟨_, .duplicateCode hzero hseparator ht hcode ?_⟩
        intro u hu hcodeu
        exact eq_of_not_atFault hearlier hu ht (hcodeu.trans hcode.symm)

theorem atFault_of_reported (h : Reported code separator s e) : AtFault code separator s := by
  cases h with
  | zeroCode hzero => exact .inl hzero
  | separatorInCode hpos hseparator => exact .inr (.inl hseparator)
  | duplicateCode hpos hseparator hearlier hcode hunique => exact .inr (.inr ⟨_, hearlier, hcode⟩)

theorem faultAt?_eq_some_iff (hearlier : ∀ t, t.index < s.index → ¬ AtFault code separator t) :
    faultAt? code separator s = some e ↔ Reported code separator s e := by
  constructor
  . intro h
    have hs : AtFault code separator s := by
      by_contra hs
      rw [faultAt?_eq_none_iff_not_atFault.2 hs] at h
      contradiction
    obtain ⟨e', he'⟩ := exists_reported hs hearlier
    rw [faultAt?_of_reported he', Option.some.injEq] at h
    rwa [← h]
  . exact faultAt?_of_reported

def FirstReported (code : Symbol → UInt32) (separator : UInt8) (e : Error) : Prop :=
  ∃ s, AtFault code separator s ∧ (∀ t, t.index < s.index → ¬ AtFault code separator t) ∧
    Reported code separator s e

theorem findSome?_faultAt?_eq_some_iff :
    Symbol.alphabet.findSome? (faultAt? code separator) = some e ↔
      FirstReported code separator e := by
  rw [Symbol.findSome?_alphabet_eq_some_iff]
  simp only [faultAt?_eq_none_iff_not_atFault]
  constructor
  . rintro ⟨s, hs, hearlier⟩
    rw [faultAt?_eq_some_iff hearlier] at hs
    exact ⟨s, atFault_of_reported hs, hearlier, hs⟩
  . rintro ⟨s, _, hearlier, hs⟩
    exact ⟨s, faultAt?_of_reported hs, hearlier⟩

theorem fault?_eq_some_iff :
    fault? code separator = some e ↔
      (9 < separator ∧ e = .invalidSeparator separator) ∨
        (separator ≤ 9 ∧ FirstReported code separator e) := by
  rw [fault?]
  split
  next h => simp [h, UInt8.not_le.2 h, eq_comm]
  next h => simp [h, UInt8.not_lt.1 h, findSome?_faultAt?_eq_some_iff]

theorem ofCodes_eq_ok_iff {t : CodeTable} :
    ofCodes code separator = .ok t ↔
      Valid code separator ∧ t.code = code ∧ t.separator = separator := by
  rw [ofCodes]
  split
  next h =>
    rw [Except.ok.injEq]
    constructor
    . rintro rfl
      exact ⟨fault?_eq_none_iff.1 h, rfl, rfl⟩
    . rintro ⟨_, hcode, hseparator⟩
      exact ext (fun s => (congrFun hcode s).symm) hseparator.symm
  next e h =>
    simp only [reduceCtorEq, false_iff]
    rintro ⟨hvalid, _⟩
    rw [fault?_eq_none_iff.2 hvalid] at h
    contradiction

theorem ofCodes_eq_error_iff :
    ofCodes code separator = .error e ↔ fault? code separator = some e := by
  rw [ofCodes]
  split
  next h => simp [h]
  next h => simp [h]

theorem exists_ofCodes_eq_ok_iff :
    (∃ t, ofCodes code separator = .ok t) ↔ Valid code separator := by
  constructor
  . rintro ⟨t, ht⟩
    exact (ofCodes_eq_ok_iff.1 ht).1
  . intro h
    exact ⟨⟨code, separator, h⟩, ofCodes_eq_ok_iff.2 ⟨h, rfl, rfl⟩⟩

theorem ofCodes_outcome (code : Symbol → UInt32) (separator : UInt8) :
    ((∃ t, ofCodes code separator = .ok t) ↔
        separator ≤ 9 ∧ (∀ s, code s ≠ 0) ∧ (∀ s t, code s = code t → s = t) ∧
          ∀ s, ¬ HasSeparator code separator s) ∧
      (∀ t, ofCodes code separator = .ok t ↔
        Valid code separator ∧ t.code = code ∧ t.separator = separator) ∧
      ∀ e, ofCodes code separator = .error e ↔
        (9 < separator ∧ e = .invalidSeparator separator) ∨
          (separator ≤ 9 ∧ FirstReported code separator e) := by
  refine ⟨?_, fun t => ofCodes_eq_ok_iff, fun e => ?_⟩
  . rw [exists_ofCodes_eq_ok_iff]
    constructor
    . intro h
      exact ⟨h.separator_le, h.code_ne_zero, h.injective, h.separator_not_mem⟩
    . rintro ⟨hle, hzero, hinjective, hseparator⟩
      exact ⟨hle, hzero, hseparator, hinjective⟩
  . rw [ofCodes_eq_error_iff, fault?_eq_some_iff]

end CodeTable

end Arithmetization
