import Arithmetization.Language.Naming
import Arithmetization.Proofs.ByteOrder

/-!
This module contains the theory of variable names. Reading a name and writing it are inverse to each
other, so that exactly the written names are read. In UTF-8 the letter and the star are one byte
each, and two texts with the same bytes are equal, so a name is known by its bytes as well.
-/

namespace Arithmetization

namespace Variable

variable {s : String} {v : Variable}

theorem ofName?_eq_some_iff : ofName? s = some v ↔ s = v.name := by
  rw [← String.toList_inj, toList_name, letters, ofName?]
  split
  next stars h =>
    rw [h, List.cons_inj_right, List.eq_replicate_iff, Option.ite_none_right_eq_some,
      List.all_eq_true, Option.some.injEq]
    simp only [decide_eq_true_eq]
    constructor
    . rintro ⟨⟨hstars, hlength⟩, rfl⟩
      exact ⟨(UInt32.toNat_ofNat_of_lt' hlength).symm, hstars⟩
    . rintro ⟨hlength, hstars⟩
      have hlt : stars.length < UInt32.size := hlength ▸ v.stars.toNat_lt
      refine ⟨⟨hstars, hlt⟩, ?_⟩
      rw [eq_iff, ← hlength]
      exact UInt32.toNat_ofNat_of_lt' hlt
  next hletter =>
    simp only [reduceCtorEq, false_iff]
    intro h
    exact hletter _ h

theorem parse_eq_ok_iff : parse s = .ok v ↔ s = v.name := by
  rw [← ofName?_eq_some_iff, parse]
  cases ofName? s with
  | none => simp
  | some w => simp

theorem parse_eq_error_iff {e : Error} :
    parse s = .error e ↔ e = .invalidVariable s ∧ ∀ v : Variable, s ≠ v.name := by
  have hnames : ofName? s = none ↔ ∀ v : Variable, s ≠ v.name := by
    simp only [Option.eq_none_iff_forall_ne_some, ne_eq, ofName?_eq_some_iff]
  rw [← hnames, parse]
  cases ofName? s with
  | none => simp [eq_comm]
  | some w => simp

theorem exists_name_iff :
    (∃ v : Variable, s = v.name) ↔
      ∃ n, n < UInt32.size ∧ s.toList = 'x' :: List.replicate n '*' := by
  constructor
  . rintro ⟨v, rfl⟩
    exact ⟨v.stars.toNat, v.stars.toNat_lt, toList_name v⟩
  . rintro ⟨n, hn, h⟩
    refine ⟨⟨UInt32.ofNat n⟩, ?_⟩
    rw [← String.toList_inj, toList_name, letters, h, UInt32.toNat_ofNat_of_lt' hn]

theorem toList_toUTF8_name (v : Variable) :
    v.name.toUTF8.data.toList = 'x'.toUInt8 :: List.replicate v.stars.toNat '*'.toUInt8 := by
  have hletter : String.utf8EncodeChar 'x' = ['x'.toUInt8] := by decide
  have hstar : String.utf8EncodeChar '*' = ['*'.toUInt8] := by decide
  rw [toList_toUTF8, toList_name, letters, List.flatMap_cons, List.flatMap_replicate, hletter,
    hstar, List.flatten_replicate_singleton, List.singleton_append]

theorem eq_name_iff_toUTF8 :
    s = v.name ↔
      s.toUTF8.data.toList = 'x'.toUInt8 :: List.replicate v.stars.toNat '*'.toUInt8 := by
  rw [← toList_toUTF8_name, Array.toList_inj, ← ByteArray.ext_iff, String.toUTF8_eq_toByteArray,
    String.toUTF8_eq_toByteArray, String.toByteArray_inj]

theorem parse_exact (s : String) :
    (∀ v, parse s = .ok v ↔ s = v.name) ∧
      (∀ e, parse s = .error e ↔ e = .invalidVariable s ∧ ∀ v : Variable, s ≠ v.name) ∧
      (∀ v : Variable, s = v.name ↔
        s.toUTF8.data.toList = 'x'.toUInt8 :: List.replicate v.stars.toNat '*'.toUInt8) ∧
      ((∃ v : Variable, s = v.name) ↔
        ∃ n, n < UInt32.size ∧ s.toList = 'x' :: List.replicate n '*') := by
  refine ⟨?_, ?_, ?_, exists_name_iff⟩
  . intro v
    exact parse_eq_ok_iff
  . intro e
    exact parse_eq_error_iff
  . intro v
    exact eq_name_iff_toUTF8

end Variable

end Arithmetization
