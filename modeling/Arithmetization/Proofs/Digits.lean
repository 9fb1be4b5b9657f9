import Arithmetization.Proofs.ByteOrder
import Arithmetization.Proofs.Cutting

/-!
This module contains the reading of digit strings. The texts that are read are those of which each
byte in UTF-8 is an ASCII digit. What is read is the number whose decimal rendering is the text
without its leading zeros, so reading undoes writing and loses nothing but these zeros.
-/

namespace Arithmetization

theorem utf8EncodeChar_of_le {c : Char} (hc : c.toNat ≤ 127) :
    String.utf8EncodeChar c = [c.toUInt8] := by
  apply String.utf8EncodeChar_eq_singleton
  rw [Char.utf8Size_eq_one_iff, UInt32.le_iff_toNat_le]
  exact hc

theorem continuation_mem_utf8EncodeChar {c : Char} (hc : ¬ c.toNat ≤ 127) :
    UInt8.ofNat (c.toNat % 64 + 128) ∈ String.utf8EncodeChar c := by
  have hlong : ¬ c.val.toNat ≤ 127 := hc
  simp only [String.utf8EncodeChar, if_neg hlong]
  split_ifs <;> simp

namespace Decimal

def IsDigitByte (b : UInt8) : Prop :=
  '0'.toUInt8 ≤ b ∧ b ≤ '9'.toUInt8

theorem isDigitByte_toUInt8_iff {c : Char} (hc : c.toNat ≤ 127) :
    IsDigitByte c.toUInt8 ↔ c.isDigit = true := by
  have hbyte : c.toUInt8.toNat = c.toNat := Nat.mod_eq_of_lt (Nat.lt_of_le_of_lt hc (by decide))
  rw [IsDigitByte, UInt8.le_iff_toNat_le, UInt8.le_iff_toNat_le, hbyte, Char.isDigit_iff_toNat]
  rfl

theorem not_isDigitByte_continuation (n : Nat) : ¬ IsDigitByte (UInt8.ofNat (n % 64 + 128)) := by
  rintro ⟨-, hle⟩
  rw [UInt8.le_iff_toNat_le, UInt8.toNat_ofNat'] at hle
  have hnine : '9'.toUInt8.toNat = 57 := rfl
  omega

theorem isDigitByte_utf8EncodeChar_iff {c : Char} :
    (∀ b ∈ String.utf8EncodeChar c, IsDigitByte b) ↔ c.isDigit = true := by
  by_cases hc : c.toNat ≤ 127
  . rw [utf8EncodeChar_of_le hc, List.forall_mem_singleton]
    exact isDigitByte_toUInt8_iff hc
  -- A longer character is no digit, and neither is its last byte.
  . constructor
    . intro h
      exact absurd (h _ (continuation_mem_utf8EncodeChar hc)) (not_isDigitByte_continuation _)
    . intro h
      have := toNat_of_isDigit h
      omega

variable {s : String} {ds : List Char} {n : Nat}

theorem isDigits_iff_toUTF8 :
    isDigits s.toList = true ↔ s ≠ "" ∧ ∀ b ∈ s.toUTF8.data.toList, IsDigitByte b := by
  rw [isDigits, Bool.and_eq_true, Bool.not_eq_true', List.isEmpty_eq_false_iff, List.all_eq_true,
    ne_eq, ne_eq, String.toList_eq_nil_iff, toList_toUTF8]
  simp only [List.forall_mem_flatMap, isDigitByte_utf8EncodeChar_iff]

theorem utf8ByteSize_of_isDigits (h : isDigits s.toList = true) : s.utf8ByteSize = s.length := by
  rw [isDigits, Bool.and_eq_true, List.all_eq_true] at h
  have hsize : ∀ c ∈ s.toList, (String.utf8EncodeChar c).length = 1 := by
    intro c hc
    have := toNat_of_isDigit (h.2 c hc)
    rw [utf8EncodeChar_of_le (by omega), List.length_singleton]
  rw [← String.length_toList, ← String.size_toByteArray, ← String.toUTF8_eq_toByteArray,
    ← ByteArray.size_data, ← Array.length_toList, toList_toUTF8, List.length_flatMap,
    List.map_congr_left hsize]
  simp

theorem withoutZeros_suffix (ds : List Char) : withoutZeros ds <:+ ds := by
  fun_induction withoutZeros ds with
  | case1 c ds ih => exact ih.trans (List.suffix_cons _ _)
  | case2 ds => exact List.suffix_rfl

theorem withoutZeros_eq_self_iff :
    withoutZeros ds = ds ↔ ds.length = 1 ∨ ds.head? ≠ some '0' := by
  fun_cases withoutZeros ds with
  | case1 c ds =>
    have hlt := (withoutZeros_suffix (c :: ds)).length_le
    constructor
    . intro h
      rw [h, List.length_cons] at hlt
      omega
    . simp
  | case2 ds hzeros =>
    obtain rfl | hhead := eq_zero_or_head?_ne hzeros
    . simp
    . simp [hhead]

theorem length_withoutZeros_eq_iff :
    (withoutZeros ds).length = ds.length ↔ ds.length = 1 ∨ ds.head? ≠ some '0' := by
  rw [← withoutZeros_eq_self_iff]
  constructor
  . exact (withoutZeros_suffix ds).eq_of_length
  . exact congrArg List.length

theorem withoutZeros_eq_ite (hne : ds ≠ []) :
    withoutZeros ds = if ds.all (· == '0') then ['0'] else ds.dropWhile (· == '0') := by
  fun_induction withoutZeros ds with
  | case1 c ds ih =>
    rw [ih (List.cons_ne_nil c ds)]
    rfl
  | case2 ds hzeros =>
    obtain rfl | hhead := eq_zero_or_head?_ne hzeros
    . rfl
    . obtain ⟨c, rest, rfl⟩ := List.exists_cons_of_ne_nil hne
      have hc : c ≠ '0' := by simpa using hhead
      simp [hc]

theorem read?_eq_some_iff : read? s = some n ↔ withoutZeros s.toList = digits n := by
  rw [read?, Option.ite_none_right_eq_some, Option.some.injEq, withoutZeros_eq_digits_iff]

theorem exists_read?_iff : (∃ n, read? s = some n) ↔ isDigits s.toList = true := by
  constructor
  . rintro ⟨n, h⟩
    exact (withoutZeros_eq_digits_iff.1 (read?_eq_some_iff.1 h)).1
  . intro h
    exact ⟨value s.toList, if_pos h⟩

theorem read?_repr (n : Nat) : read? n.repr = some n := by
  rw [read?, toList_repr, if_pos (isDigits_digits n), value_digits]

theorem read?_exact (s : String) :
    ((∃ n, read? s = some n) ↔ s ≠ "" ∧ ∀ b ∈ s.toUTF8.data.toList, IsDigitByte b) ∧
      (∀ n, read? s = some n →
        n.repr.toList =
            (if s.toList.all (· == '0') then ['0'] else s.toList.dropWhile (· == '0')) ∧
          s.utf8ByteSize = s.length ∧ length n ≤ s.length ∧
          (length n = s.length ↔ s.length = 1 ∨ s.toList.head? ≠ some '0')) ∧
      ∀ n : Nat, read? n.repr = some n := by
  refine ⟨?_, ?_, read?_repr⟩
  . rw [exists_read?_iff, isDigits_iff_toUTF8]
  . intro n h
    have hn := read?_eq_some_iff.1 h
    have hdigits := (withoutZeros_eq_digits_iff.1 hn).1
    have hne : s.toList ≠ [] := by
      intro hnil
      rw [hnil] at hdigits
      contradiction
    rw [toList_repr, length, ← hn, ← String.length_toList]
    refine ⟨withoutZeros_eq_ite hne, ?_, (withoutZeros_suffix _).length_le,
      length_withoutZeros_eq_iff⟩
    rw [utf8ByteSize_of_isDigits hdigits, String.length_toList]

theorem read?_exact_leading_zeros :
    read? "0018446744073709551616" = some 18446744073709551616 ∧
      (Nat.repr 18446744073709551616).toList = "18446744073709551616".toList ∧
      length 18446744073709551616 < 22 ∧
      read? (Nat.repr 18446744073709551616) = some 18446744073709551616 := by
  obtain ⟨-, hread, hrepr⟩ := read?_exact "0018446744073709551616"
  have h : read? "0018446744073709551616" = some 18446744073709551616 := rfl
  obtain ⟨hrendered, -, hle, heq⟩ := hread _ h
  refine ⟨h, hrendered, ?_, hrepr _⟩
  apply Nat.lt_of_le_of_ne hle
  rw [heq]
  rintro (hlength | hhead)
  . contradiction
  . exact hhead rfl

end Decimal

end Arithmetization
