import Mathlib.Data.List.Basic
import Mathlib.Tactic.SplitIfs

/-!
This module contains the byte order of texts. Texts are compared by their characters; the main
statement, `precedes_iff_lt`, says that comparing the bytes of their UTF-8 encodings comes to the
same.
-/

namespace Arithmetization

def Precedes (a b : String) : Prop :=
  a.toUTF8.data.toList < b.toUTF8.data.toList

theorem toList_toUTF8 (s : String) :
    s.toUTF8.data.toList = s.toList.flatMap String.utf8EncodeChar := by
  rw [String.toUTF8_eq_toByteArray, ← String.utf8Encode_toList, List.utf8Encode,
    List.toList_data_toByteArray]

theorem utf8EncodeChar_append_lt {c d : Char} (h : c < d) (bs bs' : List UInt8) :
    String.utf8EncodeChar c ++ bs < String.utf8EncodeChar d ++ bs' := by
  have hlt : c.val.toNat < d.val.toNat := h
  have hbound : d.val.toNat < 1114112 := by
    rcases d.valid with h | h
    . exact Nat.lt_trans h (by decide)
    . exact h.2
  simp only [String.utf8EncodeChar]
  generalize c.val.toNat = m at hlt ⊢
  generalize d.val.toNat = n at hlt hbound ⊢
  -- The longer of two encodings has the greater first byte; those of one length go byte by byte.
  split_ifs <;>
    simp (disch := omega) only [List.cons_append, List.nil_append, List.cons_lt_cons_iff,
      UInt8.lt_iff_toNat_lt, ← UInt8.toNat_inj, UInt8.toNat_ofNat', Nat.reducePow,
      Nat.mod_eq_of_lt] <;>
    omega

theorem flatMap_utf8EncodeChar_lt {cs ds : List Char} (h : cs < ds) :
    cs.flatMap String.utf8EncodeChar < ds.flatMap String.utf8EncodeChar := by
  induction ds generalizing cs with
  | nil => exact absurd h (List.not_lt_nil cs)
  | cons d ds ih =>
    cases cs with
    | nil =>
      obtain ⟨b, bs, hbytes⟩ := List.exists_cons_of_ne_nil (String.utf8EncodeChar_ne_nil (c := d))
      rw [List.flatMap_nil, List.flatMap_cons, hbytes]
      exact List.nil_lt_cons b _
    | cons c cs =>
      rw [List.flatMap_cons, List.flatMap_cons]
      obtain hlt | ⟨rfl, hlt⟩ := List.cons_lt_cons_iff.1 h
      . exact utf8EncodeChar_append_lt hlt _ _
      . exact List.append_left_lt (ih hlt)

theorem precedes_of_lt {a b : String} (h : a < b) : Precedes a b := by
  rw [Precedes, toList_toUTF8, toList_toUTF8]
  exact flatMap_utf8EncodeChar_lt h

theorem precedes_iff_lt {a b : String} : Precedes a b ↔ a < b := by
  constructor
  . intro h
    by_contra hnot
    have hle : b ≤ a := String.not_lt.1 hnot
    by_cases heq : a = b
    . rw [heq] at h
      exact List.lt_irrefl _ h
    . have hgt : b < a := String.not_le.1 fun hab => heq (String.le_antisymm hab hle)
      exact List.lt_asymm h (precedes_of_lt hgt)
  . exact precedes_of_lt

theorem precedes_asymm {a b : String} (h : Precedes a b) : ¬ Precedes b a :=
  List.lt_asymm h

theorem precedes_total {a b : String} (h : a ≠ b) : Precedes a b ∨ Precedes b a := by
  simp only [precedes_iff_lt, ← String.not_le]
  by_contra hnot
  obtain ⟨hba, hab⟩ := not_or.1 hnot
  exact h (String.le_antisymm (not_not.1 hab) (not_not.1 hba))

end Arithmetization
