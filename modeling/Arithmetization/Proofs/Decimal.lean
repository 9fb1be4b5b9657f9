import Arithmetization.Code.Decimal
import Mathlib.Data.List.Basic

/-!
This module contains the theory of digit strings. A digit string without a leading zero is the
decimal rendering of the number that it denotes, and cutting undoes joining for codes that do not
contain the separator.
-/

namespace Arithmetization

namespace Decimal

theorem toNat_of_isDigit {c : Char} (h : c.isDigit = true) : 48 ≤ c.toNat ∧ c.toNat ≤ 57 := by
  rw [Char.isDigit, Bool.and_eq_true, decide_eq_true_eq, decide_eq_true_eq] at h
  exact h

theorem digitChar_of_isDigit {c : Char} (h : c.isDigit = true) :
    (c.toNat - '0'.toNat).digitChar = c := by
  have hc := toNat_of_isDigit h
  rw [← Char.toNat_inj, Nat.toNat_digitChar_of_lt_ten]
  . simp only [Char.reduceToNat]
    omega
  . simp only [Char.reduceToNat]
    omega

theorem digits_append_eq {m : Nat} {ds : List Char} (hm : 0 < m)
    (hds : ∀ c ∈ ds, c.isDigit = true) :
    digits m ++ ds = digits (Nat.ofDigitChars 10 ds m) := by
  induction ds generalizing m with
  | nil => simp [Nat.ofDigitChars_nil]
  | cons c ds ih =>
    have hc := hds c (List.mem_cons_self ..)
    have hlt : c.toNat - '0'.toNat < 10 := by
      have := toNat_of_isDigit hc
      simp only [Char.reduceToNat]
      omega
    -- The digit in front joins the rendering, and the rest follows a positive number again.
    have hstep : digits m ++ [c] = digits (10 * m + (c.toNat - '0'.toNat)) := by
      rw [digits_eq_toDigits, digits_eq_toDigits, ← Nat.toDigits_append_toDigits (by omega) hm hlt,
        Nat.toDigits_of_lt_base hlt, digitChar_of_isDigit hc]
    rw [Nat.ofDigitChars_cons, ← ih, ← hstep, List.append_assoc, List.singleton_append]
    . omega
    . intro d hd
      exact hds d (List.mem_cons_of_mem _ hd)

theorem digits_value {ds : List Char} (hds : isDigits ds = true) (hhead : ds.head? ≠ some '0') :
    digits (value ds) = ds := by
  rw [isDigits, Bool.and_eq_true, Bool.not_eq_true', List.isEmpty_eq_false_iff,
    List.all_eq_true] at hds
  obtain ⟨c, cs, rfl⟩ := List.exists_cons_of_ne_nil hds.1
  have hc := hds.2 c (List.mem_cons_self ..)
  have hbounds := toNat_of_isDigit hc
  have hzero : c.toNat ≠ '0'.toNat := by
    intro h
    apply hhead
    rw [List.head?_cons, Char.toNat_inj.1 h]
  have hlt : c.toNat - '0'.toNat < 10 := by
    simp only [Char.reduceToNat]
    omega
  have hpos : 0 < c.toNat - '0'.toNat := by
    simp only [Char.reduceToNat] at hzero ⊢
    omega
  have hfirst : digits (c.toNat - '0'.toNat) = [c] := by
    rw [digits_eq_toDigits, Nat.toDigits_of_lt_base hlt, digitChar_of_isDigit hc]
  rw [value_eq_ofDigitChars, Nat.ofDigitChars_cons, Nat.mul_zero, Nat.zero_add, ← digits_append_eq,
    hfirst, List.singleton_append]
  . exact hpos
  . intro d hd
    exact hds.2 d (List.mem_cons_of_mem _ hd)

theorem toList_repr (n : Nat) : n.repr.toList = digits n := by
  rw [← text_eq_repr, text, String.toList_ofList]

theorem digits_ne_nil (n : Nat) : digits n ≠ [] := by
  rw [digits_eq_toDigits]
  exact Nat.toDigits_ne_nil

theorem head?_digits_ne_zero {n : Nat} (hn : n ≠ 0) : (digits n).head? ≠ some '0' := by
  induction n using Nat.strongRecOn with
  | ind n ih =>
    rw [digits_eq_toDigits, Nat.toDigits_eq_if (by omega)]
    split
    case isTrue h => simpa using hn
    case isFalse h =>
      -- The rendering begins as that of the number without its last digit.
      rw [List.head?_append_of_ne_nil _ Nat.toDigits_ne_nil, ← digits_eq_toDigits]
      apply ih
      . omega
      . omega

variable {codes : List UInt32} {separator : UInt8}

theorem isDigit_separatorChar (h : separator ≤ 9) : (separatorChar separator).isDigit = true := by
  have hnat : separator.toNat < 10 := by
    rw [UInt8.le_iff_toNat_le] at h
    simp only [UInt8.reduceToNat] at h
    omega
  rw [← (digitChar_eq_separatorChar_iff hnat separator).2 rfl, Nat.isDigit_digitChar]
  simpa using hnat

@[simp]
theorem joinDigits_singleton (code : UInt32) :
    joinDigits [code] separator = digits code.toNat := by
  simp [joinDigits]

@[simp]
theorem joinDigits_cons_cons (code next : UInt32) :
    joinDigits (code :: next :: codes) separator =
      digits code.toNat ++ separatorChar separator :: joinDigits (next :: codes) separator := by
  simp [joinDigits]

theorem prefix_joinDigits (codes rest : List UInt32) (separator : UInt8) :
    joinDigits codes separator <+: joinDigits (codes ++ rest) separator := by
  induction codes with
  | nil => exact List.nil_prefix
  | cons code codes ih =>
    cases codes with
    | nil =>
      cases rest with
      | nil => exact List.prefix_rfl
      | cons next rest =>
        rw [joinDigits_singleton, List.singleton_append, joinDigits_cons_cons]
        exact List.prefix_append _ _
    | cons next codes =>
      rw [List.cons_append, List.cons_append, joinDigits_cons_cons, joinDigits_cons_cons,
        List.prefix_append_right_inj, List.cons_prefix_cons]
      exact ⟨rfl, ih⟩

theorem suffix_joinDigits (codes rest : List UInt32) (separator : UInt8) :
    joinDigits rest separator <:+ joinDigits (codes ++ rest) separator := by
  cases rest with
  | nil => exact List.nil_suffix
  | cons next rest =>
    induction codes with
    | nil => exact List.suffix_rfl
    | cons code codes ih =>
      apply ih.trans
      cases codes with
      | nil | cons _ _ =>
        simp only [List.cons_append, List.nil_append, joinDigits_cons_cons]
        exact (List.suffix_cons _ _).trans (List.suffix_append _ _)

theorem isDigits_joinDigits (h : separator ≤ 9) (hne : codes ≠ []) :
    isDigits (joinDigits codes separator) = true := by
  induction codes with
  | nil => contradiction
  | cons code codes ih =>
    cases codes with
    | nil =>
      rw [joinDigits_singleton]
      apply isDigits_digits
    | cons next codes =>
      specialize ih (by simp)
      have hfirst := isDigits_digits code.toNat
      have hsep := isDigit_separatorChar h
      rw [isDigits, Bool.and_eq_true] at ih hfirst ⊢
      rw [joinDigits_cons_cons]
      simp [hfirst.2, hsep, ih.2]

theorem head?_joinDigits (code : UInt32) :
    (joinDigits (code :: codes) separator).head? = (digits code.toNat).head? := by
  cases codes with
  | nil => rw [joinDigits_singleton]
  | cons next codes =>
    rw [joinDigits_cons_cons, List.head?_append_of_ne_nil]
    apply digits_ne_nil

theorem head?_joinDigits_ne_zero (hzero : ∀ c ∈ codes, c ≠ 0) :
    (joinDigits codes separator).head? ≠ some '0' := by
  cases codes with
  | nil => simp [joinDigits]
  | cons code codes =>
    rw [head?_joinDigits]
    apply head?_digits_ne_zero
    intro h
    apply hzero code (List.mem_cons_self ..)
    rw [← UInt32.toNat_inj, h]
    rfl

theorem digits_value_joinDigits (h : separator ≤ 9) (hne : codes ≠ [])
    (hzero : ∀ c ∈ codes, c ≠ 0) :
    digits (value (joinDigits codes separator)) = joinDigits codes separator := by
  apply digits_value
  . exact isDigits_joinDigits h hne
  . exact head?_joinDigits_ne_zero hzero

theorem readBelow?_of_isDigits {bound : Nat} {ds : List Char} (h : isDigits ds = true) :
    readBelow? bound ds = if value ds < bound then some (value ds) else none := by
  unfold readBelow?
  split
  case h_1 rest => simp [isDigits] at h
  case h_2 => simp [h]

theorem read_code (code : UInt32) :
    (readBelow? UInt32.size (digits code.toNat)).map UInt32.ofNat = some code := by
  rw [readBelow?_of_isDigits (isDigits_digits _), value_digits, if_pos code.toNat_lt,
    Option.map_some, UInt32.ofNat_toNat]

theorem split?_join (hne : codes ≠ [])
    (hsep : ∀ c ∈ codes, ¬ separatorChar separator ∈ digits c.toNat) :
    split? (join codes separator) separator = some codes := by
  rw [split?, toList_join, joinDigits, List.splitOn_intercalate]
  . rw [List.mapM_map]
    simp only [Function.comp_def, read_code]
    have hall : codes.mapM some = some (codes.map id) := List.mapM_pure
    rw [List.map_id] at hall
    exact hall
  . simpa using hsep
  . simpa using hne

end Decimal

end Arithmetization
