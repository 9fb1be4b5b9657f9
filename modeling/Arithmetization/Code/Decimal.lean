/-!
This module contains decimal digit strings. A list of codes is written as the decimal digits of the
codes with a separator between each two of them, and read back by cutting at the separator.

A code that is read may start with one `+` and with zeros, so cutting accepts more than joining
writes.

Numbers may have many digits. They are written and read by halves, so that most steps are on small
numbers. The main statements about this are that `digits` and `value` agree with writing and reading
one digit at a time.
-/

namespace Arithmetization

theorem map_eq_map_of_mapM_eq_some {α β γ : Type} {f : α → Option β} {g : α → γ} {h : β → γ}
    (hread : ∀ a b, f a = some b → h b = g a) {as : List α} {bs : List β}
    (hbs : as.mapM f = some bs) : bs.map h = as.map g := by
  induction as generalizing bs with
  | nil =>
    obtain rfl : [] = bs := by simpa using hbs
    rfl
  | cons a as ih =>
    simp only [List.mapM_cons, Option.bind_eq_bind, Option.bind_eq_some_iff, Option.pure_def,
      Option.some.injEq] at hbs
    obtain ⟨b, hb, rest, hrest, rfl⟩ := hbs
    rw [List.map_cons, List.map_cons, hread a b hb, ih hrest]

namespace Decimal

def scale : (k : Nat) → Nat
  | 0 => 10
  | k + 1 => scale k * scale k

theorem scale_pos (k : Nat) : 0 < scale k := by
  induction k with
  | zero => decide
  | succ k ih => exact Nat.mul_pos ih ih

def lowDigits : (k : Nat) → (n : Nat) → (rest : List Char) → List Char
  | 0, n, rest => n.digitChar :: rest
  | k + 1, n, rest => lowDigits k (n / scale k) (lowDigits k (n % scale k) rest)

def allDigits : (k : Nat) → (n : Nat) → (rest : List Char) → List Char
  | 0, n, rest => n.digitChar :: rest
  | k + 1, n, rest =>
    if n < scale k then
      allDigits k n rest
    else
      allDigits k (n / scale k) (lowDigits k (n % scale k) rest)

theorem toDigits_append_lowDigits {k m n : Nat} (hm : 0 < m) (hn : n < scale k)
    (rest : List Char) :
    Nat.toDigits 10 m ++ lowDigits k n rest = Nat.toDigits 10 (m * scale k + n) ++ rest := by
  induction k generalizing m n rest with
  | zero =>
    rw [scale] at hn ⊢
    have h := Nat.toDigits_append_toDigits (by decide : 1 < 10) hm hn
    rw [Nat.toDigits_of_lt_base hn] at h
    rw [lowDigits, List.append_cons, h, Nat.mul_comm 10 m]
  | succ k ih =>
    have hp := scale_pos k
    rw [lowDigits, ih hm (Nat.div_lt_of_lt_mul hn) _, ih _ (Nat.mod_lt _ hp) _, Nat.add_mul,
      Nat.mul_assoc, Nat.add_assoc, Nat.div_add_mod', scale]
    exact Nat.lt_of_lt_of_le (Nat.mul_pos hm hp) (Nat.le_add_right _ _)

theorem allDigits_eq {k n : Nat} (hn : n < scale k) (rest : List Char) :
    allDigits k n rest = Nat.toDigits 10 n ++ rest := by
  induction k generalizing n rest with
  | zero =>
    rw [scale] at hn
    rw [allDigits, Nat.toDigits_of_lt_base hn]
    rfl
  | succ k ih =>
    rw [allDigits]
    split
    case isTrue h => exact ih h rest
    case isFalse h =>
      have hp := scale_pos k
      rw [ih (Nat.div_lt_of_lt_mul hn) _, toDigits_append_lowDigits
        (Nat.div_pos (Nat.le_of_not_lt h) hp) (Nat.mod_lt _ hp) _, Nat.div_add_mod']

theorem lt_scale (n : Nat) : n < scale (n.log2.log2 + 1) := by
  have h (k : Nat) : 2 ^ 2 ^ k ≤ scale k := by
    induction k with
    | zero => decide
    | succ k ih =>
      rw [Nat.pow_succ, Nat.pow_mul, Nat.pow_two]
      exact Nat.mul_le_mul ih ih
  calc
    n < 2 ^ (n.log2 + 1) := Nat.lt_log2_self
    _ ≤ 2 ^ 2 ^ (n.log2.log2 + 1) := Nat.pow_le_pow_right (by decide) Nat.lt_log2_self
    _ ≤ scale (n.log2.log2 + 1) := h _

def digits (n : Nat) : List Char :=
  allDigits (n.log2.log2 + 1) n []

theorem digits_eq_toDigits (n : Nat) : digits n = Nat.toDigits 10 n := by
  rw [digits, allDigits_eq (lt_scale n), List.append_nil]

def text (n : Nat) : String := String.ofList (digits n)

theorem text_eq_repr (n : Nat) : text n = n.repr := by
  rw [text, digits_eq_toDigits, Nat.repr_eq_ofList_toDigits]

def length (n : Nat) : Nat := (digits n).length

/--
Take at most as many digits off the front of a text as `scale k` has zeros. What is found is the
number that they denote, the power of ten with as many zeros as there are digits, and the rest of
the text.
-/
def takeDigits : (k : Nat) → List Char → Nat × Nat × List Char
  | 0, [] => (0, 1, [])
  | 0, c :: cs => (c.toNat - '0'.toNat, 10, cs)
  | k + 1, cs =>
    let (m, p, cs) := takeDigits k cs
    let (n, q, cs) := takeDigits k cs
    (m * q + n, p * q, cs)

theorem ofDigitChars_takeDigits (k : Nat) (cs : List Char) (init : Nat) :
    Nat.ofDigitChars 10 (takeDigits k cs).2.2 (init * (takeDigits k cs).2.1 + (takeDigits k cs).1) =
      Nat.ofDigitChars 10 cs init := by
  induction k generalizing cs init with
  | zero =>
    cases cs with
    | nil => simp [takeDigits]
    | cons c cs => rw [takeDigits, Nat.ofDigitChars_cons, Nat.mul_comm]
  | succ k ih =>
    rw [← ih cs init, ← ih (takeDigits k cs).2.2 _, takeDigits, Nat.add_mul, Nat.mul_assoc,
      Nat.add_assoc]

def value (ds : List Char) : Nat :=
  let (n, _, rest) := takeDigits (ds.length.log2 + 1) ds
  Nat.ofDigitChars 10 rest n

theorem value_eq_ofDigitChars (ds : List Char) : value ds = Nat.ofDigitChars 10 ds 0 := by
  simpa [value] using ofDigitChars_takeDigits (ds.length.log2 + 1) ds 0

@[simp]
theorem value_digits (n : Nat) : value (digits n) = n := by
  rw [value_eq_ofDigitChars, digits_eq_toDigits, Nat.ofDigitChars_ten_toDigits]

theorem isDigit_of_mem_digits {c : Char} {n : Nat} (h : c ∈ digits n) : c.isDigit := by
  rw [digits_eq_toDigits] at h
  exact Nat.isDigit_of_mem_toDigits (by decide) (by decide) h

def isDigits (cs : List Char) : Bool :=
  !cs.isEmpty && cs.all Char.isDigit

theorem isDigits_digits (n : Nat) : isDigits (digits n) = true := by
  rw [isDigits, Bool.and_eq_true, Bool.not_eq_true', List.isEmpty_eq_false_iff, List.all_eq_true]
  refine ⟨?_, fun _ h => isDigit_of_mem_digits h⟩
  rw [digits_eq_toDigits]
  exact Nat.toDigits_ne_nil

def read? (s : String) : Option Nat :=
  if isDigits s.toList then some (value s.toList) else none

def readBelow? (bound : Nat) (cs : List Char) : Option Nat :=
  let ds := match cs with
    | '+' :: ds => ds
    | ds => ds
  if isDigits ds ∧ value ds < bound then some (value ds) else none

def separatorChar (separator : UInt8) : Char :=
  Char.ofNat ('0'.toNat + separator.toNat)

def containsDigit (code : UInt32) (digit : UInt8) : Bool :=
  if (code % 10).toUInt8 = digit then
    true
  else if code / 10 = 0 then
    false
  else
    containsDigit (code / 10) digit
termination_by code.toNat
decreasing_by
  rename_i h
  rw [← UInt32.toNat_inj] at h
  simp only [UInt32.toNat_div, UInt32.reduceToNat] at h ⊢
  omega

theorem toNat_separatorChar (separator : UInt8) :
    (separatorChar separator).toNat = '0'.toNat + separator.toNat := by
  have hvalid : ('0'.toNat + separator.toNat).isValidChar := by
    left
    have := separator.toNat_lt
    simp only [Char.reduceToNat]
    omega
  rw [separatorChar, Char.ofNat, dif_pos hvalid]
  rfl

theorem digitChar_eq_separatorChar_iff {n : Nat} (hn : n < 10) (separator : UInt8) :
    n.digitChar = separatorChar separator ↔ n = separator.toNat := by
  rw [← Char.toNat_inj, Nat.toNat_digitChar_of_lt_ten hn, toNat_separatorChar]
  exact Nat.add_left_cancel_iff

theorem mem_digits_iff {c : Char} {n : Nat} :
    c ∈ digits n ↔ c = (n % 10).digitChar ∨ (10 ≤ n ∧ c ∈ digits (n / 10)) := by
  rw [digits_eq_toDigits, digits_eq_toDigits, Nat.toDigits_eq_if (by decide)]
  split
  case isTrue h =>
    have hnot : ¬ 10 ≤ n := by omega
    simp [Nat.mod_eq_of_lt h, hnot]
  case isFalse h =>
    have hle : 10 ≤ n := by omega
    simp [hle, or_comm]

theorem toUInt8_mod_ten_eq_iff (code : UInt32) (digit : UInt8) :
    (code % 10).toUInt8 = digit ↔ separatorChar digit = (code.toNat % 10).digitChar := by
  rw [eq_comm (b := (code.toNat % 10).digitChar),
    digitChar_eq_separatorChar_iff (Nat.mod_lt _ (by decide)), ← UInt8.toNat_inj]
  simp only [UInt32.toNat_toUInt8, UInt32.toNat_mod, UInt32.reduceToNat]
  omega

theorem div_ten_eq_zero_iff (code : UInt32) : code / 10 = 0 ↔ ¬ 10 ≤ code.toNat := by
  rw [← UInt32.toNat_inj]
  simp only [UInt32.toNat_div, UInt32.reduceToNat]
  omega

theorem containsDigit_eq_true_iff (code : UInt32) (digit : UInt8) :
    containsDigit code digit = true ↔ separatorChar digit ∈ digits code.toNat := by
  fun_induction containsDigit code digit with
  | case1 code h =>
    rw [mem_digits_iff, ← toUInt8_mod_ten_eq_iff]
    simp [h]
  | case2 code h hzero =>
    rw [mem_digits_iff, ← toUInt8_mod_ten_eq_iff]
    simp [h, (div_ten_eq_zero_iff code).1 hzero]
  | case3 code h hzero ih =>
    rw [div_ten_eq_zero_iff, Decidable.not_not] at hzero
    rw [ih, mem_digits_iff (n := code.toNat), ← toUInt8_mod_ten_eq_iff, UInt32.toNat_div]
    simp [h, hzero]

def joinDigits (codes : List UInt32) (separator : UInt8) : List Char :=
  List.intercalate [separatorChar separator] (codes.map fun c => digits c.toNat)

def join (codes : List UInt32) (separator : UInt8) : String :=
  String.ofList (joinDigits codes separator)

@[simp]
theorem toList_join (codes : List UInt32) (separator : UInt8) :
    (join codes separator).toList = joinDigits codes separator := by
  simp [join]

def split? (s : String) (separator : UInt8) : Option (List UInt32) :=
  (s.toList.splitOn (separatorChar separator)).mapM fun part =>
    (readBelow? UInt32.size part).map UInt32.ofNat

end Decimal

end Arithmetization
