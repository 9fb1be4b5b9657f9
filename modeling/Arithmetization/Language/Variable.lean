/-!
This module contains the variables of the language of arithmetic. A variable is the letter `x`
followed by stars, so its star count determines it; star counts are 32-bit words.
-/

namespace Arithmetization

structure Variable where
  stars : UInt32
deriving DecidableEq, Ord

namespace Variable

def x : Variable := ⟨0⟩

def next (v : Variable) : Variable := ⟨v.stars + 1⟩

def letters (v : Variable) : List Char :=
  'x' :: List.replicate v.stars.toNat '*'

def name (v : Variable) : String :=
  String.ofList v.letters

@[simp]
theorem toList_name (v : Variable) : v.name.toList = v.letters := by
  simp [name]

instance : LT Variable := ⟨fun v w => v.stars < w.stars⟩

instance (v w : Variable) : Decidable (v < w) :=
  inferInstanceAs (Decidable (v.stars < w.stars))

theorem lt_iff {v w : Variable} : v < w ↔ v.stars.toNat < w.stars.toNat :=
  UInt32.lt_iff_toNat_lt

theorem eq_iff {v w : Variable} : v = w ↔ v.stars.toNat = w.stars.toNat := by
  cases v
  cases w
  simp [UInt32.toNat_inj]

theorem lt_trans {u v w : Variable} (huv : u < v) (hvw : v < w) : u < w := by
  rw [lt_iff] at *
  omega

theorem lt_irrefl (v : Variable) : ¬ v < v := by
  rw [lt_iff]
  omega

theorem lt_or_eq_or_gt (v w : Variable) : v < w ∨ v = w ∨ w < v := by
  rw [lt_iff, lt_iff, eq_iff]
  omega

end Variable

end Arithmetization
