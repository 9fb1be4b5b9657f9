import Arithmetization.Proofs.Numbering
import Mathlib.Algebra.Group.Nat.Defs

/-!
This module contains the growth of Gödel numbers. The number of a word has two digits or more for
each symbol, while a term of as many symbols denotes far less. So the number of a formula exceeds
whatever is denoted by the terms in it, and the number of a term exceeds what the term denotes.
-/

namespace Arithmetization

namespace Decimal

theorem ten_pow_le {n k : Nat} (hk : 0 < k) (h : k < length n) : 10 ^ k ≤ n := by
  apply Nat.le_of_not_lt
  intro hn
  rw [length, digits_eq_toDigits] at h
  have := (Nat.length_toDigits_le_iff (by decide) hk).2 hn
  omega

theorem lt_of_length_lt {m n : Nat} (h : length m < length n) : m < n := by
  have hpos : 0 < length m := List.length_pos_iff.2 (digits_ne_nil m)
  have hm : m < 10 ^ length m := by
    rw [length, digits_eq_toDigits] at hpos ⊢
    exact (Nat.length_toDigits_le_iff (by decide) hpos).1 (Nat.le_refl _)
  exact Nat.lt_of_lt_of_le hm (ten_pow_le hpos h)

end Decimal

namespace CodeTable

/--
The digits that a word takes if a separator stands behind every code, the last one included.
-/
def width (t : CodeTable) : Word → Nat
  | [] => 0
  | s :: w => (Decimal.digits (t.code s).toNat).length + 1 + t.width w

variable (t : CodeTable) {w w' : Word}

theorem length_joinDigits_codes (hw : w ≠ []) :
    (Decimal.joinDigits (t.codes w) t.separator).length + 1 = t.width w := by
  induction w with
  | nil => contradiction
  | cons s w ih =>
    cases w with
    | nil => simp [codes, width]
    | cons s' w =>
      specialize ih (by simp)
      rw [codes, List.map_cons] at ih ⊢
      rw [List.map_cons, Decimal.joinDigits_cons_cons, List.length_append, List.length_cons, width]
      omega

theorem length_number (hw : w ≠ []) : Decimal.length (t.number w) + 1 = t.width w := by
  rw [Decimal.length, t.digits_number hw, digits, Decimal.toList_join, t.length_joinDigits_codes hw]

theorem width_of_sublist (h : w'.Sublist w) :
    t.width w' + 2 * w.length ≤ t.width w + 2 * w'.length := by
  induction h with
  | slnil => exact Nat.le_refl _
  | cons s _ ih =>
    have hpos := List.length_pos_iff.2 (Decimal.digits_ne_nil (t.code s).toNat)
    rw [width, List.length_cons]
    omega
  | cons_cons s _ ih =>
    rw [width, width, List.length_cons, List.length_cons]
    omega

theorem two_mul_length_le (hw : w ≠ []) : 2 * w.length ≤ Decimal.length (t.number w) + 1 := by
  have hwidth := t.width_of_sublist (List.nil_sublist w)
  rw [width, List.length_nil] at hwidth
  rw [t.length_number hw]
  omega

theorem hundred_pow_le_number {n : Nat} (hn : 0 < n) (hw : n < w.length) :
    100 ^ n ≤ t.number w := by
  have hlength := t.two_mul_length_le (List.ne_nil_of_length_pos (Nat.zero_lt_of_lt hw))
  rw [show 100 = 10 ^ 2 from rfl, ← Nat.pow_mul]
  apply Decimal.ten_pow_le
  . omega
  . omega

theorem number_pos (hw : w ≠ []) : 0 < t.number w := by
  apply Nat.pos_of_ne_zero
  intro hzero
  have hhead : (t.digits w).toList.head? ≠ some '0' := by
    rw [digits, Decimal.toList_join]
    exact Decimal.head?_joinDigits_ne_zero fun _ => t.ne_zero_of_mem_codes
  rw [← t.digits_number hw, hzero] at hhead
  exact hhead rfl

theorem number_lt_of_sublist (hw' : w' ≠ []) (h : w'.Sublist w) (hlt : w'.length < w.length) :
    t.number w' < t.number w := by
  have hwidth := t.width_of_sublist h
  have hnumber := t.length_number (List.ne_nil_of_length_pos (Nat.zero_lt_of_lt hlt))
  have hnumber' := t.length_number hw'
  apply Decimal.lt_of_length_lt
  omega

theorem number_le_of_sublist (hw' : w' ≠ []) (h : w'.Sublist w) : t.number w' ≤ t.number w := by
  by_cases heq : w'.length = w.length
  . exact Nat.le_of_eq (congrArg t.number (h.eq_of_length heq))
  . apply Nat.le_of_lt
    exact t.number_lt_of_sublist hw' h (Nat.lt_of_le_of_ne h.length_le heq)

end CodeTable

namespace Term

theorem value?_succ_eq_some_iff {t : Term} {n : Nat} :
    t.succ.value? = some n ↔ ∃ m, t.value? = some m ∧ m + 1 = n := by
  simp [value?, Option.bind_eq_some_iff]

theorem value?_add_eq_some_iff {l r : Term} {k : Nat} :
    (l.add r).value? = some k ↔ ∃ m n, l.value? = some m ∧ r.value? = some n ∧ m + n = k := by
  simp [value?, Option.bind_eq_some_iff]

theorem value?_mul_eq_some_iff {l r : Term} {k : Nat} :
    (l.mul r).value? = some k ↔ ∃ m n, l.value? = some m ∧ r.value? = some n ∧ m * n = k := by
  simp [value?, Option.bind_eq_some_iff]

theorem value?_lt {t : Term} {n : Nat} (h : t.value? = some n) : n < 2 ^ t.size := by
  induction t generalizing n with
  | zero =>
    cases h
    decide
  | var v => contradiction
  | succ t ih =>
    obtain ⟨m, hm, rfl⟩ := value?_succ_eq_some_iff.1 h
    specialize ih hm
    rw [size, Nat.pow_add]
    omega
  | add l r ihl ihr =>
    obtain ⟨m, n, hm, hn, rfl⟩ := value?_add_eq_some_iff.1 h
    specialize ihl hm
    specialize ihr hn
    have hl : 2 ^ l.size ≤ 2 ^ (l.size + r.size) := Nat.pow_le_pow_right (by decide) (by omega)
    have hr : 2 ^ r.size ≤ 2 ^ (l.size + r.size) := Nat.pow_le_pow_right (by decide) (by omega)
    rw [size, Nat.add_assoc, Nat.pow_add]
    omega
  | mul l r ihl ihr =>
    obtain ⟨m, n, hm, hn, rfl⟩ := value?_mul_eq_some_iff.1 h
    have hproduct : m * n < 2 ^ l.size * 2 ^ r.size := Nat.mul_lt_mul'' (ihl hm) (ihr hn)
    rw [size, Nat.add_assoc, Nat.pow_add, Nat.pow_add]
    omega

end Term

namespace Word

def Takes (n : Nat) (write : Word → Word) : Prop :=
  ∀ rest, n + rest.length ≤ (write rest).length

theorem Takes.mono {m n : Nat} {write : Word → Word} (h : Takes n write) (hmn : m ≤ n) :
    Takes m write := by
  intro rest
  specialize h rest
  omega

theorem takes_enclosed {m n : Nat} {l r : Word → Word} (hl : Takes m l) (hr : Takes n r)
    (operator : Symbol) : Takes (3 + m + n) (enclosed operator l r) := by
  intro rest
  specialize hl (operator :: r (.rightParen :: rest))
  specialize hr (.rightParen :: rest)
  simp only [enclosed, List.length_cons] at hl hr ⊢
  omega

theorem takes_quantified {n : Nat} {body : Word → Word} (h : Takes n body) (quantifier : Symbol)
    (v : Variable) : Takes (4 + n) (quantified quantifier v body) := by
  intro rest
  specialize h (.rightParen :: rest)
  simp only [quantified, Variable.spell, List.length_cons, List.length_append] at h ⊢
  omega

end Word

open Word

theorem Formula.one_lt_size (f : Formula) : 1 < f.size := by
  cases f with
  | equal l r | less l r | proof l r =>
    have := l.size_pos
    have := r.size_pos
    rw [size]
    omega
  | not f | all _ f | ex _ f =>
    have := f.size_pos
    rw [size]
    omega
  | and l r | or l r =>
    have := l.size_pos
    rw [size]
    omega

theorem Term.takes_spell (t : Term) : Takes t.size t.spell := by
  induction t with
  | zero =>
    intro rest
    simp [size, spell, Nat.add_comm]
  | var v =>
    intro rest
    simp only [size, spell, Variable.spell, List.length_cons, List.length_append]
    omega
  | succ t ih =>
    intro rest
    specialize ih (.rightParen :: rest)
    simp only [size, spell, List.length_cons] at ih ⊢
    omega
  | add l r ihl ihr | mul l r ihl ihr =>
    apply (takes_enclosed ihl ihr _).mono
    rw [size]
    omega

theorem Term.size_le_length_word (t : Term) : t.size ≤ t.word.length :=
  t.takes_spell []

theorem Formula.takes_spell (f : Formula) : Takes f.size f.spell := by
  induction f with
  | equal l r | less l r | proof l r =>
    apply (takes_enclosed l.takes_spell r.takes_spell _).mono
    rw [size]
    omega
  | not f ih =>
    intro rest
    specialize ih rest
    simp only [size, spell, List.length_cons]
    omega
  | and l r ihl ihr | or l r ihl ihr =>
    apply (takes_enclosed ihl ihr _).mono
    rw [size]
    omega
  | all v f ih | ex v f ih =>
    apply (takes_quantified ih _ v).mono
    rw [size]
    omega

theorem Formula.size_le_length_word (f : Formula) : f.size ≤ f.word.length :=
  f.takes_spell []

theorem Formula.takes_five (f : Formula) : Takes 5 f.spell := by
  induction f with
  | equal l r | less l r | proof l r =>
    apply (takes_enclosed l.takes_spell r.takes_spell _).mono
    have := l.size_pos
    have := r.size_pos
    omega
  | not f ih =>
    intro rest
    specialize ih rest
    rw [spell, List.length_cons]
    omega
  | and l r ihl ihr | or l r ihl ihr =>
    apply (takes_enclosed ihl ihr _).mono
    omega
  | all v f ih | ex v f ih =>
    apply (takes_quantified ih _ v).mono
    omega

namespace CodeTable

theorem hundred_pow_size_le_number (t : CodeTable) {r : Term} {f : Formula} (h : r.size < f.size) :
    100 ^ r.size ≤ t.number f.word := by
  apply t.hundred_pow_le_number r.size_pos
  exact Nat.lt_of_lt_of_le h f.size_le_length_word

theorem value_lt_number (t : CodeTable) {c : Term} {f : Formula} {n : Nat} (h : c.size < f.size)
    (hc : c.value? = some n) : n < t.number f.word :=
  calc
    n < 2 ^ c.size := Term.value?_lt hc
    _ ≤ 100 ^ c.size := Nat.pow_le_pow_left (by decide) _
    _ ≤ t.number f.word := t.hundred_pow_size_le_number h

theorem value_lt_number_word (t : CodeTable) {c : Term} {n : Nat} (hc : c.value? = some n) :
    n < t.number c.word := by
  by_cases hsize : 1 < c.size
  . calc
      n < 2 ^ c.size := Term.value?_lt hc
      _ ≤ 2 ^ (6 * (c.size - 1)) := Nat.pow_le_pow_right (by decide) (by omega)
      _ = 64 ^ (c.size - 1) := Nat.pow_mul ..
      _ ≤ 100 ^ (c.size - 1) := Nat.pow_le_pow_left (by decide) _
      _ ≤ t.number c.word := by
        have := c.size_le_length_word
        apply t.hundred_pow_le_number
        . omega
        . omega
  . -- The only closed term of a single node denotes zero.
    cases c with
    | zero =>
      cases hc
      exact t.number_pos (Term.word_ne_nil .zero)
    | var v => contradiction
    | succ u =>
      have := u.size_pos
      rw [Term.size] at hsize
      omega
    | add l r | mul l r =>
      have := l.size_pos
      rw [Term.size] at hsize
      omega

theorem six_mul_size_lt (t : CodeTable) {r c : Term} {f : Formula} (h : r.size < f.size)
    (hc : c.value? = some (t.number f.word)) : 6 * r.size < c.size := by
  rw [← Nat.pow_lt_pow_iff_right (by decide : 1 < 2)]
  calc
    2 ^ (6 * r.size) = (2 ^ 6) ^ r.size := Nat.pow_mul ..
    _ ≤ 100 ^ r.size := Nat.pow_le_pow_left (by decide) _
    _ ≤ t.number f.word := t.hundred_pow_size_le_number h
    _ < 2 ^ c.size := Term.value?_lt hc

end CodeTable

end Arithmetization
