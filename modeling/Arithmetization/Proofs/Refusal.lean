import Arithmetization.Proofs.Diagonal
import Arithmetization.Proofs.Numbering

/-!
This module contains the refusals of the diagonal construction. The variables of the template decide
which obstacle is reported, if any; if none is, the numeral of the code may still be too large, but
only in unary form and under a limit.
-/

namespace Arithmetization

namespace VariableSet

theorem size_le_one_iff {v : Variable} {s : VariableSet} (hv : v ∈ s) :
    s.size ≤ 1 ↔ s = singleton v := by
  constructor
  . intro hsize
    apply ext
    intro w
    rw [mem_singleton]
    constructor
    . exact eq_of_mem_of_size_le_one hsize hv
    . rintro rfl
      exact hv
  . rintro rfl
    exact Nat.le_refl _

end VariableSet

namespace Diagonalizer

variable {d : Diagonalizer} {f : Formula} {v : Variable} {e : Error}

theorem check_cases (f : Formula) (v : Variable) :
    (¬ v ∈ f.freeVariables ∧ check f v = .error (.unsubstitutable v .notFree)) ∨
      (v ∈ f.freeVariables ∧ v ∈ f.boundVariables ∧
        check f v = .error (.unsubstitutable v .boundElsewhere)) ∨
      (v ∈ f.freeVariables ∧ ¬ v ∈ f.boundVariables ∧ f.freeVariables ≠ .singleton v ∧
        check f v = .error (.unsubstitutable v .otherFreeVariables)) ∨
      (v ∈ f.freeVariables ∧ ¬ v ∈ f.boundVariables ∧ f.freeVariables = .singleton v ∧
        check f v = .ok ()) := by
  by_cases hfree : v ∈ f.freeVariables
  . have hsize := VariableSet.size_le_one_iff hfree
    have hoccurs := Formula.mem_freeVariables.1 hfree
    by_cases hbound : v ∈ f.boundVariables
    . right; left
      exact ⟨hfree, hbound, by simp [check, hoccurs, hbound]⟩
    . by_cases hsingle : f.freeVariables = .singleton v
      . right; right; right
        exact ⟨hfree, hbound, hsingle, check_eq_ok_iff.2 ⟨hoccurs, hbound, hsize.2 hsingle⟩⟩
      . right; right; left
        have hmany : 1 < f.freeVariables.size := Nat.lt_of_not_le (mt hsize.1 hsingle)
        exact ⟨hfree, hbound, hsingle, by simp [check, hoccurs, hbound, hmany]⟩
  . left
    refine ⟨hfree, check_of_not_occursFree ?_⟩
    rwa [Formula.mem_freeVariables, Bool.not_eq_true] at hfree

def Exceeds (d : Diagonalizer) (code limit : Nat) : Prop :=
  d.form = .unary ∧ d.limit = some limit ∧ limit < code

theorem numeral_eq_error {code limit : Nat} (h : d.Exceeds code limit) :
    (d.numeral code).result = .error (.numeralTooLarge code limit) := by
  obtain ⟨hform, hlimit, hlt⟩ := h
  rw [result_numeral, hform, hlimit]
  exact if_pos hlt

theorem exists_numeral {code : Nat} (h : ¬ ∃ limit, d.Exceeds code limit) :
    ∃ c, (d.numeral code).result = .ok c := by
  rw [result_numeral]
  split
  next => exact ⟨_, rfl⟩
  next limit hform hlimit =>
    split
    next hlt => exact absurd ⟨limit, hform, hlimit, hlt⟩ h
    next => exact ⟨_, rfl⟩
  next => exact ⟨_, rfl⟩

theorem diagonalize_of_check_eq_error (h : check f v = .error e) :
    (d.diagonalize f v).result = .error e := by
  rw [result_diagonalize, h]
  rfl

theorem diagonalize_of_numeral_eq_error (hcheck : check f v = .ok ())
    (h : (d.numeral (d.table.number f.word)).result = .error e) :
    (d.diagonalize f v).result = .error e := by
  rw [result_diagonalize, hcheck, h]
  rfl

theorem diagonalize_of_exceeds {limit : Nat} (hcheck : check f v = .ok ())
    (h : d.Exceeds (d.table.number f.word) limit) :
    (d.diagonalize f v).result = .error (.numeralTooLarge (d.table.number f.word) limit) := by
  apply diagonalize_of_numeral_eq_error hcheck
  exact numeral_eq_error h

theorem exists_diagonalize (hcheck : check f v = .ok ())
    (h : ¬ ∃ limit, d.Exceeds (d.table.number f.word) limit) :
    ∃ s, (d.diagonalize f v).result = .ok s := by
  obtain ⟨c, hc⟩ := exists_numeral h
  exact ⟨f.subst v c, diagonalize_eq_ok_iff.2 ⟨hcheck, c, hc, rfl⟩⟩

theorem diagonalize_outcome (d : Diagonalizer) (f : Formula) (v : Variable) :
    ∃ code, d.table.number? f.word = some code ∧
      ((d.diagonalize f v).result = .error (.unsubstitutable v .notFree) ↔
        ¬ v ∈ f.freeVariables) ∧
      ((d.diagonalize f v).result = .error (.unsubstitutable v .boundElsewhere) ↔
        v ∈ f.freeVariables ∧ v ∈ f.boundVariables) ∧
      ((d.diagonalize f v).result = .error (.unsubstitutable v .otherFreeVariables) ↔
        v ∈ f.freeVariables ∧ ¬ v ∈ f.boundVariables ∧ f.freeVariables ≠ .singleton v) ∧
      (∀ value limit, (d.diagonalize f v).result = .error (.numeralTooLarge value limit) ↔
        v ∈ f.freeVariables ∧ ¬ v ∈ f.boundVariables ∧ f.freeVariables = .singleton v ∧
          d.form = .unary ∧ d.limit = some limit ∧ limit < code ∧ value = code) ∧
      ((∃ s, (d.diagonalize f v).result = .ok s) ↔
        v ∈ f.freeVariables ∧ ¬ v ∈ f.boundVariables ∧ f.freeVariables = .singleton v ∧
          ¬ (d.form = .unary ∧ ∃ limit, d.limit = some limit ∧ limit < code)) := by
  refine ⟨d.table.number f.word, d.table.number?_eq_some f.word_ne_nil, ?_⟩
  obtain ⟨hfree, hcheck⟩ | ⟨hfree, hbound, hcheck⟩ | ⟨hfree, hbound, hsingle, hcheck⟩ |
    ⟨hfree, hbound, hsingle, hcheck⟩ := check_cases f v
  . simp [diagonalize_of_check_eq_error hcheck, hfree]
  . simp [diagonalize_of_check_eq_error hcheck, hfree, hbound]
  . simp [diagonalize_of_check_eq_error hcheck, hfree, hbound, hsingle]
  . -- No obstacle is left, so that the size of the numeral decides.
    by_cases hexceeds : ∃ limit, d.Exceeds (d.table.number f.word) limit
    . obtain ⟨limit, h⟩ := hexceeds
      rw [diagonalize_of_exceeds hcheck h]
      obtain ⟨hform, hlimit, hlt⟩ := h
      simp only [hbound, hsingle, hform, hlimit]
      grind
    . obtain ⟨s, hs⟩ := exists_diagonalize hcheck hexceeds
      rw [hs]
      simp only [Exceeds] at hexceeds
      grind

end Diagonalizer

end Arithmetization
