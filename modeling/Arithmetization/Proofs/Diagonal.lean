import Arithmetization.Diagonal
import Arithmetization.Proofs.Numeral
import Arithmetization.Proofs.Substitution

/-!
This module contains the correctness of the diagonal construction. What it makes of a template is a
sentence, and the term in the place of the variable is a closed term that denotes the code of the
template.
-/

namespace Arithmetization

namespace VariableSet

theorem eq_of_mem_of_size_le_one {v w : Variable} {s : VariableSet} (h : s.size ≤ 1) (hv : v ∈ s)
    (hw : w ∈ s) : w = v := by
  have hlength : s.toList.length = 1 := by
    have := List.length_pos_of_mem (mem_toList.2 hv)
    rw [size] at h
    omega
  obtain ⟨u, hu⟩ := List.length_eq_one_iff.1 hlength
  rw [← mem_toList, hu, List.mem_singleton] at hv hw
  rw [hv, hw]

end VariableSet

namespace Diagonalizer

theorem check_of_not_occursFree {f : Formula} {v : Variable} (h : f.occursFree v = false) :
    check f v = .error (.unsubstitutable v .notFree) := by
  simp [check, h]

theorem check_eq_ok_iff {f : Formula} {v : Variable} :
    check f v = .ok () ↔
      f.occursFree v = true ∧ ¬ v ∈ f.boundVariables ∧ f.freeVariables.size ≤ 1 := by
  unfold check
  split
  next hfree => simp [hfree]
  next hfree =>
    split
    next hbound => simp [hbound]
    next hbound =>
      split
      next hsize => simp [hsize]
      next hsize =>
        rw [Decidable.not_not] at hfree
        simp [hfree, hbound, Nat.le_of_not_lt hsize]

theorem eq_of_occursFree_of_check {f : Formula} {v w : Variable} (h : check f v = .ok ())
    (hw : f.occursFree w = true) : w = v := by
  obtain ⟨hfree, _, hsize⟩ := check_eq_ok_iff.1 h
  apply VariableSet.eq_of_mem_of_size_le_one hsize
  . exact Formula.mem_freeVariables.2 hfree
  . exact Formula.mem_freeVariables.2 hw

theorem numeral_cases {d : Diagonalizer} {code : Nat} {c : Term}
    (h : (d.numeral code).result = .ok c) :
    (d.form = .unary ∧ c = .chain code) ∨ (d.form = .compact ∧ c = .compact code) := by
  rw [result_numeral] at h
  split at h
  next hform =>
    cases h
    exact .inr ⟨hform, rfl⟩
  next hform _ =>
    split at h
    . contradiction
    . cases h
      exact .inl ⟨hform, rfl⟩
  next hform _ =>
    cases h
    exact .inl ⟨hform, rfl⟩

theorem numeral_spec {d : Diagonalizer} {code : Nat} {c : Term}
    (h : (d.numeral code).result = .ok c) : c.isClosed = true ∧ c.value? = some code := by
  obtain ⟨_, rfl⟩ | ⟨_, rfl⟩ := numeral_cases h
  . exact ⟨Term.isClosed_chain code, Term.value?_chain code⟩
  . exact ⟨Term.isClosed_compact code, Term.value?_compact code⟩

variable {d : Diagonalizer} {f s : Formula} {v : Variable}

theorem diagonalize_eq_ok_iff :
    (d.diagonalize f v).result = .ok s ↔
      check f v = .ok () ∧
        ∃ c, (d.numeral (d.table.number f.word)).result = .ok c ∧ s = f.subst v c := by
  rw [result_diagonalize]
  cases check f v with
  | error e => simp [bind, Except.bind]
  | ok u =>
    cases (d.numeral (d.table.number f.word)).result with
    | error e => simp [bind, Except.bind]
    | ok c => simp [bind, Except.bind, pure, Except.pure, eq_comm]

theorem occursFree_diagonalize (h : (d.diagonalize f v).result = .ok s) (w : Variable) :
    s.occursFree w = false := by
  obtain ⟨hcheck, c, hnumeral, rfl⟩ := diagonalize_eq_ok_iff.1 h
  rw [Bool.eq_false_iff]
  intro hw
  rw [Formula.occursFree_subst_of_isClosed (numeral_spec hnumeral).1] at hw
  exact hw.2 (eq_of_occursFree_of_check hcheck hw.1)

theorem diagonalize_correct (h : (d.diagonalize f v).result = .ok s) :
    (∃ c : Term, c.isClosed = true ∧
      s = f.subst v c ∧
      c.value? = some (d.table.number f.word) ∧
      (d.form = .unary → (standardNumeral (d.table.number f.word)).result = .ok c) ∧
      (d.form = .compact → (compactNumeral (d.table.number f.word)).answer = c)) ∧
    s.isSentence = true ∧
    s.boundVariables = f.boundVariables ∧
    s ≠ f ∧
    ∀ w, check s w = .error (.unsubstitutable w .notFree) := by
  obtain ⟨hcheck, c, hnumeral, hs⟩ := diagonalize_eq_ok_iff.1 h
  have hclosed := occursFree_diagonalize h
  refine ⟨⟨c, (numeral_spec hnumeral).1, hs, (numeral_spec hnumeral).2, ?_, ?_⟩, ?_, ?_, ?_, ?_⟩
  . intro hunary
    obtain ⟨_, rfl⟩ | ⟨hform, _⟩ := numeral_cases hnumeral
    . exact result_standardNumeral _
    . simp [hform] at hunary
  . intro hcompact
    obtain ⟨hform, _⟩ | ⟨_, rfl⟩ := numeral_cases hnumeral
    . simp [hform] at hcompact
    . exact answer_compactNumeral _
  . exact Formula.isSentence_iff.2 hclosed
  . rw [hs, Formula.boundVariables_subst]
  . -- The variable is free in the template, but none is free in the sentence.
    rintro rfl
    have hfree := (check_eq_ok_iff.1 hcheck).1
    rw [hclosed v] at hfree
    contradiction
  . intro w
    exact check_of_not_occursFree (hclosed w)

theorem diagonalize_correct_unprovability :
    ∃ s, (diagonalize { form := .compact } (unprovability ⟨0⟩ ⟨1⟩) ⟨0⟩).result = .ok s ∧
      s.isSentence = true ∧
      s ≠ unprovability ⟨0⟩ ⟨1⟩ ∧
      check s ⟨0⟩ = .error (.unsubstitutable ⟨0⟩ .notFree) := by
  have hcheck : check (unprovability ⟨0⟩ ⟨1⟩) ⟨0⟩ = .ok () := check_eq_ok_iff.2 (by decide)
  have h := diagonalize_eq_ok_iff.2 ⟨hcheck, _, result_numeral { form := .compact } _, rfl⟩
  obtain ⟨_, hsentence, _, hne, hrefused⟩ := diagonalize_correct h
  exact ⟨_, h, hsentence, hne, hrefused ⟨0⟩⟩

end Diagonalizer

end Arithmetization
