import Arithmetization.Proofs.Containment
import Arithmetization.Proofs.Refusal

/-!
This module contains the size of the codes in the diagonal construction. The code of a template has
nine digits or more, so that small limits refuse every unary numeral. The code of the diagonal
sentence is greater still, since the sentence contains a numeral of the code of its template.
-/

namespace Arithmetization

namespace CodeTable

theorem nine_le_length_number (t : CodeTable) (f : Formula) :
    9 ≤ Decimal.length (t.number f.word) := by
  have hword : 5 ≤ f.word.length := f.takes_five []
  have := t.two_mul_length_le f.word_ne_nil
  omega

end CodeTable

namespace Diagonalizer

variable {d : Diagonalizer} {f s : Formula} {v : Variable}

theorem exceeds_of_limit_lt (f : Formula) {limit : Nat} (hform : d.form = .unary)
    (hlimit : d.limit = some limit) (hlt : limit < 10 ^ 8) :
    d.Exceeds (d.table.number f.word) limit := by
  refine ⟨hform, hlimit, Nat.lt_of_lt_of_le hlt ?_⟩
  exact Decimal.ten_pow_le (by decide) (d.table.nine_le_length_number f)

theorem diagonalize_of_limit_lt (f : Formula) (v : Variable) {limit : Nat}
    (hform : d.form = .unary) (hlimit : d.limit = some limit) (hlt : limit < 10 ^ 8) :
    (d.diagonalize f v).result = (do
      check f v
      throw (.numeralTooLarge (d.table.number f.word) limit)) := by
  cases hcheck : check f v with
  | error e => exact diagonalize_of_check_eq_error hcheck
  | ok _ => exact diagonalize_of_exceeds hcheck (exceeds_of_limit_lt f hform hlimit hlt)

theorem diagonalize_under_small_limit (f : Formula) (v : Variable) :
    (∀ d : Diagonalizer, ∃ code, d.table.number? f.word = some code ∧ 9 ≤ Decimal.length code ∧
      ∀ limit, d.form = .unary → d.limit = some limit → limit < 10 ^ 8 →
        (∀ s, (d.diagonalize f v).result ≠ .ok s) ∧
        (∀ e, check f v = .error e → (d.diagonalize f v).result = .error e) ∧
        (check f v = .ok () →
          (d.diagonalize f v).result = .error (.numeralTooLarge code limit))) ∧
    (diagonalize {} f v).result = (do
      check f v
      throw (.numeralTooLarge (CodeTable.standard.number f.word) 10000)) := by
  constructor
  . intro d
    refine ⟨d.table.number f.word, d.table.number?_eq_some f.word_ne_nil,
      d.table.nine_le_length_number f, ?_⟩
    intro limit hform hlimit hlt
    rw [diagonalize_of_limit_lt f v hform hlimit hlt]
    cases check f v with
    | error e => simp [bind, Except.bind]
    | ok _ => simp [bind, Except.bind, throw, throwThe, MonadExceptOf.throw]
  . have hdefault : (10000 : Nat) < 10 ^ 8 := by decide
    exact diagonalize_of_limit_lt f v rfl rfl hdefault

theorem diagonalize_under_small_limit_equal :
    check (.equal (.var .x) .zero) .x = .ok () ∧
      99999999 < 10 ^ 8 ∧
      (diagonalize { limit := some 99999999 } (.equal (.var .x) .zero) .x).result =
        .error (.numeralTooLarge 608040107 99999999) := by
  have hcheck : check (.equal (.var .x) .zero) .x = .ok () := check_eq_ok_iff.2 (by decide)
  have hlt : 99999999 < 10 ^ 8 := by decide
  have hnumber : CodeTable.standard.number? (Formula.equal (.var .x) .zero).word =
      some 608040107 := by decide
  obtain ⟨hsmall, _⟩ := diagonalize_under_small_limit (.equal (.var .x) .zero) .x
  obtain ⟨code, hcode, _, hrefused⟩ := hsmall { limit := some 99999999 }
  obtain rfl : code = 608040107 := Option.some.inj (hcode.symm.trans hnumber)
  obtain ⟨_, _, herror⟩ := hrefused 99999999 rfl rfl hlt
  exact ⟨hcheck, hlt, herror hcheck⟩

theorem number_lt_diagonalize (h : (d.diagonalize f v).result = .ok s) :
    d.table.number f.word < d.table.number s.word := by
  obtain ⟨hcheck, c, hnumeral, rfl⟩ := diagonalize_eq_ok_iff.1 h
  have hpart := Formula.isSubexpression_subst (check_eq_ok_iff.1 hcheck).1 c
  have hlt := d.table.value_lt_number_word (numeral_spec hnumeral).2
  have hle := d.table.number_le_of_isSubexpression hpart
  exact Nat.lt_of_lt_of_le hlt hle

theorem number_lt_diagonalize_unprovability :
    ∃ s, (diagonalize { form := .compact } (unprovability ⟨0⟩ ⟨1⟩) ⟨0⟩).result = .ok s ∧
      CodeTable.standard.number (unprovability ⟨0⟩ ⟨1⟩).word <
        CodeTable.standard.number s.word := by
  have hcheck : check (unprovability ⟨0⟩ ⟨1⟩) ⟨0⟩ = .ok () := check_eq_ok_iff.2 (by decide)
  have h := diagonalize_eq_ok_iff.2 ⟨hcheck, _, result_numeral { form := .compact } _, rfl⟩
  have hlt := number_lt_diagonalize h
  exact ⟨_, h, hlt⟩

end Diagonalizer

end Arithmetization
