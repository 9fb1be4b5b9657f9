import Arithmetization.Code.Number
import Arithmetization.Proofs.Decimal
import Arithmetization.Proofs.Readability

/-!
This module contains the theory of Gödel numbers. The number of a word is rendered as the digit
string of the word, and the digit string can be cut back into the codes. So a number determines its
word, and by unique readability the expression that the word spells.
-/

namespace Arithmetization

namespace Word

inductive Spelled : Word → Prop where
  | ofVariable (v : Variable) : Spelled v.word
  | ofTerm (t : Term) : Spelled t.word
  | ofFormula (f : Formula) : Spelled f.word

end Word

theorem Variable.word_ne_nil (v : Variable) : v.word ≠ [] := by
  simp [word, spell]

theorem Term.word_ne_nil (t : Term) : t.word ≠ [] := by
  cases t <;> simp [word, spell, Variable.spell, Word.enclosed]

theorem Formula.word_ne_nil (f : Formula) : f.word ≠ [] := by
  cases f <;> simp [word, spell, Word.enclosed, Word.quantified]

theorem Expression.word_ne_nil (e : Expression) : e.word ≠ [] := by
  cases e with
  | term t => exact t.word_ne_nil
  | formula f => exact f.word_ne_nil

theorem Word.Spelled.ne_nil {w : Word} (h : w.Spelled) : w ≠ [] := by
  cases h with
  | ofVariable v => exact v.word_ne_nil
  | ofTerm t => exact t.word_ne_nil
  | ofFormula f => exact f.word_ne_nil

namespace CodeTable

variable (t : CodeTable) {w : Word}

theorem codes_ne_nil (hw : w ≠ []) : t.codes w ≠ [] := by
  simpa [codes] using hw

theorem ne_zero_of_mem_codes {c : UInt32} (hc : c ∈ t.codes w) : c ≠ 0 := by
  obtain ⟨s, _, rfl⟩ := List.mem_map.1 hc
  exact t.valid.code_ne_zero s

theorem separator_not_mem_of_mem_codes {c : UInt32} (hc : c ∈ t.codes w) :
    ¬ Decimal.separatorChar t.separator ∈ Decimal.digits c.toNat := by
  obtain ⟨s, _, rfl⟩ := List.mem_map.1 hc
  exact t.valid.separator_not_mem s

theorem codes_injective {w' : Word} (h : t.codes w = t.codes w') : w = w' :=
  List.map_injective_iff.2 t.valid.injective h

theorem isDigits_digits (hw : w ≠ []) : Decimal.isDigits (t.digits w).toList = true := by
  rw [digits, Decimal.toList_join]
  apply Decimal.isDigits_joinDigits
  . exact t.valid.separator_le
  . exact t.codes_ne_nil hw

theorem number?_eq_some (hw : w ≠ []) : t.number? w = some (t.number w) := by
  simp [number, number?, Decimal.read?, t.isDigits_digits hw]

theorem digits_number (hw : w ≠ []) : Decimal.digits (t.number w) = (t.digits w).toList := by
  have hnumber : t.number w = Decimal.value (t.digits w).toList := by
    simp [number, number?, Decimal.read?, t.isDigits_digits hw]
  rw [hnumber, digits, Decimal.toList_join]
  apply Decimal.digits_value_joinDigits
  . exact t.valid.separator_le
  . exact t.codes_ne_nil hw
  . intro c hc
    exact t.ne_zero_of_mem_codes hc

theorem split?_digits (hw : w ≠ []) :
    Decimal.split? (t.digits w) t.separator = some (t.codes w) := by
  apply Decimal.split?_join
  . exact t.codes_ne_nil hw
  . intro c hc
    exact t.separator_not_mem_of_mem_codes hc

theorem digits_injective {w' : Word} (hw : w ≠ []) (hw' : w' ≠ []) (h : t.digits w = t.digits w') :
    w = w' := by
  apply t.codes_injective
  rw [← Option.some.injEq, ← t.split?_digits hw, ← t.split?_digits hw', h]

theorem number_injective {w' : Word} (hw : w ≠ []) (hw' : w' ≠ []) (h : t.number w = t.number w') :
    w = w' := by
  apply t.digits_injective hw hw'
  rw [← String.toList_inj, ← t.digits_number hw, ← t.digits_number hw', h]

theorem number_word_eq_iff (a b : Expression) : t.number a.word = t.number b.word ↔ a = b := by
  constructor
  . intro h
    apply Expression.word_injective
    exact t.number_injective a.word_ne_nil b.word_ne_nil h
  . intro h
    rw [h]

theorem number_digits_codes_agree (hw : w.Spelled) :
    t.number? w = some (t.number w) ∧
      (t.number w).repr = t.digits w ∧
      Decimal.length (t.number w) = (t.digits w).length ∧
      (t.digits w).toList.head? ≠ some '0' ∧
      Decimal.split? (t.digits w) t.separator = some (w.map t.code) ∧
      t.codeTexts w = (w.map t.code).map fun c => c.toNat.repr := by
  have hdigits := t.digits_number hw.ne_nil
  refine ⟨t.number?_eq_some hw.ne_nil, ?_, ?_, ?_, t.split?_digits hw.ne_nil, ?_⟩
  . rw [← Decimal.text_eq_repr, Decimal.text, hdigits, String.ofList_toList]
  . rw [Decimal.length, hdigits, String.length_toList]
  . rw [digits, Decimal.toList_join]
    apply Decimal.head?_joinDigits_ne_zero
    intro c hc
    exact t.ne_zero_of_mem_codes hc
  . simp [codeTexts, codes, Decimal.text_eq_repr]

theorem number_digits_codes_agree_equal :
    (Formula.equal .zero .zero).word.Spelled ∧
      standard.number? (Formula.equal .zero .zero).word = some 601040107 ∧
      Decimal.split? "601040107" 0 = some [6, 1, 4, 1, 7] := by
  have hword : (Formula.equal .zero .zero).word.Spelled := .ofFormula _
  obtain ⟨hnumber, _, _, _, hcodes, _⟩ := number_digits_codes_agree standard hword
  exact ⟨hword, hnumber, hcodes⟩

end CodeTable

end Arithmetization
