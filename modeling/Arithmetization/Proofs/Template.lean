import Arithmetization.Proofs.Alignment
import Arithmetization.Proofs.Diagonal
import Arithmetization.Proofs.Growth

/-!
This module contains the uniqueness of templates: two templates with the same diagonal sentence, at
the same variable, are equal.

If the codes were different, their numerals would stand in the same places of one sentence. So where
the template of the greater code has the variable, the other has a term that its own numeral turns
into the greater one: either the greater numeral itself, or successors and doublings around the
variable. Both are ruled out by size.
-/

namespace Arithmetization

namespace Term

/--
The terms that arise from a base by successors and doublings. Numerals arise from zero in this way.
-/
inductive Raised (base : Term) : Term → Prop where
  | base : Raised base base
  | succ {t : Term} (h : Raised base t) : Raised base t.succ
  | twice {t : Term} (h : Raised base t) : Raised base t.twice

theorem raised_chain (n : Nat) : Raised .zero (chain n) := by
  induction n with
  | zero => exact .base
  | succ n ih => exact .succ ih

theorem raised_compact (n : Nat) : Raised .zero (compact n) := by
  apply compact_induction (P := fun _ t => Raised .zero t) .base (.succ .base)
  intro digit m t _ ih
  cases digit with
  | false => exact .twice ih
  | true => exact .succ (.twice ih)

variable {t u c e r : Term} {v : Variable}

theorem raised_of_subst (he : Raised .zero e) (hc : 3 < c.size) (hr : r.occurs v = true)
    (h : r.subst v c = e) : Raised (.var v) r := by
  induction he generalizing r with
  | base =>
    have hsize := size_le_size_subst hr c
    rw [h, size] at hsize
    omega
  | @succ t _ ih =>
    cases r with
    | zero => contradiction
    | var w =>
      rw [occurs, decide_eq_true_eq] at hr
      exact hr ▸ .base
    | succ r => exact .succ (ih hr (succ.inj h))
    | add l m | mul l m => simp [subst] at h
  | @twice t _ ih =>
    cases r with
    | zero => contradiction
    | var w =>
      rw [occurs, decide_eq_true_eq] at hr
      exact hr ▸ .base
    | succ _ | add l m => simp [subst, Term.twice] at h
    | mul l m =>
      rw [subst, Term.twice, mul.injEq] at h
      -- The factor two is too small to hold the closed term.
      have hl : l.occurs v = false := by
        rw [Bool.eq_false_iff]
        intro hl
        have hsize := size_le_size_subst hl c
        rw [h.1] at hsize
        simp only [size] at hsize
        omega
      rw [subst_of_not_occurs hl] at h
      rw [occurs, hl, Bool.false_or] at hr
      rw [h.1]
      exact .twice (ih hr h.2)

theorem Raised.size_subst (h : Raised (.var v) r) (c : Term) :
    (r.subst v c).size + 1 = r.size + c.size := by
  induction h with
  | base =>
    simp only [subst, ite_true, size]
    omega
  | succ _ ih | twice _ ih =>
    simp only [Term.twice, subst, size] at ih ⊢
    omega

theorem Raised.value_le (h : Raised (.var v) r) {m n : Nat} (hc : c.value? = some m)
    (hn : (r.subst v c).value? = some n) : m ≤ n := by
  induction h generalizing n with
  | base =>
    rw [subst, if_pos rfl, hc, Option.some.injEq] at hn
    omega
  | succ _ ih =>
    obtain ⟨k, hk, rfl⟩ := value?_succ_eq_some_iff.1 hn
    have := ih hk
    omega
  | twice _ ih =>
    obtain ⟨j, k, hj, hk, rfl⟩ := value?_mul_eq_some_iff.1 hn
    cases hj
    have := ih hk
    omega

end Term

namespace Diagonalizer

variable {d : Diagonalizer} {f g s : Formula} {c e : Term} {v : Variable}

theorem raised_numeral {code : Nat} (h : (d.numeral code).result = .ok c) :
    Term.Raised .zero c := by
  obtain ⟨_, rfl⟩ | ⟨_, rfl⟩ := numeral_cases h
  . exact Term.raised_chain code
  . exact Term.raised_compact code

theorem three_lt_size_numeral (h : (d.numeral (d.table.number f.word)).result = .ok c) :
    3 < c.size := by
  have hzero : Term.zero.size < f.size := f.one_lt_size
  have := d.table.six_mul_size_lt hzero (numeral_spec h).2
  rw [Term.size] at this
  omega

theorem subst_ne_of_number_lt (hc : (d.numeral (d.table.number f.word)).result = .ok c)
    (he : (d.numeral (d.table.number g.word)).result = .ok e)
    (hlt : d.table.number f.word < d.table.number g.word) {r : Term} (hr : r.occurs v = true) :
    r.subst v e ≠ c := by
  rintro rfl
  have hraised := Term.raised_of_subst (raised_numeral hc) (three_lt_size_numeral he) hr rfl
  have := hraised.value_le (numeral_spec he).2 (numeral_spec hc).2
  omega

theorem size_le_of_number_le (he : (d.numeral (d.table.number g.word)).result = .ok e)
    (hle : d.table.number f.word ≤ d.table.number g.word) : f.size ≤ e.size := by
  apply Nat.le_of_not_lt
  intro hsize
  have := d.table.value_lt_number hsize (numeral_spec he).2
  omega

theorem number_le_of_subst_eq (hf : check f v = .ok ()) (hg : check g v = .ok ())
    (hc : (d.numeral (d.table.number f.word)).result = .ok c)
    (he : (d.numeral (d.table.number g.word)).result = .ok e) (h : f.subst v c = g.subst v e) :
    d.table.number g.word ≤ d.table.number f.word := by
  obtain ⟨_, hbound, _⟩ := check_eq_ok_iff.1 hf
  obtain ⟨hfree, hbound', _⟩ := check_eq_ok_iff.1 hg
  have haligned : Formula.Aligned v c e f g := .of_subst_eq hbound hbound' h
  apply Nat.le_of_not_lt
  intro hlt
  have hnot (r : Term) (hr : r.occurs v = true) : r.subst v e ≠ c :=
    subst_ne_of_number_lt hc he hlt hr
  have hsmall : f.size ≤ e.size := size_le_of_number_le he (Nat.le_of_lt hlt)
  obtain ⟨r, hrsize, hr⟩ := haligned.exists_subst_eq hfree hnot (Nat.le_refl _)
  have hoccurs : r.occurs v = true := by
    rw [← Bool.not_eq_false]
    intro hoccurs
    rw [Term.subst_of_not_occurs hoccurs] at hr
    rw [hr] at hrsize
    omega
  -- The numeral of the greater code is the other one with a part of the smaller formula around it.
  have hraised := Term.raised_of_subst (raised_numeral he) (three_lt_size_numeral hc) hoccurs hr
  have hsize := hraised.size_subst c
  rw [hr] at hsize
  have hrc := d.table.six_mul_size_lt hrsize (numeral_spec hc).2
  have hsmall' : g.size ≤ c.size := by
    apply Nat.le_of_not_lt
    intro hsize
    have := d.table.six_mul_size_lt hsize (numeral_spec he).2
    omega
  -- So the formula of the smaller code has all symbols of the other one.
  have hembeds : g.word.Sublist f.word := haligned.embeds_spell hnot hsmall hsmall' [] [] (.refl _)
  have := d.table.number_le_of_sublist g.word_ne_nil hembeds
  omega

theorem diagonalize_injective (hf : (d.diagonalize f v).result = .ok s)
    (hg : (d.diagonalize g v).result = .ok s) : f = g := by
  obtain ⟨hcheck, c, hc, rfl⟩ := diagonalize_eq_ok_iff.1 hf
  obtain ⟨hcheck', e, he, h⟩ := diagonalize_eq_ok_iff.1 hg
  have hnumber : d.table.number f.word = d.table.number g.word := by
    apply Nat.le_antisymm
    . exact number_le_of_subst_eq hcheck' hcheck he hc h.symm
    . exact number_le_of_subst_eq hcheck hcheck' hc he h
  have hword := d.table.number_injective f.word_ne_nil g.word_ne_nil hnumber
  exact Expression.formula.inj (Expression.word_injective hword)

theorem diagonalize_injective_unprovability :
    ∃ s, (diagonalize { form := .compact } (unprovability ⟨0⟩ ⟨1⟩) ⟨0⟩).result = .ok s ∧
      (diagonalize { form := .compact } (.all ⟨1⟩ (.not (.proof (.var ⟨1⟩) (.var ⟨0⟩))))
        ⟨0⟩).result = .ok s ∧
      unprovability ⟨0⟩ ⟨1⟩ = .all ⟨1⟩ (.not (.proof (.var ⟨1⟩) (.var ⟨0⟩))) := by
  have hcheck : check (unprovability ⟨0⟩ ⟨1⟩) ⟨0⟩ = .ok () := check_eq_ok_iff.2 (by decide)
  have h := diagonalize_eq_ok_iff.2 ⟨hcheck, _, result_numeral { form := .compact } _, rfl⟩
  exact ⟨_, h, h, diagonalize_injective h h⟩

end Diagonalizer

end Arithmetization
