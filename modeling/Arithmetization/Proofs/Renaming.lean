import Arithmetization.Proofs.Composition

/-!
This module contains what the result of a substitution tells about the replacement. Wherever the
variable is free the replacement can be seen, so that two of them never give the same result, and
only the variable itself gives back the formula. A fresh variable keeps the places for a replacement
that comes later.
-/

namespace Arithmetization

variable {v w : Variable} {r s : Term}

theorem Term.eq_of_subst_eq {t : Term} (hv : t.occurs v = true) (h : t.subst v r = t.subst v s) :
    r = s := by
  induction t with
  | zero => contradiction
  | var u =>
    rw [occurs, decide_eq_true_eq] at hv
    rwa [subst, subst, if_pos hv, if_pos hv] at h
  | succ t ih => exact ih hv (succ.inj h)
  | add l m ihl ihm | mul l m ihl ihm =>
    rw [occurs, Bool.or_eq_true] at hv
    simp only [subst, add.injEq, mul.injEq] at h
    obtain hv | hv := hv
    . exact ihl hv h.1
    . exact ihm hv h.2

theorem Term.subst_self (t : Term) (v : Variable) : t.subst v (.var v) = t := by
  induction t with
  | zero => rfl
  | var u =>
    rw [subst]
    split
    case isTrue h => rw [h]
    case isFalse => rfl
  | succ t ih => rw [subst, ih]
  | add l m ihl ihm | mul l m ihl ihm => rw [subst, ihl, ihm]

namespace Formula

theorem eq_of_subst_eq {f : Formula} (hv : f.occursFree v = true)
    (h : f.subst v r = f.subst v s) : r = s := by
  induction f with
  | equal l m | less l m | proof l m =>
    rw [occursFree, Bool.or_eq_true] at hv
    simp only [subst, equal.injEq, less.injEq, proof.injEq] at h
    obtain hv | hv := hv
    . exact Term.eq_of_subst_eq hv h.1
    . exact Term.eq_of_subst_eq hv h.2
  | not f ih => exact ih hv (not.inj h)
  | and f g ihf ihg | or f g ihf ihg =>
    rw [occursFree, Bool.or_eq_true] at hv
    simp only [subst, and.injEq, or.injEq] at h
    obtain hv | hv := hv
    . exact ihf hv h.1
    . exact ihg hv h.2
  | all u f ih | ex u f ih =>
    rw [occursFree, Bool.and_eq_true, decide_eq_true_eq] at hv
    simp only [subst, if_neg hv.1, all.injEq, ex.injEq, true_and] at h
    exact ih hv.2 h

theorem subst_self (f : Formula) (v : Variable) : f.subst v (.var v) = f := by
  induction f with
  | equal l m | less l m | proof l m => rw [subst, Term.subst_self, Term.subst_self]
  | not f ih => rw [subst, ih]
  | and f g ihf ihg | or f g ihf ihg => rw [subst, ihf, ihg]
  | all u f ih | ex u f ih => rw [subst, ih, ite_self]

theorem subst_eq_subst_iff {f : Formula} :
    f.subst v r = f.subst v s ↔ r = s ∨ f.occursFree v = false := by
  constructor
  . intro h
    cases hv : f.occursFree v with
    | true => exact .inl (eq_of_subst_eq hv h)
    | false => exact .inr rfl
  . rintro (rfl | hv)
    . rfl
    . rw [subst_of_not_occursFree hv, subst_of_not_occursFree hv]

theorem subst_determines_replacement (f : Formula) (v : Variable) :
    (∀ r s, f.subst v r = f.subst v s ↔ r = s ∨ f.occursFree v = false) ∧
      f.subst v (.var v) = f ∧
      ∀ r, f.subst v r = f ↔ r = .var v ∨ f.occursFree v = false := by
  refine ⟨fun _ _ => subst_eq_subst_iff, subst_self f v, ?_⟩
  intro r
  calc
    f.subst v r = f ↔ f.subst v r = f.subst v (.var v) := by rw [subst_self]
    _ ↔ r = .var v ∨ f.occursFree v = false := subst_eq_subst_iff

theorem subst_through_fresh {f : Formula} (hfree : ¬ w ∈ f.freeVariables)
    (hbound : ¬ w ∈ f.boundVariables) (v : Variable) (r : Term) :
    (f.subst v (.var w)).subst w r = f.subst v r := by
  rw [mem_freeVariables, Bool.not_eq_true] at hfree
  calc
    (f.subst v (.var w)).subst w r = f.subst v ((Term.var w).subst w r) :=
      subst_subst_of_not_occursFree hfree (.inr hbound)
    _ = f.subst v r := by rw [Term.subst, if_pos rfl]

theorem subst_through_fresh_and :
    ¬ (⟨2⟩ : Variable) ∈ (and (.all ⟨0⟩ (.less (.var ⟨0⟩) (.var ⟨1⟩)))
        (.equal (.var ⟨0⟩) .zero)).freeVariables ∧
      ¬ (⟨2⟩ : Variable) ∈ (and (.all ⟨0⟩ (.less (.var ⟨0⟩) (.var ⟨1⟩)))
        (.equal (.var ⟨0⟩) .zero)).boundVariables ∧
      ((and (.all ⟨0⟩ (.less (.var ⟨0⟩) (.var ⟨1⟩))) (.equal (.var ⟨0⟩) .zero)).subst ⟨0⟩
          (.var ⟨2⟩)).subst ⟨2⟩ (.add (.var ⟨0⟩) (.var ⟨2⟩)) =
        (and (.all ⟨0⟩ (.less (.var ⟨0⟩) (.var ⟨1⟩))) (.equal (.var ⟨0⟩) .zero)).subst ⟨0⟩
          (.add (.var ⟨0⟩) (.var ⟨2⟩)) :=
  ⟨by decide, by decide, subst_through_fresh (by decide) (by decide) _ _⟩

-- A quantifier over the second variable would capture it, and the term would not come in.
example :
    ((ex ⟨2⟩ (.less (.var ⟨0⟩) (.var ⟨2⟩))).subst ⟨0⟩ (.var ⟨2⟩)).subst ⟨2⟩ .zero ≠
      (ex ⟨2⟩ (.less (.var ⟨0⟩) (.var ⟨2⟩))).subst ⟨0⟩ .zero := by
  decide

end Formula

end Arithmetization
