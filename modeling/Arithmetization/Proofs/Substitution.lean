import Arithmetization.Proofs.Occurrence

/-!
This module contains the effect of substitution on the variables of an expression. The quantifiers
stay as they are, so those around the place of a variable capture what they can of its replacement.
-/

namespace Arithmetization

namespace Term

theorem occurs_of_isClosed {t : Term} (h : t.isClosed = true) (v : Variable) :
    t.occurs v = false :=
  isClosed_iff.1 h v

theorem subst_of_not_occurs {t : Term} {v : Variable} (h : t.occurs v = false) (r : Term) :
    t.subst v r = t := by
  induction t with
  | zero => rfl
  | var w =>
    rw [occurs, decide_eq_false_iff_not] at h
    rw [subst, if_neg h]
  | succ t ih => rw [subst, ih h]
  | add l m ihl ihm | mul l m ihl ihm =>
    rw [occurs, Bool.or_eq_false_iff] at h
    rw [subst, ihl h.1, ihm h.2]

theorem size_le_size_subst {t : Term} {v : Variable} (h : t.occurs v = true) (r : Term) :
    r.size ≤ (t.subst v r).size := by
  induction t with
  | zero => contradiction
  | var w =>
    rw [occurs, decide_eq_true_eq] at h
    simp [subst, h]
  | succ t ih =>
    have := ih h
    rw [subst, size]
    omega
  | add l m ihl ihm | mul l m ihl ihm =>
    rw [occurs, Bool.or_eq_true] at h
    rw [subst, size]
    rcases h with h | h
    . have := ihl h
      omega
    . have := ihm h
      omega

theorem occurs_subst (t : Term) (v w : Variable) (r : Term) :
    (t.subst v r).occurs w = true ↔
      (t.occurs w = true ∧ w ≠ v) ∨ (t.occurs v = true ∧ r.occurs w = true) := by
  induction t with
  | zero => simp [subst, occurs]
  | var u =>
    rw [subst]
    split
    case isTrue h =>
      subst h
      simp only [occurs, decide_eq_true_eq, true_and, iff_or_self]
      intro hw
      exact absurd hw.1.symm hw.2
    case isFalse h =>
      simp only [occurs, decide_eq_true_eq, h, false_and, or_false, iff_self_and]
      rintro rfl
      exact h
  | succ t ih => exact ih
  | add l r ihl ihr | mul l r ihl ihr =>
    simp only [subst, occurs, Bool.or_eq_true, ihl, ihr, or_and_right]
    rw [or_or_or_comm]

end Term

namespace Formula

theorem subst_of_not_occursFree {f : Formula} {v : Variable} (h : f.occursFree v = false)
    (r : Term) : f.subst v r = f := by
  induction f with
  | equal l m | less l m | proof l m =>
    rw [occursFree, Bool.or_eq_false_iff] at h
    rw [subst, Term.subst_of_not_occurs h.1, Term.subst_of_not_occurs h.2]
  | not f ih => rw [subst, ih h]
  | and f g ihf ihg | or f g ihf ihg =>
    rw [occursFree, Bool.or_eq_false_iff] at h
    rw [subst, ihf h.1, ihg h.2]
  | all u f ih | ex u f ih =>
    rw [subst]
    split
    case isTrue => rfl
    case isFalse hu =>
      rw [occursFree, Bool.and_eq_false_imp] at h
      rw [ih (h (decide_eq_true hu))]

theorem occursFree_subst (f : Formula) (v w : Variable) (r : Term) :
    (f.subst v r).occursFree w = true ↔
      (f.occursFree w = true ∧ w ≠ v) ∨ (r.occurs w = true ∧ f.Exposes v w) := by
  induction f with
  | equal l m | less l m | proof l m =>
    simp only [subst, occursFree, Bool.or_eq_true, Term.occurs_subst, exposes_equal, exposes_less,
      exposes_proof]
    grind
  | not f ih => exact ih
  | and f g ihf ihg | or f g ihf ihg =>
    simp only [subst, occursFree, Bool.or_eq_true, ihf, ihg, exposes_and, exposes_or]
    grind
  | all u f ih | ex u f ih =>
    rw [subst]
    split
    case isTrue h =>
      -- The quantifier binds the variable, so that the variable is not free below it.
      subst h
      simp only [occursFree, Bool.and_eq_true, decide_eq_true_eq, exposes_all, exposes_ex, ne_eq,
        not_true, false_and, and_false, or_false, iff_self_and]
      intro hw
      exact Ne.symm hw.1
    case isFalse h =>
      simp only [occursFree, Bool.and_eq_true, decide_eq_true_eq, ih, exposes_all, exposes_ex]
      grind

theorem occursFree_subst_of_isClosed {r : Term} (hr : r.isClosed = true) (f : Formula)
    (v w : Variable) :
    (f.subst v r).occursFree w = true ↔ f.occursFree w = true ∧ w ≠ v := by
  simp [occursFree_subst, Term.occurs_of_isClosed hr]

theorem boundVariables_subst (f : Formula) (v : Variable) (r : Term) :
    (f.subst v r).boundVariables = f.boundVariables := by
  apply VariableSet.ext
  intro w
  induction f with
  | equal l m | less l m | proof l m => simp [subst]
  | not f ih => simpa [subst] using ih
  | and f g ihf ihg | or f g ihf ihg => simp [subst, ihf, ihg]
  | all u f ih | ex u f ih =>
    rw [subst]
    split
    . rfl
    . simp [ih]

theorem freeVariables_subst_of_not_captured {f : Formula} {v : Variable} {r : Term}
    (hr : ∀ w ∈ r.variableSet, ¬ w ∈ f.boundVariables) (hv : v ∈ f.freeVariables) :
    (f.subst v r).freeVariables = f.freeVariables.erase v ∪ r.variableSet := by
  apply VariableSet.ext
  intro w
  have hexposes (hw : r.occurs w = true) : f.Exposes v w :=
    exposes_of_not_mem_boundVariables (mem_freeVariables.1 hv) (hr w (Term.mem_variableSet.2 hw))
  simp only [mem_freeVariables, occursFree_subst, VariableSet.mem_union, VariableSet.mem_erase,
    Term.mem_variableSet, and_iff_left_of_imp hexposes]

theorem variables_subst (f : Formula) (v : Variable) (r : Term) :
    (f.subst v r).boundVariables = f.boundVariables ∧
      (∀ w, w ∈ (f.subst v r).freeVariables ↔
        (w ∈ f.freeVariables ∧ w ≠ v) ∨ (w ∈ r.variableSet ∧ f.Exposes v w)) ∧
      ((∀ w ∈ r.variableSet, ¬ w ∈ f.boundVariables) → v ∈ f.freeVariables →
        (f.subst v r).freeVariables = f.freeVariables.erase v ∪ r.variableSet) := by
  refine ⟨boundVariables_subst f v r, ?_, freeVariables_subst_of_not_captured⟩
  intro w
  rw [mem_freeVariables, mem_freeVariables, Term.mem_variableSet]
  exact occursFree_subst f v w r

-- The only place of the variable is below a quantifier, which captures the replacement.
example :
    ¬ (ex ⟨1⟩ (.less (.var ⟨0⟩) (.var ⟨1⟩))).Exposes ⟨0⟩ ⟨1⟩ ∧
      ((ex ⟨1⟩ (.less (.var ⟨0⟩) (.var ⟨1⟩))).subst ⟨0⟩ (.var ⟨1⟩)).freeVariables = ∅ := by
  decide

theorem variables_subst_ex_less :
    ⟨0⟩ ∈ (ex ⟨1⟩ (.less (.add (.var ⟨0⟩) (.var ⟨1⟩)) (.var ⟨2⟩))).freeVariables ∧
      ((ex ⟨1⟩ (.less (.add (.var ⟨0⟩) (.var ⟨1⟩)) (.var ⟨2⟩))).subst ⟨0⟩
          (.mul (.var ⟨0⟩) (.var ⟨2⟩))).freeVariables =
        (ex ⟨1⟩ (.less (.add (.var ⟨0⟩) (.var ⟨1⟩)) (.var ⟨2⟩))).freeVariables.erase ⟨0⟩ ∪
          (Term.mul (.var ⟨0⟩) (.var ⟨2⟩)).variableSet :=
  ⟨by decide, (variables_subst _ _ _).2.2 (by decide) (by decide)⟩

end Formula

end Arithmetization
