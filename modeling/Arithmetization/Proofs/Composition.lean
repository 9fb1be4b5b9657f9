import Arithmetization.Proofs.Numeral
import Arithmetization.Proofs.Substitution

/-!
This module contains substitutions that are done one after another. Two of them may change places if
the replacement of the first is subjected to the second, and nothing of it is captured on the way;
they are one substitution if the second has nothing else to replace. Closed terms are never
captured, so they may be substituted in any order.
-/

namespace Arithmetization

theorem Term.subst_subst_distrib {t : Term} {v w : Variable} {s : Term}
    (h : v ≠ w ∧ s.occurs v = false ∨ t.occurs w = false) (r : Term) :
    (t.subst v r).subst w s = (t.subst w s).subst v (r.subst w s) := by
  induction t with
  | zero => rfl
  | var u =>
    rw [occurs, decide_eq_false_iff_not] at h
    by_cases hw : u = w
    . obtain ⟨hvw, hs⟩ := h.resolve_right (not_not_intro hw)
      simp [subst, hw, Ne.symm hvw, subst_of_not_occurs hs]
    . by_cases hv : u = v
      . subst hv
        simp [subst, hw]
      . simp [subst, hv, hw]
  | succ t ih => rw [subst, subst, ih h, subst, subst]
  | add l m ihl ihm | mul l m ihl ihm =>
    rw [occurs, Bool.or_eq_false_iff] at h
    rw [subst, subst, ihl (h.imp_right And.left), ihm (h.imp_right And.right), subst, subst]

theorem Term.subst_subst (t : Term) {v w : Variable} {r s : Term} (hvw : v ≠ w)
    (hs : s.occurs v = false) :
    (t.subst v r).subst w s = (t.subst w s).subst v (r.subst w s) :=
  subst_subst_distrib (.inl ⟨hvw, hs⟩) r

variable {v w : Variable} {r s : Term}

namespace Formula

theorem subst_subst_distrib {f : Formula} (h : v ≠ w ∧ s.occurs v = false ∨ f.occursFree w = false)
    (hr : r.occurs w = false ∨ ¬ w ∈ f.boundVariables) :
    (f.subst v r).subst w s = (f.subst w s).subst v (r.subst w s) := by
  induction f with
  | equal l m | less l m | proof l m =>
    rw [occursFree, Bool.or_eq_false_iff] at h
    simp only [subst, Term.subst_subst_distrib (h.imp_right And.left),
      Term.subst_subst_distrib (h.imp_right And.right)]
  | not f ih => rw [subst, subst, ih h hr, subst, subst]
  | and f g ihf ihg | or f g ihf ihg =>
    rw [occursFree, Bool.or_eq_false_iff] at h
    simp only [mem_boundVariables_and, mem_boundVariables_or, not_or] at hr
    rw [subst, subst, ihf (h.imp_right And.left) (hr.imp_right And.left),
      ihg (h.imp_right And.right) (hr.imp_right And.right), subst, subst]
  | all u f ih | ex u f ih =>
    simp only [mem_boundVariables_all, mem_boundVariables_ex, not_or] at hr
    by_cases hv : u = v
    . -- A substitution for `u` stops at the quantifier, before the other one or after it.
      subst hv
      simp only [subst, if_true]
      split
      . simp [subst]
      . simp [subst]
    . by_cases hw : u = w
      . subst hw
        -- The quantifier would capture `u`, so it does not occur in the replacement.
        have hru : r.occurs u = false := hr.resolve_right fun h => h.1 rfl
        simp [subst, hv, Term.subst_of_not_occurs hru]
      . rw [occursFree, Bool.and_eq_false_imp] at h
        specialize ih (h.imp_right fun h => h (decide_eq_true hw)) (hr.imp_right And.right)
        simp [subst, hv, hw, ih]

theorem subst_subst {f : Formula} (hvw : v ≠ w) (hs : s.occurs v = false)
    (hr : r.occurs w = false ∨ ¬ w ∈ f.boundVariables) :
    (f.subst v r).subst w s = (f.subst w s).subst v (r.subst w s) :=
  subst_subst_distrib (.inl ⟨hvw, hs⟩) hr

theorem subst_subst_of_not_occursFree {f : Formula} (hw : f.occursFree w = false)
    (hr : r.occurs w = false ∨ ¬ w ∈ f.boundVariables) :
    (f.subst v r).subst w s = f.subst v (r.subst w s) := by
  rw [subst_subst_distrib (.inr hw) hr, subst_of_not_occursFree hw]

end Formula

theorem subst_exchange (hvw : v ≠ w) (hs : s.occurs v = false) :
    (∀ f : Formula, r.occurs w = false ∨ ¬ w ∈ f.boundVariables →
      (f.subst v r).subst w s = (f.subst w s).subst v (r.subst w s)) ∧
    ∀ t : Term, (t.subst v r).subst w s = (t.subst w s).subst v (r.subst w s) :=
  ⟨fun _ => Formula.subst_subst hvw hs, fun t => t.subst_subst hvw hs⟩

theorem subst_exchange_ex_less :
    (⟨0⟩ : Variable) ≠ ⟨2⟩ ∧
      (Term.succ (.var ⟨1⟩)).occurs ⟨0⟩ = false ∧
      ¬ (⟨2⟩ : Variable) ∈ (Formula.ex ⟨1⟩ (.less (.var ⟨0⟩) (.var ⟨2⟩))).boundVariables ∧
      ((Formula.ex ⟨1⟩ (.less (.var ⟨0⟩) (.var ⟨2⟩))).subst ⟨0⟩ (.mul (.var ⟨0⟩) (.var ⟨2⟩))).subst
          ⟨2⟩ (.succ (.var ⟨1⟩)) =
        ((Formula.ex ⟨1⟩ (.less (.var ⟨0⟩) (.var ⟨2⟩))).subst ⟨2⟩ (.succ (.var ⟨1⟩))).subst
          ⟨0⟩ ((Term.mul (.var ⟨0⟩) (.var ⟨2⟩)).subst ⟨2⟩ (.succ (.var ⟨1⟩))) :=
  ⟨by decide, by decide, by decide,
    (subst_exchange (by decide) (by decide)).1 _ (.inr (by decide))⟩

-- Where the quantifier captures the second variable, the order matters.
example :
    ((Formula.ex ⟨2⟩ (.less (.var ⟨0⟩) (.var ⟨2⟩))).subst ⟨0⟩ (.var ⟨2⟩)).subst ⟨2⟩ .zero ≠
      ((Formula.ex ⟨2⟩ (.less (.var ⟨0⟩) (.var ⟨2⟩))).subst ⟨2⟩ .zero).subst
        ⟨0⟩ ((Term.var ⟨2⟩).subst ⟨2⟩ .zero) := by
  decide

namespace Formula

theorem subst_comm_of_isClosed (f : Formula) (hvw : v ≠ w) (hr : r.isClosed = true)
    (hs : s.isClosed = true) : (f.subst v r).subst w s = (f.subst w s).subst v r := by
  have hrw := Term.occurs_of_isClosed hr w
  rw [subst_subst hvw (Term.occurs_of_isClosed hs v) (.inl hrw), Term.subst_of_not_occurs hrw]

def substAll (f : Formula) (σ : Variable → Term) (vs : List Variable) : Formula :=
  vs.foldl (fun f v => f.subst v (σ v)) f

theorem boundVariables_substAll (f : Formula) (σ : Variable → Term) (vs : List Variable) :
    (f.substAll σ vs).boundVariables = f.boundVariables := by
  induction vs generalizing f with
  | nil => rfl
  | cons v vs ih => exact (ih _).trans (boundVariables_subst f v (σ v))

variable {f : Formula} {σ : Variable → Term} {vs ws : List Variable}

theorem substAll_perm (h : ∀ v ∈ vs, (σ v).isClosed = true) (hperm : vs.Perm ws) :
    f.substAll σ vs = f.substAll σ ws := by
  apply hperm.foldl_eq'
  intro v hv w hw g
  by_cases hvw : v = w
  . rw [hvw]
  . exact g.subst_comm_of_isClosed hvw (h v hv) (h w hw)

theorem occursFree_substAll (h : ∀ v ∈ vs, (σ v).isClosed = true) (w : Variable) :
    (f.substAll σ vs).occursFree w = true ↔ f.occursFree w = true ∧ ¬ w ∈ vs := by
  induction vs generalizing f with
  | nil => simp [substAll]
  | cons v vs ih =>
    rw [List.forall_mem_cons] at h
    rw [substAll, List.foldl_cons, ← substAll, ih h.2, occursFree_subst_of_isClosed h.1,
      List.mem_cons, not_or, and_assoc]

theorem substAll_closes (f : Formula) (σ : Variable → Term) (vs : VariableSet)
    (order : List Variable) (hclosed : ∀ v ∈ vs, (σ v).isClosed = true)
    (hfree : ∀ v ∈ f.freeVariables, v ∈ vs) (horder : order.Perm vs.toList) :
    f.substAll σ order = f.substAll σ vs.toList ∧
      (f.substAll σ order).isSentence = true ∧
      (f.substAll σ order).boundVariables = f.boundVariables := by
  have hterms : ∀ v ∈ order, (σ v).isClosed = true :=
    fun v hv => hclosed v (VariableSet.mem_toList.1 (horder.mem_iff.1 hv))
  refine ⟨substAll_perm hterms horder, ?_, boundVariables_substAll f σ order⟩
  rw [isSentence_iff]
  intro w
  rw [Bool.eq_false_iff]
  intro hw
  obtain ⟨hfw, hout⟩ := (occursFree_substAll hterms w).1 hw
  apply hout
  rw [horder.mem_iff]
  exact hfree w (mem_freeVariables.2 hfw)

theorem substAll_closes_or :
    [⟨2⟩, ⟨0⟩, ⟨1⟩].Perm ([⟨0⟩, ⟨1⟩, ⟨2⟩] : List Variable) ∧
      (or (.equal (.var ⟨0⟩) .zero) (.ex ⟨0⟩ (.less (.var ⟨0⟩) (.var ⟨1⟩)))).substAll
          (fun v => .chain v.stars.toNat) [⟨2⟩, ⟨0⟩, ⟨1⟩] =
        (or (.equal (.var ⟨0⟩) .zero) (.ex ⟨0⟩ (.less (.var ⟨0⟩) (.var ⟨1⟩)))).substAll
          (fun v => .chain v.stars.toNat) [⟨0⟩, ⟨1⟩, ⟨2⟩] ∧
      ((or (.equal (.var ⟨0⟩) .zero) (.ex ⟨0⟩ (.less (.var ⟨0⟩) (.var ⟨1⟩)))).substAll
          (fun v => .chain v.stars.toNat) [⟨2⟩, ⟨0⟩, ⟨1⟩]).isSentence = true := by
  obtain ⟨hsame, hsentence, _⟩ :=
    substAll_closes (or (.equal (.var ⟨0⟩) .zero) (.ex ⟨0⟩ (.less (.var ⟨0⟩) (.var ⟨1⟩))))
      (fun v => .chain v.stars.toNat) ⟨[⟨0⟩, ⟨1⟩, ⟨2⟩], by decide⟩ [⟨2⟩, ⟨0⟩, ⟨1⟩]
      (by decide) (by decide) (by decide)
  exact ⟨by decide, hsame, hsentence⟩

end Formula

end Arithmetization
