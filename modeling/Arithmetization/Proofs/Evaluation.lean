import Arithmetization.Proofs.Diagonal
import Mathlib.Logic.Function.Basic

/-!
This module contains the values of terms some of whose variables denote numbers. To substitute for a
variable is to let it denote what the replacement does, so the value of the result depends on that
of the replacement and on nothing else about it.

The main statement, `value?_interchange`, draws the conclusion for closed terms: one may stand for
another of the same value in every context, and a unary numeral for a compact one.
-/

namespace Arithmetization

namespace Term

/--
The number that a term denotes if its variables denote what `ρ` assigns to them. A variable that is
assigned nothing leaves the term without a value.
-/
def valueUnder? (t : Term) (ρ : Variable → Option Nat) : Option Nat :=
  match t with
  | .zero => some 0
  | .var v => ρ v
  | .succ t => do
    let n ← t.valueUnder? ρ
    return n + 1
  | .add l r => do
    let m ← l.valueUnder? ρ
    let n ← r.valueUnder? ρ
    return m + n
  | .mul l r => do
    let m ← l.valueUnder? ρ
    let n ← r.valueUnder? ρ
    return m * n

variable {t r s : Term} {v : Variable} {ρ σ : Variable → Option Nat}

@[simp]
theorem valueUnder?_none (t : Term) : t.valueUnder? (fun _ => none) = t.value? := by
  induction t with
  | zero => rfl
  | var v => rfl
  | succ t ih => rw [valueUnder?, value?, ih]
  | add l r ihl ihr | mul l r ihl ihr => rw [valueUnder?, value?, ihl, ihr]

theorem valueUnder?_congr (h : ∀ w, t.occurs w = true → ρ w = σ w) :
    t.valueUnder? ρ = t.valueUnder? σ := by
  induction t with
  | zero => rfl
  | var w =>
    apply h
    simp [occurs]
  | succ t ih => rw [valueUnder?, valueUnder?, ih h]
  | add l r ihl ihr | mul l r ihl ihr =>
    simp only [occurs, Bool.or_eq_true] at h
    rw [valueUnder?, valueUnder?, ihl fun w hw => h w (.inl hw), ihr fun w hw => h w (.inr hw)]

theorem valueUnder?_of_isClosed (h : t.isClosed = true) (ρ : Variable → Option Nat) :
    t.valueUnder? ρ = t.value? := by
  rw [← valueUnder?_none]
  apply valueUnder?_congr
  intro w hw
  rw [occurs_of_isClosed h w] at hw
  contradiction

theorem valueUnder?_subst (t : Term) (v : Variable) (r : Term) (ρ : Variable → Option Nat) :
    (t.subst v r).valueUnder? ρ = t.valueUnder? (Function.update ρ v (r.valueUnder? ρ)) := by
  induction t with
  | zero => rfl
  | var w =>
    rw [subst, valueUnder?]
    split
    case isTrue h => rw [h, Function.update_self]
    case isFalse h => rw [Function.update_of_ne h, valueUnder?]
  | succ t ih => rw [subst, valueUnder?, valueUnder?, ih]
  | add l m ihl ihm | mul l m ihl ihm => rw [subst, valueUnder?, valueUnder?, ihl, ihm]

theorem value?_subst (t : Term) (v : Variable) (r : Term) :
    (t.subst v r).value? = t.valueUnder? (Function.update (fun _ => none) v r.value?) := by
  rw [← valueUnder?_none, valueUnder?_subst, valueUnder?_none]

theorem isSome_value?_subst_iff (hr : r.isClosed = true) :
    (t.subst v r).value?.isSome = true ↔ ∀ w ∈ t.variableSet, w = v := by
  rw [isSome_value?_iff, isClosed_iff]
  apply forall_congr'
  intro w
  rw [← Bool.not_eq_true, occurs_subst, mem_variableSet, occurs_of_isClosed hr w]
  simp

end Term

namespace Formula

def terms : Formula → List Term
  | .equal l r => [l, r]
  | .less l r => [l, r]
  | .not f => f.terms
  | .and l r => l.terms ++ r.terms
  | .or l r => l.terms ++ r.terms
  | .all _ f => f.terms
  | .ex _ f => f.terms
  | .proof p f => [p, f]

def valuesUnder (f : Formula) (ρ : Variable → Option Nat) : List (Option Nat) :=
  f.terms.map (·.valueUnder? ρ)

theorem valuesUnder_subst_congr {r s : Term} {ρ : Variable → Option Nat}
    (h : r.valueUnder? ρ = s.valueUnder? ρ) (f : Formula) (v : Variable) :
    (f.subst v r).valuesUnder ρ = (f.subst v s).valuesUnder ρ := by
  unfold valuesUnder
  induction f with
  | equal l m | less l m | proof l m =>
    simp only [subst, terms, List.map, Term.valueUnder?_subst, h]
  | not f ih => exact ih
  | and f g ihf ihg | or f g ihf ihg =>
    rw [subst, subst, terms, terms, List.map_append, List.map_append, ihf, ihg]
  | all u f ih | ex u f ih =>
    rw [subst, subst]
    split
    . rfl
    . exact ih

end Formula

open Term

theorem value?_interchange :
    (∀ (t r s : Term) (v : Variable), r.isClosed = true → s.isClosed = true →
      r.value? = s.value? →
        (t.subst v r).value? = (t.subst v s).value? ∧
          ((t.subst v r).value?.isSome = true ↔ ∀ w ∈ t.variableSet, w = v)) ∧
      (∀ n : Nat, ∃ c, (standardNumeral n).result = .ok c ∧
        ∀ (t : Term) (v : Variable),
          (t.subst v c).value? = (t.subst v (compactNumeral n).answer).value?) ∧
      ∀ (d d' : Diagonalizer) (code : Nat) (c c' : Term), (d.numeral code).result = .ok c →
        (d'.numeral code).result = .ok c' →
          ∀ (f : Formula) (v : Variable) (ρ : Variable → Option Nat),
            (f.subst v c).valuesUnder ρ = (f.subst v c').valuesUnder ρ := by
  refine ⟨?_, ?_, ?_⟩
  . intro t r s v hr _ h
    refine ⟨?_, isSome_value?_subst_iff hr⟩
    rw [value?_subst, value?_subst, h]
  . intro n
    refine ⟨chain n, result_standardNumeral n, ?_⟩
    intro t v
    rw [answer_compactNumeral, value?_subst, value?_subst, value?_chain, value?_compact]
  . intro d d' code c c' hc hc' f v ρ
    obtain ⟨hclosed, hvalue⟩ := Diagonalizer.numeral_spec hc
    obtain ⟨hclosed', hvalue'⟩ := Diagonalizer.numeral_spec hc'
    apply Formula.valuesUnder_subst_congr
    rw [valueUnder?_of_isClosed hclosed, valueUnder?_of_isClosed hclosed', hvalue, hvalue']

theorem value?_interchange_mul :
    (add (chain 2) (chain 3)).isClosed = true ∧ (chain 5).isClosed = true ∧
      (add (chain 2) (chain 3)).value? = (chain 5).value? ∧
      ((mul (.var ⟨0⟩) (.succ (.var ⟨0⟩))).subst ⟨0⟩ (.add (chain 2) (chain 3))).value? =
        ((mul (.var ⟨0⟩) (.succ (.var ⟨0⟩))).subst ⟨0⟩ (chain 5)).value? ∧
      ((mul (.var ⟨0⟩) (.succ (.var ⟨0⟩))).subst ⟨0⟩ (chain 5)).value?.isSome = true ∧
      (Diagonalizer.numeral { limit := none } 6).result = .ok (chain 6) ∧
      (Diagonalizer.numeral { form := .compact } 6).result = .ok (compact 6) ∧
      ((Formula.ex ⟨1⟩ (.less (.add (.var ⟨0⟩) (.var ⟨1⟩)) (.var ⟨1⟩))).subst ⟨0⟩
          (chain 6)).valuesUnder (fun _ => some 3) =
        ((Formula.ex ⟨1⟩ (.less (.add (.var ⟨0⟩) (.var ⟨1⟩)) (.var ⟨1⟩))).subst ⟨0⟩
          (compact 6)).valuesUnder (fun _ => some 3) := by
  obtain ⟨hterms, _, hforms⟩ := value?_interchange
  obtain ⟨hvalue, hsome⟩ := hterms (.mul (.var ⟨0⟩) (.succ (.var ⟨0⟩))) (.add (chain 2) (chain 3))
    (chain 5) ⟨0⟩ (by decide) (by decide) (by decide)
  refine ⟨by decide, by decide, by decide, hvalue, ?_, rfl, rfl, ?_⟩
  . rw [← hvalue]
    exact hsome.2 (by decide)
  . exact hforms { limit := none } { form := .compact } 6 _ _ rfl rfl _ _ _

end Arithmetization
