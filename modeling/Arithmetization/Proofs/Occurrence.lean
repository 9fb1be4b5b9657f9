import Arithmetization.Language.Expression
import Mathlib.Logic.Basic

/-!
This module contains the occurrences of variables in a formula, each with the quantifiers in whose
scope it lies. An occurrence is free if none of them is over its own variable, and what is put in
its place loses those of its variables that one of them is over.

Whether a variable occurs is asked in several ways, by recursions of their own. The main statement,
`traversals_agree`, says that they give the same answer on every term and formula.
-/

namespace Arithmetization

def Term.occurrences : Term → List Variable
  | .zero => []
  | .var v => [v]
  | .succ t => t.occurrences
  | .add l r => l.occurrences ++ r.occurrences
  | .mul l r => l.occurrences ++ r.occurrences

@[simp]
theorem Term.mem_occurrences {v : Variable} {t : Term} :
    v ∈ t.occurrences ↔ t.occurs v = true := by
  induction t with
  | zero => simp [occurrences, occurs]
  | var w => simp [occurrences, occurs, eq_comm]
  | succ t ih => exact ih
  | add l r ihl ihr | mul l r ihl ihr =>
    rw [occurrences, List.mem_append, ihl, ihr, occurs, Bool.or_eq_true]

theorem Term.isClosed_iff {t : Term} : t.isClosed = true ↔ ∀ v, t.occurs v = false := by
  induction t with
  | zero => simp [isClosed, occurs]
  | var w => simp [isClosed, occurs]
  | succ t ih => exact ih
  | add l r ihl ihr | mul l r ihl ihr =>
    simp only [isClosed, occurs, Bool.and_eq_true, Bool.or_eq_false_iff, ihl, ihr, forall_and]

theorem Term.isEmpty_variableSet_iff {t : Term} :
    t.variableSet.isEmpty = true ↔ t.isClosed = true := by
  simp only [isClosed_iff, VariableSet.isEmpty_iff, mem_variableSet, Bool.not_eq_true]

theorem Term.isSome_value?_iff {t : Term} : t.value?.isSome = true ↔ t.isClosed = true := by
  induction t with
  | zero => simp [value?, isClosed]
  | var w => simp [value?, isClosed]
  | succ t ih =>
    rw [value?, isClosed, ← ih]
    cases t.value? <;> simp
  | add l r ihl ihr | mul l r ihl ihr =>
    rw [value?, isClosed, Bool.and_eq_true, ← ihl, ← ihr]
    cases l.value? <;> cases r.value? <;> simp

structure Occurrence where
  name : Variable
  binders : List Variable
deriving DecidableEq

def Occurrence.under (o : Occurrence) (v : Variable) : Occurrence :=
  { o with binders := v :: o.binders }

namespace Formula

def occurrences : Formula → List Occurrence
  | .equal l r => ofTerms l r
  | .less l r => ofTerms l r
  | .not f => f.occurrences
  | .and l r => l.occurrences ++ r.occurrences
  | .or l r => l.occurrences ++ r.occurrences
  | .all v f => f.occurrences.map (·.under v)
  | .ex v f => f.occurrences.map (·.under v)
  | .proof p f => ofTerms p f
where
  ofTerms (l r : Term) : List Occurrence :=
    (l.occurrences ++ r.occurrences).map (⟨·, []⟩)

/--
Some free occurrence of `v` lies outside the scope of every quantifier over `w`.
-/
def Exposes (f : Formula) (v w : Variable) : Prop :=
  ∃ o ∈ f.occurrences, o.name = v ∧ ¬ v ∈ o.binders ∧ ¬ w ∈ o.binders

instance (f : Formula) (v w : Variable) : Decidable (f.Exposes v w) :=
  inferInstanceAs (Decidable (∃ o ∈ f.occurrences, o.name = v ∧ ¬ v ∈ o.binders ∧ ¬ w ∈ o.binders))

section

variable {u v w : Variable} {f l r : Formula} {s t : Term}

@[simp]
theorem exposes_equal : (equal s t).Exposes v w ↔ s.occurs v = true ∨ t.occurs v = true := by
  simp only [Exposes, occurrences, occurrences.ofTerms, List.mem_map, exists_exists_and_eq_and,
    List.mem_append, Term.mem_occurrences, List.not_mem_nil]
  simp

@[simp]
theorem exposes_less : (less s t).Exposes v w ↔ s.occurs v = true ∨ t.occurs v = true :=
  exposes_equal

@[simp]
theorem exposes_proof : (proof s t).Exposes v w ↔ s.occurs v = true ∨ t.occurs v = true :=
  exposes_equal

@[simp]
theorem exposes_not : (not f).Exposes v w ↔ f.Exposes v w := Iff.rfl

@[simp]
theorem exposes_and : (and l r).Exposes v w ↔ l.Exposes v w ∨ r.Exposes v w := by
  simp only [Exposes, occurrences, List.mem_append, or_and_right, exists_or]

@[simp]
theorem exposes_or : (or l r).Exposes v w ↔ l.Exposes v w ∨ r.Exposes v w :=
  exposes_and

@[simp]
theorem exposes_all : (all u f).Exposes v w ↔ u ≠ v ∧ u ≠ w ∧ f.Exposes v w := by
  simp only [Exposes, occurrences, List.mem_map, exists_exists_and_eq_and, Occurrence.under,
    List.mem_cons, not_or]
  grind

@[simp]
theorem exposes_ex : (ex u f).Exposes v w ↔ u ≠ v ∧ u ≠ w ∧ f.Exposes v w :=
  exposes_all

end

@[simp]
theorem exposes_self {f : Formula} {v : Variable} : f.Exposes v v ↔ f.occursFree v = true := by
  induction f with
  | equal l r | less l r | proof l r => simp [occursFree]
  | not f ih => exact ih
  | and l r ihl ihr | or l r ihl ihr => simp [occursFree, ihl, ihr]
  | all u f ih | ex u f ih => simp [occursFree, ih]

theorem binders_of_mem_ofTerms {l r : Term} {o : Occurrence} (h : o ∈ occurrences.ofTerms l r) :
    o.binders = [] := by
  obtain ⟨v, _, rfl⟩ := List.mem_map.1 h
  rfl

theorem mem_boundVariables_of_mem_binders {f : Formula} {o : Occurrence} {w : Variable}
    (ho : o ∈ f.occurrences) (hw : w ∈ o.binders) : w ∈ f.boundVariables := by
  induction f generalizing o with
  | equal l r | less l r | proof l r =>
    rw [binders_of_mem_ofTerms ho] at hw
    contradiction
  | not f ih => exact ih ho hw
  | and l r ihl ihr | or l r ihl ihr =>
    simp only [mem_boundVariables_and, mem_boundVariables_or]
    obtain ho | ho := List.mem_append.1 ho
    . exact .inl (ihl ho hw)
    . exact .inr (ihr ho hw)
  | all u f ih | ex u f ih =>
    simp only [mem_boundVariables_all, mem_boundVariables_ex]
    obtain ⟨o', ho', rfl⟩ := List.mem_map.1 ho
    obtain rfl | hw := List.mem_cons.1 hw
    . exact .inl rfl
    . exact .inr (ih ho' hw)

theorem exposes_of_not_mem_boundVariables {f : Formula} {v w : Variable}
    (hv : f.occursFree v = true) (hw : ¬ w ∈ f.boundVariables) : f.Exposes v w := by
  obtain ⟨o, ho, hname, hfree, _⟩ := exposes_self.2 hv
  exact ⟨o, ho, hname, hfree, fun h => hw (mem_boundVariables_of_mem_binders ho h)⟩

end Formula

theorem traversals_agree :
    (∀ (f : Formula) (v : Variable), f.occursFree v = true ↔ v ∈ f.freeVariables) ∧
      (∀ f : Formula, f.isSentence = true ↔ ∀ w, f.occursFree w = false) ∧
      (∀ (t : Term) (v : Variable), t.occurs v = true ↔ v ∈ t.variableSet) ∧
      ∀ t : Term, (t.isClosed = true ↔ t.variableSet.isEmpty = true) ∧
        (t.isClosed = true ↔ t.value?.isSome = true) := by
  refine ⟨?_, fun f => Formula.isSentence_iff, ?_, ?_⟩
  . intro f v
    exact Formula.mem_freeVariables.symm
  . intro t v
    exact Term.mem_variableSet.symm
  . intro t
    exact ⟨Term.isEmpty_variableSet_iff.symm, Term.isSome_value?_iff.symm⟩

end Arithmetization
