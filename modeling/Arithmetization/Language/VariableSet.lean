import Arithmetization.Language.Variable

/-!
This module contains finite sets of variables, kept as lists in strictly ascending order. A set
has one such list, so two sets with the same members are equal.
-/

namespace Arithmetization

structure VariableSet where
  toList : List Variable
  ascending : toList.Pairwise (· < ·)
deriving DecidableEq

namespace VariableSet

instance : Membership Variable VariableSet := ⟨fun s v => v ∈ s.toList⟩

instance (v : Variable) (s : VariableSet) : Decidable (v ∈ s) :=
  inferInstanceAs (Decidable (v ∈ s.toList))

@[simp]
theorem mem_toList {v : Variable} {s : VariableSet} : v ∈ s.toList ↔ v ∈ s := Iff.rfl

instance (p : Variable → Prop) [DecidablePred p] (s : VariableSet) : Decidable (∀ v ∈ s, p v) :=
  inferInstanceAs (Decidable (∀ v ∈ s.toList, p v))

def empty : VariableSet := ⟨[], .nil⟩

instance : EmptyCollection VariableSet := ⟨empty⟩

@[simp]
theorem not_mem_empty {v : Variable} : ¬ v ∈ (∅ : VariableSet) := List.not_mem_nil

def singleton (v : Variable) : VariableSet := ⟨[v], List.pairwise_singleton ..⟩

@[simp]
theorem mem_singleton {v w : Variable} : v ∈ singleton w ↔ v = w := List.mem_singleton

def isEmpty (s : VariableSet) : Bool := s.toList.isEmpty

theorem isEmpty_iff {s : VariableSet} : s.isEmpty = true ↔ ∀ v, ¬ v ∈ s := by
  simp only [isEmpty, List.isEmpty_iff, List.eq_nil_iff_forall_not_mem, mem_toList]

theorem mem_takeWhile_lt {u v : Variable} {r : List Variable} (hr : r.Pairwise (· < ·)) :
    u ∈ r.takeWhile (· < v) ↔ u ∈ r ∧ u < v := by
  induction r with
  | nil => simp
  | cons w r ih =>
    rw [List.pairwise_cons] at hr
    by_cases hw : w < v
    . simp only [List.takeWhile_cons, hw, decide_true, ite_true, List.mem_cons, ih hr.2]
      grind
    . simp only [List.takeWhile_cons, hw, decide_false, Bool.false_eq_true, ite_false,
        List.not_mem_nil, List.mem_cons, false_iff]
      rintro ⟨rfl | hu, huv⟩
      . exact hw huv
      . exact hw (Variable.lt_trans (hr.1 u hu) huv)

theorem mem_dropWhile_not_gt {u v : Variable} {r : List Variable} (hr : r.Pairwise (· < ·)) :
    u ∈ r.dropWhile (¬ v < ·) ↔ u ∈ r ∧ v < u := by
  induction r with
  | nil => simp
  | cons w r ih =>
    rw [List.pairwise_cons] at hr
    by_cases hw : v < w
    . simp only [List.dropWhile_cons, hw, not_true, decide_false, Bool.false_eq_true, ite_false,
        List.mem_cons]
      constructor
      . rintro (rfl | hu)
        . exact ⟨.inl rfl, hw⟩
        . exact ⟨.inr hu, Variable.lt_trans hw (hr.1 u hu)⟩
      . exact And.left
    . simp only [List.dropWhile_cons, hw, not_false_iff, decide_true, ite_true, ih hr.2,
        List.mem_cons]
      grind

def merge : List Variable → List Variable → List Variable
  | [], r => r
  | v :: l, r => r.takeWhile (· < v) ++ v :: merge l (r.dropWhile (¬ v < ·))

theorem mem_merge {u : Variable} {l r : List Variable} (hr : r.Pairwise (· < ·)) :
    u ∈ merge l r ↔ u ∈ l ∨ u ∈ r := by
  induction l generalizing r with
  | nil => simp [merge]
  | cons v l ih =>
    have hsuffix := hr.sublist (List.dropWhile_sublist (¬ v < ·))
    simp only [merge, List.mem_append, List.mem_cons, ih hsuffix, mem_takeWhile_lt hr,
      mem_dropWhile_not_gt hr]
    have := Variable.lt_or_eq_or_gt u v
    grind

theorem ascending_merge {l r : List Variable} (hl : l.Pairwise (· < ·)) (hr : r.Pairwise (· < ·)) :
    (merge l r).Pairwise (· < ·) := by
  induction l generalizing r with
  | nil => exact hr
  | cons v l ih =>
    rw [List.pairwise_cons] at hl
    have hsuffix := hr.sublist (List.dropWhile_sublist (¬ v < ·))
    have habove : ∀ u ∈ merge l (r.dropWhile (¬ v < ·)), v < u := by
      intro u hu
      rcases (mem_merge hsuffix).1 hu with hu | hu
      . exact hl.1 u hu
      . exact ((mem_dropWhile_not_gt hr).1 hu).2
    rw [merge, List.pairwise_append, List.pairwise_cons]
    refine ⟨hr.sublist (List.takeWhile_sublist _), ⟨habove, ih hl.2 hsuffix⟩, ?_⟩
    intro u hu w hw
    have huv := ((mem_takeWhile_lt hr).1 hu).2
    rcases List.mem_cons.1 hw with rfl | hw
    . exact huv
    . exact Variable.lt_trans huv (habove w hw)

def union (s t : VariableSet) : VariableSet :=
  ⟨merge s.toList t.toList, ascending_merge s.ascending t.ascending⟩

instance : Union VariableSet := ⟨union⟩

@[simp]
theorem mem_union {v : Variable} {s t : VariableSet} : v ∈ s ∪ t ↔ v ∈ s ∨ v ∈ t :=
  mem_merge t.ascending

def insert (s : VariableSet) (v : Variable) : VariableSet :=
  singleton v ∪ s

@[simp]
theorem mem_insert {v w : Variable} {s : VariableSet} : w ∈ s.insert v ↔ w = v ∨ w ∈ s := by
  simp [insert]

def filter (s : VariableSet) (p : Variable → Bool) : VariableSet :=
  ⟨s.toList.filter p, s.ascending.filter _⟩

@[simp]
theorem mem_filter {v : Variable} {s : VariableSet} {p : Variable → Bool} :
    v ∈ s.filter p ↔ v ∈ s ∧ p v = true :=
  List.mem_filter

def erase (s : VariableSet) (v : Variable) : VariableSet :=
  s.filter (· ≠ v)

@[simp]
theorem mem_erase {v w : Variable} {s : VariableSet} : w ∈ s.erase v ↔ w ∈ s ∧ w ≠ v := by
  simp [erase]

def size (s : VariableSet) : Nat := s.toList.length

theorem eq_of_ascending {l r : List Variable} (hl : l.Pairwise (· < ·)) (hr : r.Pairwise (· < ·))
    (h : ∀ v, v ∈ l ↔ v ∈ r) : l = r := by
  induction l generalizing r with
  | nil =>
    symm
    rw [List.eq_nil_iff_forall_not_mem]
    exact fun v hv => List.not_mem_nil ((h v).2 hv)
  | cons v l ih =>
    cases r with
    | nil => exact absurd ((h v).1 (List.mem_cons_self ..)) List.not_mem_nil
    | cons w r =>
      rw [List.pairwise_cons] at hl hr
      have hvw : v = w := by
        have hv := List.mem_cons.1 ((h v).1 (List.mem_cons_self ..))
        have hw := List.mem_cons.1 ((h w).2 (List.mem_cons_self ..))
        rcases hv with hv | hv
        . exact hv
        . rcases hw with hw | hw
          . exact hw.symm
          . exact absurd (Variable.lt_trans (hl.1 w hw) (hr.1 v hv)) (Variable.lt_irrefl v)
      subst hvw
      have hiff : ∀ u, u ∈ l ↔ u ∈ r := by
        intro u
        have hu := h u
        simp only [List.mem_cons] at hu
        have hl' := hl.1 u
        have hr' := hr.1 u
        have := Variable.lt_irrefl v
        grind
      rw [ih hl.2 hr.2 hiff]

theorem ext {s t : VariableSet} (h : ∀ v, v ∈ s ↔ v ∈ t) : s = t := by
  cases s
  cases t
  simp only [mk.injEq]
  exact eq_of_ascending ‹_› ‹_› h

end VariableSet

end Arithmetization
