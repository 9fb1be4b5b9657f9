import Arithmetization.Code.Word
import Arithmetization.Proofs.Substitution
import Mathlib.Data.List.Basic

/-!
This module contains the comparison of two expressions in which different terms take the place of
the same variable, with the same result. They are built alike, except where one has the variable and
the other has what the variable becomes.
-/

namespace Arithmetization

namespace Term

variable {t u c e : Term} {v : Variable}

/--
Two terms that become the same when `c` in the first and `e` in the second takes the place of `v`.
Where neither of them is the variable, they are built alike.
-/
inductive Aligned (v : Variable) (c e : Term) : Term → Term → Prop where
  | left {u : Term} (h : u.subst v e = c) : Aligned v c e (.var v) u
  | right {t : Term} (h : t.subst v c = e) : Aligned v c e t (.var v)
  | zero : Aligned v c e .zero .zero
  | var {w : Variable} (h : w ≠ v) : Aligned v c e (.var w) (.var w)
  | succ {t u : Term} (h : Aligned v c e t u) : Aligned v c e t.succ u.succ
  | add {l l' r r' : Term} (hl : Aligned v c e l l') (hr : Aligned v c e r r') :
    Aligned v c e (.add l r) (.add l' r')
  | mul {l l' r r' : Term} (hl : Aligned v c e l l') (hr : Aligned v c e r r') :
    Aligned v c e (.mul l r) (.mul l' r')

namespace Aligned

theorem symm (h : Aligned v c e t u) : Aligned v e c u t := by
  induction h with
  | left h => exact .right h
  | right h => exact .left h
  | zero => exact .zero
  | var h => exact .var h
  | succ _ ih => exact .succ ih
  | add _ _ ihl ihr => exact .add ihl ihr
  | mul _ _ ihl ihr => exact .mul ihl ihr

theorem var_of_subst_eq {w : Variable} (h : (Term.var w).subst v c = u.subst v e) :
    Aligned v c e (.var w) u := by
  by_cases hw : w = v
  . subst hw
    rw [subst, if_pos rfl] at h
    exact .left h.symm
  . rw [subst, if_neg hw] at h
    cases u with
    | var w' =>
      by_cases hw' : w' = v
      . subst hw'
        rw [subst, if_pos rfl] at h
        apply right
        rw [subst, if_neg hw, h]
      . rw [subst, if_neg hw'] at h
        cases h
        exact .var hw
    | zero | succ _ | add _ _ | mul _ _ => simp [subst] at h

theorem of_subst_eq (h : t.subst v c = u.subst v e) : Aligned v c e t u := by
  induction t generalizing u with
  | zero =>
    cases u with
    | zero => exact .zero
    | var w => exact (var_of_subst_eq h.symm).symm
    | succ _ | add _ _ | mul _ _ => simp [subst] at h
  | var w => exact var_of_subst_eq h
  | succ t ih =>
    cases u with
    | succ u => exact .succ (ih (succ.inj h))
    | var w => exact (var_of_subst_eq h.symm).symm
    | zero | add _ _ | mul _ _ => simp [subst] at h
  | add l r ihl ihr =>
    cases u with
    | add l' r' =>
      obtain ⟨hl, hr⟩ := add.inj h
      exact .add (ihl hl) (ihr hr)
    | var w => exact (var_of_subst_eq h.symm).symm
    | zero | succ _ | mul _ _ => simp [subst] at h
  | mul l r ihl ihr =>
    cases u with
    | mul l' r' =>
      obtain ⟨hl, hr⟩ := mul.inj h
      exact .mul (ihl hl) (ihr hr)
    | var w => exact (var_of_subst_eq h.symm).symm
    | zero | succ _ | add _ _ => simp [subst] at h

theorem exists_subst_eq {n : Nat} (h : Aligned v c e t u) (hu : u.occurs v = true)
    (hc : ∀ r : Term, r.occurs v = true → r.subst v e ≠ c) (hn : t.size < n) :
    ∃ r : Term, r.size < n ∧ r.subst v c = e := by
  induction h with
  | left h => exact absurd h (hc _ hu)
  | right h => exact ⟨_, hn, h⟩
  | zero => contradiction
  | var h =>
    rw [occurs, decide_eq_true_eq] at hu
    exact absurd hu h
  | succ _ ih =>
    rw [size] at hn
    exact ih hu (by omega)
  | add _ _ ihl ihr | mul _ _ ihl ihr =>
    rw [occurs, Bool.or_eq_true] at hu
    rw [size] at hn
    obtain hu | hu := hu
    . exact ihl hu (by omega)
    . exact ihr hu (by omega)

end Aligned

end Term

namespace Word

def Embeds (write write' : Word → Word) : Prop :=
  ∀ p q, p.Sublist q → (write p).Sublist (write' q)

theorem Appends.embeds {write : Word → Word} (h : Appends write) : Embeds id write := by
  intro p q hpq
  rw [h]
  exact hpq.trans (List.sublist_append_right _ _)

namespace Embeds

variable {l l' r r' body body' write : Word → Word} {operator : Symbol}

theorem refl (h : Appends write) : Embeds write write := by
  intro p q hpq
  rw [h, h q]
  exact (List.Sublist.refl _).append hpq

theorem enclosed (hl : Embeds l l') (hr : Embeds r r') :
    Embeds (enclosed operator l r) (enclosed operator l' r') := by
  intro p q hpq
  exact ((hl _ _ ((hr _ _ (hpq.cons_cons _)).cons_cons _)).cons_cons _)

theorem enclosed_left (hl : Embeds write l) (hr : Embeds id r) :
    Embeds write (Word.enclosed operator l r) := by
  intro p q hpq
  exact (hl _ _ ((hr _ _ (hpq.cons _)).cons _)).cons _

theorem enclosed_right (hl : Embeds id l) (hr : Embeds write r) :
    Embeds write (Word.enclosed operator l r) := by
  intro p q hpq
  exact (hl _ _ ((hr _ _ (hpq.cons _)).cons _)).cons _

theorem quantified {quantifier : Symbol} {v : Variable} (h : Embeds body body') :
    Embeds (quantified quantifier v body) (quantified quantifier v body') := by
  intro p q hpq
  have hbody := (h _ _ (hpq.cons_cons .rightParen)).cons_cons .leftParen
  exact (refl v.appends_spell _ _ hbody).cons_cons _

end Embeds

end Word

open Word

namespace Term

variable {t u c e : Term} {v : Variable}

theorem embeds_spell_of_occurs (h : t.occurs v = true) : Embeds v.spell t.spell := by
  induction t with
  | zero => contradiction
  | var w =>
    rw [occurs, decide_eq_true_eq] at h
    subst h
    exact .refl w.appends_spell
  | succ t ih =>
    intro p q hpq
    exact ((ih h _ _ (hpq.cons _)).cons _).cons _
  | add l r ihl ihr | mul l r ihl ihr =>
    rw [occurs, Bool.or_eq_true] at h
    obtain h | h := h
    . exact .enclosed_left (ihl h) r.appends_spell.embeds
    . exact .enclosed_right l.appends_spell.embeds (ihr h)

theorem Aligned.embeds_spell (h : Aligned v c e t u)
    (hc : ∀ r : Term, r.occurs v = true → r.subst v e ≠ c) (ht : t.size < e.size)
    (hu : u.size < c.size) : Embeds u.spell t.spell := by
  induction h with
  | @left u h =>
    -- Without the variable the second term is `c` itself, and too large.
    have hoccurs : u.occurs v = false := by
      rw [Bool.eq_false_iff]
      intro hoccurs
      exact hc u hoccurs h
    rw [← h, subst_of_not_occurs hoccurs] at hu
    omega
  | @right t h =>
    -- Without the variable the first term would be `e`.
    apply embeds_spell_of_occurs
    rw [← Bool.not_eq_false]
    intro hoccurs
    rw [← h, subst_of_not_occurs hoccurs] at ht
    omega
  | zero => exact .refl (Term.appends_spell .zero)
  | @var w _ => exact .refl w.appends_spell
  | succ _ ih =>
    intro p q hpq
    rw [size] at ht hu
    exact ((ih (by omega) (by omega) _ _ (hpq.cons_cons _)).cons_cons _).cons_cons _
  | add _ _ ihl ihr | mul _ _ ihl ihr =>
    rw [size] at ht hu
    exact .enclosed (ihl (by omega) (by omega)) (ihr (by omega) (by omega))

end Term

namespace Formula

variable {f g : Formula} {c e : Term} {v : Variable}

inductive Aligned (v : Variable) (c e : Term) : Formula → Formula → Prop where
  | equal {l l' r r' : Term} (hl : Term.Aligned v c e l l') (hr : Term.Aligned v c e r r') :
    Aligned v c e (.equal l r) (.equal l' r')
  | less {l l' r r' : Term} (hl : Term.Aligned v c e l l') (hr : Term.Aligned v c e r r') :
    Aligned v c e (.less l r) (.less l' r')
  | proof {l l' r r' : Term} (hl : Term.Aligned v c e l l') (hr : Term.Aligned v c e r r') :
    Aligned v c e (.proof l r) (.proof l' r')
  | not {f g : Formula} (h : Aligned v c e f g) : Aligned v c e f.not g.not
  | and {l l' r r' : Formula} (hl : Aligned v c e l l') (hr : Aligned v c e r r') :
    Aligned v c e (l.and r) (l'.and r')
  | or {l l' r r' : Formula} (hl : Aligned v c e l l') (hr : Aligned v c e r r') :
    Aligned v c e (l.or r) (l'.or r')
  | all {w : Variable} {f g : Formula} (h : Aligned v c e f g) : Aligned v c e (.all w f) (.all w g)
  | ex {w : Variable} {f g : Formula} (h : Aligned v c e f g) : Aligned v c e (.ex w f) (.ex w g)

namespace Aligned

theorem of_subst_eq (hf : ¬ v ∈ f.boundVariables) (hg : ¬ v ∈ g.boundVariables)
    (h : f.subst v c = g.subst v e) : Aligned v c e f g := by
  induction f generalizing g with
  | equal l m =>
    cases g with
    | equal l' m' =>
      obtain ⟨hl, hm⟩ := equal.inj h
      exact .equal (.of_subst_eq hl) (.of_subst_eq hm)
    | _ => grind [subst]
  | less l m =>
    cases g with
    | less l' m' =>
      obtain ⟨hl, hm⟩ := less.inj h
      exact .less (.of_subst_eq hl) (.of_subst_eq hm)
    | _ => grind [subst]
  | proof l m =>
    cases g with
    | proof l' m' =>
      obtain ⟨hl, hm⟩ := proof.inj h
      exact .proof (.of_subst_eq hl) (.of_subst_eq hm)
    | _ => grind [subst]
  | not f ih =>
    cases g with
    | not g =>
      rw [mem_boundVariables_not] at hf hg
      exact .not (ih hf hg (not.inj h))
    | _ => grind [subst]
  | and l m ihl ihm =>
    cases g with
    | and l' m' =>
      rw [mem_boundVariables_and, not_or] at hf hg
      obtain ⟨hl, hm⟩ := and.inj h
      exact .and (ihl hf.1 hg.1 hl) (ihm hf.2 hg.2 hm)
    | _ => grind [subst]
  | or l m ihl ihm =>
    cases g with
    | or l' m' =>
      rw [mem_boundVariables_or, not_or] at hf hg
      obtain ⟨hl, hm⟩ := or.inj h
      exact .or (ihl hf.1 hg.1 hl) (ihm hf.2 hg.2 hm)
    | _ => grind [subst]
  | all w f ih =>
    cases g with
    | all w' g =>
      rw [mem_boundVariables_all, not_or] at hf hg
      rw [subst, subst, if_neg (Ne.symm hf.1), if_neg (Ne.symm hg.1)] at h
      obtain ⟨rfl, hbody⟩ := all.inj h
      exact .all (ih hf.2 hg.2 hbody)
    | _ => grind [subst]
  | ex w f ih =>
    cases g with
    | ex w' g =>
      rw [mem_boundVariables_ex, not_or] at hf hg
      rw [subst, subst, if_neg (Ne.symm hf.1), if_neg (Ne.symm hg.1)] at h
      obtain ⟨rfl, hbody⟩ := ex.inj h
      exact .ex (ih hf.2 hg.2 hbody)
    | _ => grind [subst]

theorem exists_subst_eq {n : Nat} (h : Aligned v c e f g) (hg : g.occursFree v = true)
    (hc : ∀ r : Term, r.occurs v = true → r.subst v e ≠ c) (hn : f.size ≤ n) :
    ∃ r : Term, r.size < n ∧ r.subst v c = e := by
  induction h with
  | equal hl hr | less hl hr | proof hl hr =>
    rw [occursFree, Bool.or_eq_true] at hg
    rw [size] at hn
    obtain hg | hg := hg
    . exact hl.exists_subst_eq hg hc (by omega)
    . exact hr.exists_subst_eq hg hc (by omega)
  | not _ ih =>
    rw [size] at hn
    exact ih hg (by omega)
  | and _ _ ihl ihr | or _ _ ihl ihr =>
    rw [occursFree, Bool.or_eq_true] at hg
    rw [size] at hn
    obtain hg | hg := hg
    . exact ihl hg (by omega)
    . exact ihr hg (by omega)
  | all _ ih | ex _ ih =>
    rw [occursFree, Bool.and_eq_true] at hg
    rw [size] at hn
    exact ih hg.2 (by omega)

theorem embeds_spell (h : Aligned v c e f g)
    (hc : ∀ r : Term, r.occurs v = true → r.subst v e ≠ c) (hf : f.size ≤ e.size)
    (hg : g.size ≤ c.size) : Embeds g.spell f.spell := by
  induction h with
  | equal hl hr | less hl hr | proof hl hr =>
    rw [size] at hf hg
    apply Embeds.enclosed
    . exact hl.embeds_spell hc (by omega) (by omega)
    . exact hr.embeds_spell hc (by omega) (by omega)
  | not _ ih =>
    intro p q hpq
    rw [size] at hf hg
    exact (ih (by omega) (by omega) _ _ hpq).cons_cons _
  | and _ _ ihl ihr | or _ _ ihl ihr =>
    rw [size] at hf hg
    exact .enclosed (ihl (by omega) (by omega)) (ihr (by omega) (by omega))
  | all _ ih | ex _ ih =>
    rw [size] at hf hg
    exact .quantified (ih (by omega) (by omega))

end Aligned

end Formula

end Arithmetization
