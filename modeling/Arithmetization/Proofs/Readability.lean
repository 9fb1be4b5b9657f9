import Arithmetization.Code.Word
import Mathlib.Data.List.Basic

/-!
This module contains the unique readability of words. A word that spells an expression tells both
the expression and where it ends, as long as what follows does not begin with a star.
-/

namespace Arithmetization

namespace Word

def Detached (w : Word) : Prop :=
  w.head? ≠ some .star

@[simp]
theorem detached_nil : Detached [] := by
  simp [Detached]

@[simp]
theorem detached_cons {s : Symbol} {w : Word} : Detached (s :: w) ↔ s ≠ .star := by
  simp [Detached]

theorem takeWhile_stars {p : Word} (hp : Detached p) (n : Nat) :
    (List.replicate n Symbol.star ++ p).takeWhile (· = .star) = List.replicate n .star := by
  rw [List.takeWhile_append_of_pos]
  . cases p with
    | nil => simp
    | cons s p => simp [detached_cons.1 hp]
  . simp

theorem dropWhile_stars {p : Word} (hp : Detached p) (n : Nat) :
    (List.replicate n Symbol.star ++ p).dropWhile (· = .star) = p := by
  rw [List.dropWhile_append_of_pos]
  . cases p with
    | nil => simp
    | cons s p => simp [detached_cons.1 hp]
  . simp

def Separates (write write' : Word → Word) (same : Prop) : Prop :=
  ∀ p q, Detached p → Detached q → write p = write' q → same ∧ p = q

namespace Separates

variable {l l' r r' write write' body body' : Word → Word} {same same' : Prop}

theorem spell_variable (v w : Variable) : Separates v.spell w.spell (v = w) := by
  intro p q hp hq heq
  rw [Variable.spell, Variable.spell, List.cons_inj_right] at heq
  -- What follows begins with no star, so the stars in front are those of the variables.
  have hstars := congrArg (List.takeWhile (· = Symbol.star)) heq
  have hrest := congrArg (List.dropWhile (· = Symbol.star)) heq
  rw [takeWhile_stars hp, takeWhile_stars hq] at hstars
  rw [dropWhile_stars hp, dropWhile_stars hq] at hrest
  have hlength := congrArg List.length hstars
  rw [List.length_replicate, List.length_replicate, ← Variable.eq_iff] at hlength
  exact ⟨hlength, hrest⟩

theorem mono (h : Separates write write' same) (himp : same → same') :
    Separates write write' same' := by
  intro p q hp hq heq
  obtain ⟨hsame, hrest⟩ := h p q hp hq heq
  exact ⟨himp hsame, hrest⟩

theorem symm (h : Separates write write' same) : Separates write' write same := by
  intro p q hp hq heq
  obtain ⟨hsame, hrest⟩ := h q p hq hp heq.symm
  exact ⟨hsame, hrest.symm⟩

theorem of_head? (h : ∀ p q, (write p).head? ≠ (write' q).head?) : Separates write write' same := by
  intro p q _ _ heq
  exact absurd (congrArg List.head? heq) (h p q)

theorem enclosed {operator operator' : Symbol} (hl : Separates l l' same)
    (hr : Separates r r' same') (ho : operator ≠ .star) (ho' : operator' ≠ .star) :
    Separates (enclosed operator l r) (enclosed operator' l' r')
      (operator = operator' ∧ same ∧ same') := by
  intro p q hp hq heq
  rw [Word.enclosed, Word.enclosed, List.cons_inj_right] at heq
  obtain ⟨hleft, hmiddle⟩ := hl _ _ (by simpa using ho) (by simpa using ho') heq
  rw [List.cons.injEq] at hmiddle
  obtain ⟨hright, hrest⟩ := hr _ _ (by simp) (by simp) hmiddle.2
  rw [List.cons_inj_right] at hrest
  exact ⟨⟨hmiddle.1, hleft, hright⟩, hrest⟩

theorem quantified {quantifier quantifier' : Symbol} {v w : Variable}
    (h : Separates body body' same) :
    Separates (quantified quantifier v body) (quantified quantifier' w body')
      (quantifier = quantifier' ∧ v = w ∧ same) := by
  intro p q hp hq heq
  rw [Word.quantified, Word.quantified, List.cons.injEq] at heq
  obtain ⟨hvariable, hbody⟩ := spell_variable v w _ _ (by simp) (by simp) heq.2
  rw [List.cons_inj_right] at hbody
  obtain ⟨hsame, hrest⟩ := h _ _ (by simp) (by simp) hbody
  rw [List.cons_inj_right] at hrest
  exact ⟨⟨heq.1, hvariable, hsame⟩, hrest⟩

end Separates

end Word

open Word

namespace Term

theorem separates_spell (t u : Term) : Separates t.spell u.spell (t = u) := by
  induction t generalizing u with
  | zero =>
    cases u with
    | zero =>
      intro p q _ _ heq
      exact ⟨rfl, List.tail_eq_of_cons_eq heq⟩
    | var w => exact .of_head? (by simp [spell, Variable.spell])
    | succ u => exact .of_head? (by simp [spell])
    | add l r | mul l r => exact .of_head? (by simp [spell, enclosed])
  | var v =>
    cases u with
    | var w => exact (Separates.spell_variable v w).mono (by simp)
    | zero | succ _ | add _ _ | mul _ _ =>
      exact .of_head? (by simp [spell, Variable.spell, enclosed])
  | succ t ih =>
    cases u with
    | succ u =>
      intro p q _ _ heq
      rw [spell, spell, List.cons_inj_right, List.cons_inj_right] at heq
      obtain ⟨hsame, hrest⟩ := ih u _ _ (by simp) (by simp) heq
      rw [List.cons_inj_right] at hrest
      exact ⟨congrArg succ hsame, hrest⟩
    | zero | var _ | add _ _ | mul _ _ =>
      exact .of_head? (by simp [spell, Variable.spell, enclosed])
  | add l r ihl ihr =>
    cases u with
    | add l' r' | mul l' r' =>
      apply (Separates.enclosed (ihl l') (ihr r') (by simp) (by simp)).mono
      simp
    | zero | var _ | succ _ => exact .of_head? (by simp [spell, Variable.spell, enclosed])
  | mul l r ihl ihr =>
    cases u with
    | add l' r' | mul l' r' =>
      apply (Separates.enclosed (ihl l') (ihr r') (by simp) (by simp)).mono
      simp
    | zero | var _ | succ _ => exact .of_head? (by simp [spell, Variable.spell, enclosed])

theorem separates_spell_formula (t : Term) (f : Formula) : Separates t.spell f.spell False := by
  induction t generalizing f with
  | zero | var _ | succ _ _ =>
    cases f <;>
      exact .of_head? (by simp [spell, Formula.spell, Variable.spell, enclosed, quantified])
  | add l r ihl ihr | mul l r ihl ihr =>
    cases f with
    -- The arguments may be the same on both sides, so the operators have to differ.
    | equal l' r' | less l' r' | proof l' r' =>
      apply (Separates.enclosed (separates_spell l l') (separates_spell r r') _ _).mono
      all_goals simp
    -- The arguments are of different kinds, so the left ones differ already.
    | and l' r' | or l' r' =>
      apply (Separates.enclosed (ihl l') (ihr r') _ _).mono
      all_goals simp
    | not _ | all _ _ | ex _ _ =>
      exact .of_head? (by simp [spell, Formula.spell, enclosed, quantified])

end Term

namespace Formula

theorem separates_spell (f g : Formula) : Separates f.spell g.spell (f = g) := by
  induction f generalizing g with
  | equal l r | less l r | proof l r =>
    cases g with
    | equal l' r' | less l' r' | proof l' r' =>
      apply (Separates.enclosed (l.separates_spell l') (r.separates_spell r') _ _).mono
      all_goals simp
    | and l' r' | or l' r' =>
      apply (Separates.enclosed (l.separates_spell_formula l') (r.separates_spell_formula r')
        _ _).mono
      all_goals simp
    | not _ | all _ _ | ex _ _ => exact .of_head? (by simp [spell, enclosed, quantified])
  | and l r ihl ihr | or l r ihl ihr =>
    cases g with
    | equal l' r' | less l' r' | proof l' r' =>
      apply (Separates.enclosed (l'.separates_spell_formula l).symm
        (r'.separates_spell_formula r).symm _ _).mono
      all_goals simp
    | and l' r' | or l' r' =>
      apply (Separates.enclosed (ihl l') (ihr r') _ _).mono
      all_goals simp
    | not _ | all _ _ | ex _ _ => exact .of_head? (by simp [spell, enclosed, quantified])
  | not f ih =>
    cases g with
    | not g =>
      intro p q hp hq heq
      rw [spell, spell, List.cons_inj_right] at heq
      obtain ⟨hsame, hrest⟩ := ih g p q hp hq heq
      exact ⟨congrArg not hsame, hrest⟩
    | _ => exact .of_head? (by simp [spell, enclosed, quantified])
  | all v f ih | ex v f ih =>
    cases g with
    | all w g | ex w g =>
      apply (Separates.quantified (ih g)).mono
      simp
    | _ => exact .of_head? (by simp [spell, enclosed, quantified])

end Formula

namespace Expression

theorem separates_spell (a b : Expression) : Separates a.spell b.spell (a = b) := by
  cases a with
  | term t =>
    cases b with
    | term u => exact (t.separates_spell u).mono (congrArg term)
    | formula f => exact (t.separates_spell_formula f).mono False.elim
  | formula f =>
    cases b with
    | term t => exact (t.separates_spell_formula f).symm.mono False.elim
    | formula g => exact (f.separates_spell g).mono (congrArg formula)

theorem word_injective {a b : Expression} (h : a.word = b.word) : a = b :=
  (separates_spell a b [] [] detached_nil detached_nil h).1

end Expression

end Arithmetization
