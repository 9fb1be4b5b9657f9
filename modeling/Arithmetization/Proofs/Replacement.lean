import Arithmetization.Proofs.Readability

/-!
This module contains substitution as it is done on words. Where a word spells a variable, its letter
and all stars after it form a block, and replacing the blocks of a variable from left to right does
to the word what substitution does to the expression.
-/

namespace Arithmetization

namespace Word

/--
Replace every block of the variable `v`, that is its letter with as many stars as it has and not one
more, by the word `r`, from left to right. Everything else is copied.
-/
def replaceBlocks (w : Word) (v : Variable) (r : Word) : Word :=
  match w with
  | [] => []
  | s :: w =>
    if s = .letter ∧ (w.takeWhile (· = .star)).length = v.stars.toNat then
      r ++ replaceBlocks (w.dropWhile (· = .star)) v r
    else
      s :: replaceBlocks w v r
termination_by w.length
decreasing_by
  . exact Nat.lt_succ_of_le (List.dropWhile_sublist _).length_le
  . exact Nat.lt_succ_self _

section

variable (v : Variable) (r : Word)

@[simp]
theorem replaceBlocks_nil : replaceBlocks [] v r = [] := by
  rw [replaceBlocks]

theorem replaceBlocks_cons {s : Symbol} (hs : s ≠ .letter) (w : Word) :
    replaceBlocks (s :: w) v r = s :: replaceBlocks w v r := by
  rw [replaceBlocks, if_neg]
  intro h
  exact hs h.1

theorem replaceBlocks_stars (n : Nat) (w : Word) :
    replaceBlocks (List.replicate n .star ++ w) v r =
      List.replicate n .star ++ replaceBlocks w v r := by
  induction n with
  | zero => rfl
  | succ n ih =>
    rw [List.replicate_succ, List.cons_append, List.cons_append, replaceBlocks_cons, ih]
    simp

theorem replaceBlocks_spell_self {w : Word} (hw : Detached w) :
    replaceBlocks (v.spell w) v r = r ++ replaceBlocks w v r := by
  rw [Variable.spell, replaceBlocks, if_pos, dropWhile_stars hw]
  rw [takeWhile_stars hw, List.length_replicate]
  exact ⟨rfl, rfl⟩

theorem replaceBlocks_spell_of_ne {u : Variable} {w : Word} (hu : u ≠ v) (hw : Detached w) :
    replaceBlocks (u.spell w) v r = u.spell (replaceBlocks w v r) := by
  rw [Variable.spell, replaceBlocks, if_neg, replaceBlocks_stars]
  . rfl
  . rw [takeWhile_stars hw, List.length_replicate, ← Variable.eq_iff]
    intro h
    exact hu h.2

def Replaces (write write' : Word → Word) : Prop :=
  ∀ rest, Detached rest → replaceBlocks (write rest) v r = write' (replaceBlocks rest v r)

end

namespace Replaces

variable {v : Variable} {r : Word} {left left' right right' body body' : Word → Word}

theorem enclosed {operator : Symbol} (hl : Replaces v r left left')
    (hr : Replaces v r right right') (hletter : operator ≠ .letter) (hstar : operator ≠ .star) :
    Replaces v r (enclosed operator left right) (enclosed operator left' right') := by
  intro rest _
  rw [Word.enclosed, replaceBlocks_cons, hl, replaceBlocks_cons, hr, replaceBlocks_cons]
  . rfl
  all_goals simp [hletter, hstar]

theorem quantified {quantifier : Symbol} {u : Variable} (h : Replaces v r body body') (hu : u ≠ v)
    (hletter : quantifier ≠ .letter) :
    Replaces v r (quantified quantifier u body) (quantified quantifier u body') := by
  intro rest _
  rw [Word.quantified, replaceBlocks_cons, replaceBlocks_spell_of_ne _ _ hu, replaceBlocks_cons, h,
    replaceBlocks_cons]
  . rfl
  all_goals simp [hletter]

end Replaces

end Word

open Word

theorem Term.replaces_spell (t : Term) (v : Variable) (r : Term) :
    Replaces v r.word t.spell (t.subst v r).spell := by
  induction t with
  | zero =>
    intro rest _
    exact replaceBlocks_cons _ _ (by simp) rest
  | var u =>
    intro rest hrest
    rw [subst]
    split
    case isTrue h =>
      rw [spell, h, replaceBlocks_spell_self _ _ hrest, r.appends_spell]
      rfl
    case isFalse h => exact replaceBlocks_spell_of_ne _ _ h hrest
  | succ t ih =>
    intro rest _
    rw [spell, replaceBlocks_cons, replaceBlocks_cons, ih, replaceBlocks_cons]
    . rfl
    all_goals simp
  | add l m ihl ihm => exact Replaces.enclosed ihl ihm (by simp) (by simp)
  | mul l m ihl ihm => exact Replaces.enclosed ihl ihm (by simp) (by simp)

theorem Formula.replaces_spell {f : Formula} {v : Variable} (hv : ¬ v ∈ f.boundVariables)
    (r : Term) : Replaces v r.word f.spell (f.subst v r).spell := by
  induction f with
  | equal l m | less l m | proof l m =>
    exact Replaces.enclosed (l.replaces_spell v r) (m.replaces_spell v r) (by simp) (by simp)
  | not f ih =>
    intro rest hrest
    rw [mem_boundVariables_not] at hv
    rw [spell, replaceBlocks_cons, ih hv rest hrest]
    . rfl
    . simp
  | and f g ihf ihg | or f g ihf ihg =>
    simp only [mem_boundVariables_and, mem_boundVariables_or, not_or] at hv
    exact Replaces.enclosed (ihf hv.1) (ihg hv.2) (by simp) (by simp)
  | all u f ih | ex u f ih =>
    simp only [mem_boundVariables_all, mem_boundVariables_ex, not_or] at hv
    -- The quantifier is on another variable, so its block is copied.
    have hu : u ≠ v := Ne.symm hv.1
    rw [subst, if_neg hu]
    exact Replaces.quantified (ih hv.2) hu (by simp)

theorem word_subst (v : Variable) (r : Term) :
    (∀ t : Term, (t.subst v r).word = t.word.replaceBlocks v r.word) ∧
      ∀ f : Formula, ¬ v ∈ f.boundVariables →
        (f.subst v r).word = f.word.replaceBlocks v r.word := by
  constructor
  . intro t
    rw [Term.word, Term.word, t.replaces_spell v r [] detached_nil, replaceBlocks_nil]
  . intro f hv
    rw [Formula.word, Formula.word, Formula.replaces_spell hv r [] detached_nil, replaceBlocks_nil]

theorem word_subst_ex_less :
    ¬ (⟨0⟩ : Variable) ∈ (Formula.ex ⟨1⟩ (.less (.var ⟨0⟩) (.var ⟨1⟩))).boundVariables ∧
      ((Formula.ex ⟨1⟩ (.less (.var ⟨0⟩) (.var ⟨1⟩))).subst ⟨0⟩ (.succ (.var ⟨0⟩))).word =
        (Formula.ex ⟨1⟩ (.less (.var ⟨0⟩) (.var ⟨1⟩))).word.replaceBlocks ⟨0⟩
          (Term.succ (.var ⟨0⟩)).word :=
  ⟨by decide, (word_subst ⟨0⟩ (.succ (.var ⟨0⟩))).2 _ (by decide)⟩

end Arithmetization
