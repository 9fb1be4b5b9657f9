import Arithmetization.Proofs.Readability
import Mathlib.Data.List.Chain

/-!
This module contains the words of expressions that begin other words. What follows an expression in
a word cannot begin with a star, unless the expression is a variable: stars stand only behind a
letter or another star, and no other expression ends in one of these. So no expression begins
another one, except that a variable begins those with more stars.
-/

namespace Arithmetization

namespace Word

variable {w rest : Word} {write l r body : Word → Word}

def MayFollow (s s' : Symbol) : Prop :=
  s' = .star → s = .letter ∨ s = .star

def Rooted (w : Word) : Prop :=
  (Symbol.zero :: w).IsChain MayFollow

theorem rooted_nil : Rooted [] := .singleton _

theorem Rooted.isChain (h : Rooted w) : w.IsChain MayFollow :=
  List.isChain_of_isChain_cons h

theorem Rooted.cons (h : Rooted w) {s : Symbol} (hs : s ≠ .star) : Rooted (s :: w) := by
  rw [Rooted, List.isChain_cons] at h
  rw [Rooted, List.isChain_cons_cons, List.isChain_cons]
  refine ⟨fun hstar => absurd hstar hs, ?_, h.2⟩
  intro s' hs' hstar
  have hzero := h.1 s' hs' hstar
  simp at hzero

theorem Rooted.stars (h : Rooted w) (n : Nat) :
    (Symbol.letter :: (List.replicate n .star ++ w)).IsChain MayFollow := by
  induction n with
  | zero => exact (h.cons (by simp)).isChain
  | succ n ih =>
    rw [List.isChain_cons] at ih
    rw [List.replicate_succ, List.cons_append, List.isChain_cons_cons, List.isChain_cons]
    exact ⟨fun _ => .inl rfl, fun _ _ _ => .inr rfl, ih.2⟩

theorem rooted_variable (v : Variable) (h : Rooted rest) : Rooted (v.spell rest) := by
  rw [Rooted, Variable.spell, List.isChain_cons_cons]
  refine ⟨fun hstar => ?_, h.stars v.stars.toNat⟩
  contradiction

theorem rooted_enclosed {operator : Symbol} (hl : ∀ rest, Rooted rest → Rooted (l rest))
    (hr : ∀ rest, Rooted rest → Rooted (r rest)) (ho : operator ≠ .star) (h : Rooted rest) :
    Rooted (enclosed operator l r rest) := by
  apply Rooted.cons
  . apply hl
    apply Rooted.cons
    . apply hr
      exact h.cons (by simp)
    . exact ho
  . simp

theorem rooted_quantified {quantifier : Symbol} (hbody : ∀ rest, Rooted rest → Rooted (body rest))
    (hq : quantifier ≠ .star) (v : Variable) (h : Rooted rest) :
    Rooted (quantified quantifier v body rest) := by
  apply Rooted.cons
  . apply rooted_variable
    apply Rooted.cons
    . apply hbody
      exact h.cons (by simp)
    . simp
  . exact hq

theorem Appends.suffix (h : Appends write) (rest : Word) : rest <:+ write rest := by
  rw [h rest]
  exact List.suffix_append _ _

theorem suffix_enclosed (hl : Appends l) (hr : Appends r) (operator : Symbol) (rest : Word) :
    .rightParen :: rest <:+ enclosed operator l r rest := by
  have hright : .rightParen :: rest <:+ operator :: r (.rightParen :: rest) :=
    (hr.suffix _).trans (List.suffix_cons ..)
  exact (hright.trans (hl.suffix _)).trans (List.suffix_cons ..)

theorem suffix_quantified (h : Appends body) (quantifier : Symbol) (v : Variable) (rest : Word) :
    .rightParen :: rest <:+ quantified quantifier v body rest := by
  have hbody : .rightParen :: rest <:+ .leftParen :: body (.rightParen :: rest) :=
    (h.suffix _).trans (List.suffix_cons ..)
  exact (hbody.trans (v.appends_spell.suffix _)).trans (List.suffix_cons ..)

end Word

open Word

theorem Term.rooted_spell (t : Term) (rest : Word) (h : Rooted rest) : Rooted (t.spell rest) := by
  induction t generalizing rest with
  | zero => exact h.cons (by simp)
  | var v => exact rooted_variable v h
  | succ t ih =>
    have hclosed : Rooted (.rightParen :: rest) := h.cons (by simp)
    exact ((ih _ hclosed).cons (by simp)).cons (by simp)
  | add l r ihl ihr | mul l r ihl ihr => exact rooted_enclosed ihl ihr (by simp) h

theorem Formula.rooted_spell (f : Formula) (rest : Word) (h : Rooted rest) :
    Rooted (f.spell rest) := by
  induction f generalizing rest with
  | equal l r | less l r | proof l r =>
    exact rooted_enclosed l.rooted_spell r.rooted_spell (by simp) h
  | not f ih => exact (ih rest h).cons (by simp)
  | and l r ihl ihr | or l r ihl ihr => exact rooted_enclosed ihl ihr (by simp) h
  | all v f ih | ex v f ih => exact rooted_quantified ih (by simp) v h

theorem Formula.suffix_spell (f : Formula) (rest : Word) :
    .rightParen :: rest <:+ f.spell rest := by
  induction f with
  | equal l r | less l r | proof l r =>
    exact suffix_enclosed l.appends_spell r.appends_spell _ rest
  | not f ih => exact ih.trans (List.suffix_cons ..)
  | and l r | or l r => exact suffix_enclosed l.appends_spell r.appends_spell _ rest
  | all v f | ex v f => exact suffix_quantified f.appends_spell _ v rest

namespace Expression

variable {a b : Expression} {p : Word}

theorem rooted_word (e : Expression) : Rooted e.word := by
  cases e with
  | term t => exact t.rooted_spell [] rooted_nil
  | formula f => exact f.rooted_spell [] rooted_nil

theorem suffix_spell {e : Expression} (he : ∀ v, e ≠ .term (.var v)) (rest : Word) :
    .zero :: rest <:+ e.spell rest ∨ .rightParen :: rest <:+ e.spell rest := by
  cases e with
  | term t =>
    cases t with
    | zero => exact .inl List.suffix_rfl
    | var v => exact absurd rfl (he v)
    | succ t =>
      have hargument := t.appends_spell.suffix (.rightParen :: rest)
      exact .inr ((hargument.trans (List.suffix_cons ..)).trans (List.suffix_cons ..))
    | add l r | mul l r =>
      exact .inr (suffix_enclosed l.appends_spell r.appends_spell _ rest)
  | formula f => exact .inr (f.suffix_spell rest)

theorem detached_of_append_eq (ha : ∀ v, a ≠ .term (.var v)) (h : a.word ++ p = b.word) :
    Detached p := by
  have hchain : (a.spell p).IsChain MayFollow := by
    rw [a.appends_spell, ← word, h]
    exact b.rooted_word.isChain
  rcases suffix_spell ha p with hsuffix | hsuffix
  all_goals
    have hlast := List.isChain_cons.1 (hchain.suffix hsuffix)
    intro hstar
    have := hlast.1 .star hstar rfl
    simp at this

theorem eq_of_append_eq {q : Word} (hp : Detached p) (hq : Detached q)
    (h : a.word ++ p = b.word ++ q) : a = b ∧ p = q := by
  apply separates_spell a b p q hp hq
  rw [a.appends_spell, b.appends_spell]
  exact h

theorem prefix_variable_iff {v w : Variable} :
    (term (.var v)).word <+: (term (.var w)).word ↔ v.stars.toNat ≤ w.stars.toNat := by
  constructor
  . intro h
    have hlength := h.length_le
    simp only [word, spell, Term.spell, Variable.spell, List.length_cons, List.length_append,
      List.length_replicate] at hlength
    omega
  . intro h
    have hstars : List.replicate v.stars.toNat Symbol.star <+: List.replicate w.stars.toNat .star :=
      List.prefix_replicate_iff.2 ⟨by simpa using h, by simp⟩
    simpa [word, spell, Term.spell, Variable.spell] using hstars

theorem exists_var_of_head? {e : Expression} (h : e.word.head? = some .letter) :
    ∃ w, e = .term (.var w) := by
  cases e with
  | term t =>
    cases t with
    | var w => exact ⟨w, rfl⟩
    | _ => simp [word, spell, Term.spell, enclosed] at h
  | formula f => cases f <;> simp [word, spell, Formula.spell, enclosed, quantified] at h

theorem isProperPrefix_iff :
    a.word <+: b.word ∧ a.word ≠ b.word ↔
      ∃ v w, a = .term (.var v) ∧ b = .term (.var w) ∧ v.stars < w.stars := by
  constructor
  . intro h
    obtain ⟨p, hp⟩ := h.1
    by_cases ha : ∃ v, a = .term (.var v)
    . obtain ⟨v, rfl⟩ := ha
      have hhead : b.word.head? = some .letter := by
        rw [← hp]
        rfl
      obtain ⟨w, rfl⟩ := exists_var_of_head? hhead
      refine ⟨v, w, rfl, rfl, UInt32.lt_iff_toNat_lt.2 ?_⟩
      apply Nat.lt_of_le_of_ne (prefix_variable_iff.1 h.1)
      intro hstars
      obtain rfl := Variable.eq_iff.2 hstars
      exact h.2 rfl
    . -- What is left of the longer word begins with no star, so both words spell one expression.
      exfalso
      apply h.2
      rw [not_exists] at ha
      have hdetached := detached_of_append_eq ha hp
      rw [← List.append_nil b.word] at hp
      rw [(eq_of_append_eq hdetached detached_nil hp).1]
  . rintro ⟨v, w, rfl, rfl, hlt⟩
    rw [UInt32.lt_iff_toNat_lt] at hlt
    constructor
    . exact prefix_variable_iff.2 (Nat.le_of_lt hlt)
    . intro h
      cases word_injective h
      exact Nat.lt_irrefl _ hlt

theorem word_readable_in_context (a b : Expression) :
    (∀ p q : Word, p.head? ≠ some .star → q.head? ≠ some .star →
      a.word ++ p = b.word ++ q → a = b ∧ p = q) ∧
    (a.word <+: b.word ∧ a.word ≠ b.word ↔
      ∃ v w, a = .term (.var v) ∧ b = .term (.var w) ∧ v.stars < w.stars) := by
  constructor
  . intro p q hp hq h
    exact eq_of_append_eq hp hq h
  . exact isProperPrefix_iff

theorem word_readable_in_context_implies :
    ([.rightParen] : Word).head? ≠ some .star ∧
      (formula (.implies (.equal (.var ⟨1⟩) .zero) (.less .zero .zero))).word ++ [.rightParen] =
        (formula (.or (.not (.equal (.var ⟨1⟩) .zero)) (.less .zero .zero))).word ++
          [.rightParen] ∧
      formula (.implies (.equal (.var ⟨1⟩) .zero) (.less .zero .zero)) =
        formula (.or (.not (.equal (.var ⟨1⟩) .zero)) (.less .zero .zero)) ∧
      (term (.var ⟨1⟩)).word <+: (term (.var ⟨3⟩)).word ∧
      (term (.var ⟨1⟩)).word ≠ (term (.var ⟨3⟩)).word := by
  have hdetached : ([.rightParen] : Word).head? ≠ some .star := by decide
  obtain ⟨hread, _⟩ := word_readable_in_context
    (.formula (.implies (.equal (.var ⟨1⟩) .zero) (.less .zero .zero)))
    (.formula (.or (.not (.equal (.var ⟨1⟩) .zero)) (.less .zero .zero)))
  obtain ⟨_, hproper⟩ := word_readable_in_context (.term (.var ⟨1⟩)) (.term (.var ⟨3⟩))
  refine ⟨hdetached, rfl, (hread _ _ hdetached hdetached rfl).1, hproper.2 ?_⟩
  exact ⟨⟨1⟩, ⟨3⟩, rfl, rfl, by decide⟩

end Expression

end Arithmetization
