import Arithmetization.Proofs.Growth
import Arithmetization.Proofs.Numeral

/-!
This module contains the numbers of the parts of an expression. The word of a subexpression is a
contiguous part of the word of the whole, which begins with a symbol of its own, and so are the
digits. The number of the whole is therefore the greater one; and since the numeral of a number has
a greater number than the one that it denotes, no expression contains the numeral of its own number.
-/

namespace Arithmetization

namespace Expression

def arguments : Expression → List Expression
  | .term .zero => []
  | .term (.var _) => []
  | .term (.succ t) => [.term t]
  | .term (.add l r) => [.term l, .term r]
  | .term (.mul l r) => [.term l, .term r]
  | .formula (.equal l r) => [.term l, .term r]
  | .formula (.less l r) => [.term l, .term r]
  | .formula (.not f) => [.formula f]
  | .formula (.and l r) => [.formula l, .formula r]
  | .formula (.or l r) => [.formula l, .formula r]
  | .formula (.all _ f) => [.formula f]
  | .formula (.ex _ f) => [.formula f]
  | .formula (.proof p f) => [.term p, .term f]

inductive IsSubexpression : Expression → Expression → Prop where
  | refl (e : Expression) : IsSubexpression e e
  | argument {a b e : Expression} (h : IsSubexpression a b) (hb : b ∈ e.arguments) :
    IsSubexpression a e

def IsProperSubexpression (a e : Expression) : Prop :=
  ∃ b ∈ e.arguments, IsSubexpression a b

end Expression

open Expression

theorem Term.isSubexpression_subst {t : Term} {v : Variable} (h : t.occurs v = true) (r : Term) :
    IsSubexpression (.term r) (.term (t.subst v r)) := by
  induction t with
  | zero => contradiction
  | var w =>
    rw [occurs, decide_eq_true_eq] at h
    rw [subst, if_pos h]
    exact .refl _
  | succ t ih => exact .argument (ih h) (List.mem_singleton_self _)
  | add l m ihl ihm | mul l m ihl ihm =>
    rw [occurs, Bool.or_eq_true] at h
    rcases h with h | h
    . exact .argument (ihl h) (List.mem_pair.2 (.inl rfl))
    . exact .argument (ihm h) (List.mem_pair.2 (.inr rfl))

theorem Formula.isSubexpression_subst {f : Formula} {v : Variable} (h : f.occursFree v = true)
    (r : Term) : IsSubexpression (.term r) (.formula (f.subst v r)) := by
  induction f with
  | equal l m | less l m | proof l m =>
    rw [occursFree, Bool.or_eq_true] at h
    rcases h with h | h
    . exact .argument (Term.isSubexpression_subst h r) (List.mem_pair.2 (.inl rfl))
    . exact .argument (Term.isSubexpression_subst h r) (List.mem_pair.2 (.inr rfl))
  | not f ih => exact .argument (ih h) (List.mem_singleton_self _)
  | and l m ihl ihm | or l m ihl ihm =>
    rw [occursFree, Bool.or_eq_true] at h
    rcases h with h | h
    . exact .argument (ihl h) (List.mem_pair.2 (.inl rfl))
    . exact .argument (ihm h) (List.mem_pair.2 (.inr rfl))
  | all w f ih | ex w f ih =>
    rw [occursFree, Bool.and_eq_true, decide_eq_true_eq] at h
    rw [subst, if_neg h.1]
    exact .argument (ih h.2) (List.mem_singleton_self _)

namespace Word

variable {w rest : Word} {write l r body : Word → Word}

theorem Appends.infix_self (h : Appends write) (rest : Word) : write [] <:+: write rest := by
  rw [h rest]
  exact (List.prefix_append _ _).isInfix

theorem Appends.infix_rest (h : Appends write) (hw : w <:+: rest) : w <:+: write rest := by
  rw [h]
  exact hw.trans (List.suffix_append _ _).isInfix

theorem infix_enclosed_left (hl : Appends l) (operator : Symbol) :
    l [] <:+: (enclosed operator l r rest).tail :=
  hl.infix_self _

theorem infix_enclosed_right (hl : Appends l) (hr : Appends r) (operator : Symbol) :
    r [] <:+: (enclosed operator l r rest).tail :=
  hl.infix_rest (List.infix_cons (hr.infix_self _))

theorem infix_quantified (h : Appends body) (quantifier : Symbol) (v : Variable) :
    body [] <:+: (quantified quantifier v body rest).tail :=
  v.appends_spell.infix_rest (List.infix_cons (h.infix_self _))

end Word

namespace Expression

open Word

variable {a b e : Expression}

theorem infix_tail_word_of_mem_arguments (h : b ∈ e.arguments) : b.word <:+: e.word.tail := by
  have hbinary {l r : Expression} (operator : Symbol) (h : b ∈ [l, r]) :
      b.word <:+: (enclosed operator l.spell r.spell []).tail := by
    rw [List.mem_pair] at h
    rcases h with rfl | rfl
    . exact infix_enclosed_left b.appends_spell operator
    . exact infix_enclosed_right l.appends_spell b.appends_spell operator
  cases e with
  | term t =>
    cases t with
    | zero => contradiction
    | var v => contradiction
    | succ t =>
      obtain rfl := List.mem_singleton.1 h
      exact List.infix_cons (t.appends_spell.infix_self _)
    | add l r | mul l r => exact hbinary _ h
  | formula f =>
    cases f with
    | equal l r | less l r | proof l r => exact hbinary _ h
    | not f =>
      obtain rfl := List.mem_singleton.1 h
      exact List.infix_rfl
    | and l r | or l r => exact hbinary _ h
    | all v f | ex v f =>
      obtain rfl := List.mem_singleton.1 h
      exact infix_quantified f.appends_spell _ v

theorem IsSubexpression.infix_word (h : IsSubexpression a e) : a.word <:+: e.word := by
  induction h with
  | refl => exact List.infix_rfl
  | argument _ hb ih =>
    have htail := infix_tail_word_of_mem_arguments hb
    exact ih.trans (htail.trans (List.tail_suffix _).isInfix)

theorem IsProperSubexpression.infix_tail_word (h : IsProperSubexpression a e) :
    a.word <:+: e.word.tail := by
  obtain ⟨b, hb, hab⟩ := h
  exact hab.infix_word.trans (infix_tail_word_of_mem_arguments hb)

end Expression

namespace CodeTable

variable (t : CodeTable) {w w' : Word} {a e : Expression}

theorem digits_infix_of_infix (h : w <:+: w') : (t.digits w).toList <:+: (t.digits w').toList := by
  obtain ⟨p, q, rfl⟩ := h
  rw [digits, digits, Decimal.toList_join, Decimal.toList_join, codes, codes, List.map_append,
    List.map_append]
  have hsuffix := Decimal.suffix_joinDigits (p.map t.code) (w.map t.code) t.separator
  have hprefix :=
    Decimal.prefix_joinDigits (p.map t.code ++ w.map t.code) (q.map t.code) t.separator
  exact hsuffix.isInfix.trans hprefix.isInfix

theorem number_le_of_isSubexpression (h : IsSubexpression a e) :
    t.number a.word ≤ t.number e.word :=
  t.number_le_of_sublist a.word_ne_nil h.infix_word.sublist

theorem number_lt_of_isProperSubexpression (h : IsProperSubexpression a e) :
    t.number a.word < t.number e.word := by
  have hsublist := h.infix_tail_word.sublist
  have hpos := List.length_pos_iff.2 e.word_ne_nil
  have hlength := hsublist.length_le
  rw [List.length_tail] at hlength
  apply t.number_lt_of_sublist a.word_ne_nil (hsublist.trans (List.tail_sublist _))
  omega

theorem not_isSubexpression_of_value? {c : Term} (hc : c.value? = some (t.number e.word)) :
    ¬ IsSubexpression (.term c) e := by
  intro h
  have hlt := t.value_lt_number_word hc
  exact absurd (t.number_le_of_isSubexpression h) (Nat.not_le.2 hlt)

theorem number_grows (t : CodeTable) (e : Expression) :
    (∀ a, IsProperSubexpression a e →
      (t.digits a.word).toList <:+: (t.digits e.word).toList ∧
        t.number a.word < t.number e.word) ∧
    ∀ c, (standardNumeral (t.number e.word)).result = .ok c ∨
        (compactNumeral (t.number e.word)).answer = c →
      ¬ IsSubexpression (.term c) e := by
  constructor
  . intro a h
    constructor
    . exact t.digits_infix_of_infix (h.infix_tail_word.trans (List.tail_suffix _).isInfix)
    . exact t.number_lt_of_isProperSubexpression h
  . intro c hc
    apply t.not_isSubexpression_of_value?
    rcases hc with hc | rfl
    . rw [result_standardNumeral, Except.ok.injEq] at hc
      rw [← hc, Term.value?_chain]
    . exact Term.value?_compact _

theorem number_grows_less :
    ∃ e, e = Expression.formula (.less (.succ .zero) .zero) ∧
      IsProperSubexpression (.term .zero) e ∧
      (standard.digits (Term.zero).word).toList <:+: (standard.digits e.word).toList ∧
      standard.number (Term.zero).word < standard.number e.word ∧
      ¬ IsSubexpression (.term (compactNumeral (standard.number e.word)).answer) e := by
  have hpart : IsProperSubexpression (.term .zero) (.formula (.less (.succ .zero) .zero)) :=
    ⟨.term (.succ .zero), by decide, .argument (.refl _) (by decide)⟩
  obtain ⟨hparts, hnumerals⟩ := number_grows standard (.formula (.less (.succ .zero) .zero))
  obtain ⟨hdigits, hnumber⟩ := hparts _ hpart
  refine ⟨_, rfl, hpart, hdigits, hnumber, ?_⟩
  apply hnumerals
  right
  rfl

end CodeTable

end Arithmetization
