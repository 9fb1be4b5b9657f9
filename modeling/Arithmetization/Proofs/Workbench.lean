import Arithmetization.Workbench

/-!
This module contains the runs of the workbench. A command that is refused leaves the stack and the
settings as they are, so that a program does the same without it; and only the commands that are
there for it change the settings.
-/

namespace Arithmetization

namespace Workbench

variable {w : Workbench} {c : Command} {cs ds : List Command}

def Refused (w : Workbench) (c : Command) : Prop :=
  ∃ r, (w.step c).run.answer = .error r

def next (w : Workbench) (c : Command) : Workbench :=
  match (w.step c).run.answer with
  | .ok (next, _) => next
  | .error _ => w

def after (w : Workbench) (cs : List Command) : Workbench :=
  cs.foldl next w

def row (w : Workbench) (c : Command) : Row where
  depth := (w.next c).stack.length
  top := (w.next c).stack.head?
  outcome := (w.step c).run.answer.map Prod.snd

theorem next_of_refused (h : w.Refused c) : w.next c = w := by
  obtain ⟨r, h⟩ := h
  rw [next, h]

theorem isOk_outcome_row : (w.row c).outcome.isOk = false ↔ w.Refused c := by
  unfold row Refused
  cases (w.step c).run.answer <;> simp [Except.map, Except.isOk, Except.toBool]

theorem after_cons : w.after (c :: cs) = (w.next c).after cs := rfl

theorem run_cons :
    w.run (c :: cs) =
      ⟨w.row c :: ((w.next c).run cs).answer,
        (w.step c).run.records ++ ((w.next c).run cs).records⟩ := by
  rw [run]
  apply congrArg (Logged.mk _)
  exact congrArg _ (List.append_nil _)

theorem length_run (w : Workbench) (cs : List Command) :
    (w.run cs).answer.length = cs.length := by
  induction cs generalizing w with
  | nil => rfl
  | cons c cs ih => rw [run_cons, List.length_cons, List.length_cons, ih]

theorem run_append (w : Workbench) (cs ds : List Command) :
    w.run (cs ++ ds) =
      ⟨(w.run cs).answer ++ ((w.after cs).run ds).answer,
        (w.run cs).records ++ ((w.after cs).run ds).records⟩ := by
  induction cs generalizing w with
  | nil => rfl
  | cons c cs ih =>
    rw [List.cons_append, run_cons, run_cons, ih, after_cons, List.append_assoc]
    rfl

theorem exists_run_eq_filter (w : Workbench) (cs : List Command) :
    ∃ ds, ds.Sublist cs ∧ w.after ds = w.after cs ∧
      (w.run ds).answer = (w.run cs).answer.filter (·.outcome.isOk) ∧
      (w.run ds).records.Sublist (w.run cs).records := by
  induction cs generalizing w with
  | nil => exact ⟨[], .refl _, rfl, rfl, .refl _⟩
  | cons c cs ih =>
    obtain ⟨ds, hds, hafter, hanswer, hrecords⟩ := ih (w.next c)
    rw [run_cons, after_cons, ← hafter]
    cases hok : (w.row c).outcome.isOk with
    | false =>
      have hnext := next_of_refused (isOk_outcome_row.1 hok)
      rw [hnext] at hafter hanswer hrecords ⊢
      refine ⟨ds, hds.cons c, rfl, ?_, hrecords.trans (List.sublist_append_right ..)⟩
      simpa [hok] using hanswer
    | true =>
      refine ⟨c :: ds, hds.cons_cons c, rfl, ?_, ?_⟩
      . rw [run_cons, hanswer]
        exact (List.filter_cons_of_pos (p := fun r : Row => r.outcome.isOk) hok).symm
      . rw [run_cons]
        exact hrecords.append_left _

def Keeps (w : Workbench) (result : Result) : Prop :=
  ∀ next reply, result.run.answer = .ok (next, reply) → next.diagonalizer = w.diagonalizer

theorem keeps_inapplicable : w.Keeps inapplicable := by
  intro next reply h
  cases h

theorem keeps_withStack {stack : List Expression} : w.Keeps (w.withStack stack) := by
  intro next reply h
  cases h
  rfl

theorem keeps_reply {r : Reply} : w.Keeps (w.reply r) := by
  intro next reply h
  cases h
  rfl

theorem keeps_pushAttempt {rest : List Expression} {attempt : Attempt Expression} :
    w.Keeps (w.pushAttempt rest attempt) := by
  obtain ⟨answer, records⟩ := attempt
  cases answer with
  | error e =>
    intro next reply h
    cases h
  | ok e =>
    intro next reply h
    cases h
    rfl

theorem keeps_joinTerms {f : Term → Term → Expression} : w.Keeps (w.joinTerms f) := by
  unfold joinTerms
  split
  . exact keeps_withStack
  . exact keeps_inapplicable

theorem keeps_joinFormulas {f : Formula → Formula → Formula} : w.Keeps (w.joinFormulas f) := by
  unfold joinFormulas
  split
  . exact keeps_withStack
  . exact keeps_inapplicable

theorem keeps_wrapFormula {f : Formula → Formula} : w.Keeps (w.wrapFormula f) := by
  unfold wrapFormula
  split
  . exact keeps_withStack
  . exact keeps_inapplicable

def Command.isSetting : Command → Bool
  | .setTable _ | .setForm _ | .setLimit _ => true
  | _ => false

theorem keeps_step (h : c.isSetting = false) : w.Keeps (w.step c) := by
  cases c with
  | setTable | setForm | setLimit => contradiction
  | add | mul | equal | less | proof => exact keeps_joinTerms
  | and | or | implies => exact keeps_joinFormulas
  | not | all v | ex v => exact keeps_wrapFormula
  | push | unprovability => exact keeps_withStack
  | standardNumeral | compactNumeral | goedelSentence => exact keeps_pushAttempt
  | duplicate | swap | drop | succ | subst | peano =>
    rw [step]
    split
    . exact keeps_withStack
    . exact keeps_inapplicable
  | diagonalize =>
    rw [step]
    split
    . exact keeps_pushAttempt
    . exact keeps_inapplicable
  | quote =>
    rw [step]
    split
    . exact fun next reply => keeps_pushAttempt next reply
    . exact keeps_inapplicable
  | number | value | display | quantification =>
    rw [step]
    split
    . exact keeps_reply
    . exact keeps_inapplicable

theorem diagonalizer_next (h : c.isSetting = false) :
    (w.next c).diagonalizer = w.diagonalizer := by
  rw [next]
  split
  next hanswer => exact keeps_step h _ _ hanswer
  next => rfl

theorem diagonalizer_after (w : Workbench) (h : ∀ c ∈ cs, c.isSetting = false) :
    (w.after cs).diagonalizer = w.diagonalizer := by
  induction cs generalizing w with
  | nil => rfl
  | cons c cs ih =>
    obtain ⟨hc, hcs⟩ := List.forall_mem_cons.1 h
    rw [after_cons, ih _ hcs, diagonalizer_next hc]

end Workbench

end Arithmetization
