import Arithmetization.Proofs.Printing
import Arithmetization.Proofs.Reader

/-!
This module contains the proof that every expression is read back from its print in one line. The
frames in front of a text are left alone as long as they are weaker than what the text begins with.

The main statement says that the words of a printed expression, whatever the width was, determine
the expression.
-/

namespace Arithmetization

open Layout

namespace Print

open Reader

def Weaker (k : Nat) (frames : List Frame) : Prop :=
  ∀ frame ∈ frames.head?, frame.strength < k

@[simp]
theorem weaker_cons {k : Nat} {frame : Frame} {frames : List Frame} :
    Weaker k (frame :: frames) ↔ frame.strength < k := by
  simp [Weaker]

theorem Weaker.mono {k l : Nat} {frames : List Frame} (h : Weaker k frames) (hkl : k ≤ l) :
    Weaker l frames :=
  fun frame hframe => Nat.lt_of_lt_of_le (h frame hframe) hkl

theorem settle_of_weaker {k : Nat} {frames : List Frame} (h : Weaker k frames) (e : Expression) :
    settle k e frames = (e, frames) := by
  cases frames with
  | nil => rfl
  | cons frame frames =>
    rw [weaker_cons] at h
    rw [settle, if_neg (Nat.not_le_of_lt h)]

theorem settle_cons {k : Nat} {frame : Frame} (h : k ≤ frame.strength) (e : Expression)
    (frames : List Frame) : settle k e (frame :: frames) = settle k (frame.finish e) frames := by
  rw [settle, if_pos h]

/--
The reader has read `e` inside of the given frames, as far as it finishes what is as strong as some
`k` up to `n`.
-/
def Reader.Holds (r : Reader) (n : Nat) (e : Expression) (frames : List Frame) : Prop :=
  ∃ e', r.operand = some e' ∧ ∀ k, 0 < k → k ≤ n → settle k e' r.frames = settle k e frames

namespace Reader

theorem Holds.shift {r : Reader} {n k : Nat} {e : Expression} {frames : List Frame}
    (h : r.Holds n e frames) (hk : 0 < k) (hkn : k ≤ n) (hframes : Weaker k frames)
    (next : Expression × List Frame → Reader) : r.shift k next = next (e, frames) := by
  obtain ⟨e', hoperand, hsettle⟩ := h
  rw [Reader.shift, hoperand]
  exact congrArg next ((hsettle k hk hkn).trans (settle_of_weaker hframes e))

theorem Holds.finish {r : Reader} {n m : Nat} {e : Expression} {frame : Frame}
    {frames : List Frame} (h : r.Holds n e (frame :: frames)) (hn : m ≤ n)
    (hframe : m ≤ frame.strength) : r.Holds m (frame.finish e) frames := by
  obtain ⟨e', hoperand, hsettle⟩ := h
  refine ⟨e', hoperand, ?_⟩
  intro k hk hkm
  rw [hsettle k hk (Nat.le_trans hkm hn), settle_cons (Nat.le_trans hkm hframe)]

theorem holds_some (e : Expression) (n : Nat) (frames : List Frame) :
    Holds ⟨some e, frames⟩ n e frames :=
  ⟨e, rfl, fun _ _ _ => rfl⟩

end Reader

def Reads (cs : List Char) (lead n : Nat) (e : Expression) : Prop :=
  ∀ frames, Weaker lead frames → ((start frames).run cs).Holds n e frames

namespace Reads

variable {cs a b : List Char} {lead n m : Nat} {e l r : Expression}

theorem mono {lead' n' : Nat} (h : Reads cs lead n e) (hlead : lead' ≤ lead) (hn : n' ≤ n) :
    Reads cs lead' n' e := by
  intro frames hframes
  obtain ⟨e', hoperand, hsettle⟩ := h frames (hframes.mono hlead)
  exact ⟨e', hoperand, fun k hk hkn => hsettle k hk (Nat.le_trans hkn hn)⟩

theorem parens (h : Reads cs lead n e) (hlead : 0 < lead) (hn : 0 < n) (lead' n' : Nat) :
    Reads ('(' :: (cs ++ [')'])) lead' n' e := by
  intro frames _
  have hparen := h (.paren :: frames) (weaker_cons.2 hlead)
  have hclose : ((start (.paren :: frames)).run cs).close = ⟨some e, frames⟩ :=
    hparen.shift (by decide) hn (weaker_cons.2 (by decide)) _
  have hrun : (start frames).run ('(' :: (cs ++ [')'])) = ⟨some e, frames⟩ := by
    rw [run_cons, run_append]
    exact hclose
  rw [hrun]
  apply holds_some

theorem bracketed {inParens : Bool} {lead' n' : Nat} (h : Reads cs lead n e) (hlead : 0 < lead)
    (hn : 0 < n) (hloose : inParens = false → lead' ≤ lead ∧ n' ≤ n) :
    Reads (bracketed inParens '(' ')' cs) lead' n' e := by
  cases inParens with
  | false => exact h.mono (hloose rfl).1 (hloose rfl).2
  | true => exact h.parens hlead hn lead' n'

theorem finish (frame : Frame) (h : Reads cs lead n e) (hlead : frame.strength < lead)
    (hn : frame.strength ≤ n) (frames : List Frame) :
    ((start (frame :: frames)).run cs).Holds frame.strength (frame.finish e) frames := by
  apply Holds.finish
  . exact h _ (weaker_cons.2 hlead)
  . exact hn
  . exact Nat.le_refl _

theorem infixed (operator : Operator) (hl : Reads a operator.strength operator.strength l)
    (hr : Reads b (operator.strength + 1) operator.strength r) :
    Reads (a ++ ' ' :: operator.sign :: ' ' :: b) operator.strength operator.strength
      (operator.join l r) := by
  intro frames hframes
  have hpos : 0 < operator.strength := by cases operator <;> decide
  -- The sign finishes the left argument; the right one is left to what comes after it.
  have hshift : ((start frames).run a).operator operator = start (.left operator l :: frames) :=
    (hl frames hframes).shift hpos (Nat.le_refl _) hframes _
  have hsign (r : Reader) : r.step operator.sign = r.operator operator := by
    cases operator <;> rfl
  have hblank (r : Reader) : r.step ' ' = r := step_of_isBlank rfl r
  rw [run_append, run_cons, run_cons, run_cons, hblank, hblank, hsign, hshift]
  exact hr.finish (.left operator l) (Nat.lt_succ_self _) (Nat.le_refl _) frames

theorem read? (h : Reads cs lead n e) (hn : 0 < n) : read? cs = some e := by
  obtain ⟨e', hoperand, hsettle⟩ := h [] (by simp [Weaker])
  rw [Print.read?, hoperand, Option.map_some, hsettle 1 Nat.one_pos hn]
  rfl

end Reads

theorem run_letters {r : Reader} (named : Variable → Reader) (hletter : r.letter = named .x)
    (hstar : ∀ v, (named v).star = named v.next) (v : Variable) : r.run v.letters = named v := by
  have hstars (n : Nat) : (named .x).run (List.replicate n '*') = named ⟨UInt32.ofNat n⟩ := by
    induction n with
    | zero => rfl
    | succ n ih =>
      have hnext : Variable.next ⟨UInt32.ofNat n⟩ = ⟨UInt32.ofNat (n + 1)⟩ := by
        rw [Variable.next, UInt32.ofNat_add]
        rfl
      rw [List.replicate_succ', run_append, ih, ← hnext]
      exact hstar _
  have hrun : r.run v.letters = r.letter.run (List.replicate v.stars.toNat '*') := rfl
  rw [hrun, hletter, hstars, UInt32.ofNat_toNat]

theorem run_letters_operand {frames : List Frame} (h : Weaker 7 frames) (v : Variable) :
    (start frames).run v.letters = ⟨some (.term (.var v)), frames⟩ := by
  have hletter : (start frames).letter = ⟨some (.term (.var .x)), frames⟩ := by
    cases frames with
    | nil => rfl
    | cons frame frames =>
      cases frame with
      | quantifier q => exact absurd (weaker_cons.1 h) (Nat.lt_irrefl 7)
      | _ => rfl
  exact run_letters (fun v => ⟨some (.term (.var v)), frames⟩) hletter (fun _ => rfl) v

theorem run_letters_binder (q : Quantifier) (frames : List Frame) (v : Variable) :
    (start (.quantifier q :: frames)).run v.letters = start (.binder q v :: frames) :=
  run_letters (fun v => start (.binder q v :: frames)) rfl (fun _ => rfl) v

theorem Reads.quantified {cs : List Char} {lead n : Nat} {f : Formula}
    (h : Reads cs lead n (.formula f)) (q : Quantifier) (v : Variable) (hlead : 1 < lead)
    (hn : 0 < n) (lead' : Nat) :
    Reads (q.sign :: (v.letters ++ ' ' :: cs)) lead' 1 (.formula (q.bind v f)) := by
  intro frames _
  have hsign : (start frames).step q.sign = start (.quantifier q :: frames) := by
    cases q <;> rfl
  rw [run_cons, hsign, run_append, run_letters_binder, run_cons, step_of_isBlank rfl]
  exact h.finish (.binder q v) hlead hn frames

end Print

open Print Reader

namespace Term

theorem tightness_pos (t : Term) : 0 < t.tightness := by
  cases t <;> simp [tightness]

theorem reads_operation {l r : Term} (operator : Operator) {n : Nat}
    (hn : operator.strength = n + 3)
    (hl : Reads l.text (l.tightness + 3) (l.tightness + 3) (.term l))
    (hr : Reads r.text (r.tightness + 3) (r.tightness + 3) (.term r)) :
    Reads (bracketed (l.tightness < n) '(' ')' l.text ++ ' ' :: operator.sign :: ' ' ::
      bracketed (r.tightness ≤ n) '(' ')' r.text) operator.strength operator.strength
        (operator.join (.term l) (.term r)) := by
  apply Reads.infixed
  . apply hl.bracketed (Nat.succ_pos _) (Nat.succ_pos _)
    rw [decide_eq_false_iff_not]
    omega
  . apply hr.bracketed (Nat.succ_pos _) (Nat.succ_pos _)
    rw [decide_eq_false_iff_not]
    omega

theorem reads_text (t : Term) : Reads t.text (t.tightness + 3) (t.tightness + 3) (.term t) := by
  induction t with
  | zero =>
    intro frames _
    apply holds_some
  | var v =>
    intro frames hframes
    rw [text, run_letters_operand (hframes.mono (by simp [tightness])) v]
    apply holds_some
  | succ t ih =>
    intro frames _
    have hparens := ih.parens (Nat.succ_pos _) (Nat.succ_pos _) 7 6
    exact hparens.finish .succ (by decide) (by decide) frames
  | add l r ihl ihr => exact reads_operation .add rfl ihl ihr
  | mul l r ihl ihr => exact reads_operation .mul rfl ihl ihr

end Term

namespace Formula

def lead : Formula → Nat
  | .equal _ _ => 3
  | .less _ _ => 3
  | .and _ _ => 2
  | .or _ _ => 2
  | .not _ => 7
  | .all _ _ => 7
  | .ex _ _ => 7
  | .proof _ _ => 7

def strength : Formula → Nat
  | .equal _ _ => 3
  | .less _ _ => 3
  | .and _ _ => 2
  | .or _ _ => 2
  | .not _ => 3
  | .all _ _ => 1
  | .ex _ _ => 1
  | .proof _ _ => 7

theorem one_lt_lead (f : Formula) : 1 < f.lead := by
  cases f <;> simp [lead]

theorem strength_pos (f : Formula) : 0 < f.strength := by
  cases f <;> simp [strength]

theorem reads_comparison (operator : Operator) (hoperator : operator.strength ≤ 3) (l r : Term) :
    Reads (l.text ++ ' ' :: operator.sign :: ' ' :: r.text) operator.strength operator.strength
      (operator.join (.term l) (.term r)) := by
  have hl := l.tightness_pos
  have hr := r.tightness_pos
  apply Reads.infixed
  . apply l.reads_text.mono <;> omega
  . apply r.reads_text.mono <;> omega

theorem reads_proof (p f : Term) :
    Reads (['P', 'r', 'o', 'o', 'f', '('] ++ (p.text ++ ',' :: ' ' :: (f.text ++ [')']))) 7 7
      (.formula (.proof p f)) := by
  intro frames _
  -- The letters change nothing, so the parenthesis is what waits for the comma.
  have hfirst := p.reads_text (.paren :: frames) (weaker_cons.2 (Nat.succ_pos _))
  have hcomma : ((start (.paren :: frames)).run p.text).comma = start (.pair (.term p) :: frames) :=
    hfirst.shift (by decide) (Nat.succ_pos _) (weaker_cons.2 (by decide)) _
  have hsecond := f.reads_text (.pair (.term p) :: frames) (weaker_cons.2 (Nat.succ_pos _))
  have hclose : ((start (.pair (.term p) :: frames)).run f.text).close =
      ⟨some (.formula (.proof p f)), frames⟩ :=
    hsecond.shift (by decide) (Nat.succ_pos _) (weaker_cons.2 Nat.zero_lt_one) _
  have hrun : (start frames).run
      (['P', 'r', 'o', 'o', 'f', '('] ++ (p.text ++ ',' :: ' ' :: (f.text ++ [')']))) =
        ((((start (.paren :: frames)).run p.text).comma).run f.text).close := by
    rw [run_append, run_append, run_cons, run_cons, run_append]
    rfl
  rw [hrun, hcomma, hclose]
  apply holds_some

theorem reads_cells (f : Formula) (quantifiers : Nat) :
    Reads ((f.cells quantifiers).map Cell.flat) f.lead f.strength (.formula f) := by
  have hlead (f : Formula) : 0 < f.lead := Nat.lt_of_succ_lt f.one_lt_lead
  induction f generalizing quantifiers with
  | equal l r =>
    rw [cells, map_flat_infixed, Term.map_flat_cells, Term.map_flat_cells]
    exact reads_comparison .equal (by decide) l r
  | less l r =>
    rw [cells, map_flat_infixed, Term.map_flat_cells, Term.map_flat_cells]
    exact reads_comparison .less (by decide) l r
  | not f ih =>
    have harg : Reads ((bracketed f.looseUnderNot (.char '(') (.char ')')
        (f.cells quantifiers)).map Cell.flat) 4 3 (.formula f) := by
      rw [map_bracketed]
      apply (ih quantifiers).bracketed (hlead f) f.strength_pos
      cases f <;> simp [looseUnderNot, lead, strength]
    intro frames _
    exact harg.finish .not (by decide) (by decide) frames
  | and l r ihl ihr =>
    rw [cells, map_flat_infixed, map_bracketed, map_bracketed]
    apply Reads.infixed .and (l := .formula l) (r := .formula r)
    . apply (ihl quantifiers).bracketed (hlead l) l.strength_pos
      cases l <;> simp [looseLeftOfAnd, lead, strength, Operator.strength]
    . apply (ihr quantifiers).bracketed (hlead r) r.strength_pos
      cases r <;> simp [looseOnRight, lead, strength, Operator.strength]
  | or l r ihl ihr =>
    rw [cells, map_flat_infixed, map_bracketed, map_bracketed]
    apply Reads.infixed .or (l := .formula l) (r := .formula r)
    . apply (ihl quantifiers).bracketed (hlead l) l.strength_pos
      cases l <;> simp [looseLeftOfOr, lead, strength, Operator.strength]
    . apply (ihr quantifiers).bracketed (hlead r) r.strength_pos
      cases r <;> simp [looseOnRight, lead, strength, Operator.strength]
  | all v f ih =>
    rw [cells, map_flat_quantified]
    exact (ih (quantifiers + 1)).quantified .all v f.one_lt_lead f.strength_pos _
  | ex v f ih =>
    rw [cells, map_flat_quantified]
    exact (ih (quantifiers + 1)).quantified .ex v f.one_lt_lead f.strength_pos _
  | proof p f =>
    have hflat : ((proof p f).cells quantifiers).map Cell.flat =
        ['P', 'r', 'o', 'o', 'f', '('] ++ (p.text ++ ',' :: ' ' :: (f.text ++ [')'])) := by
      simp [cells, Cell.flat]
    rw [hflat]
    exact reads_proof p f

end Formula

namespace Expression

theorem words_print (e : Expression) (width : Nat) :
    words (e.print width).toList = words e.line.toList := by
  rw [(e.typeset_print width).words_eq, line, String.toList_ofList]

theorem read?_line (e : Expression) : read? e.line.toList = some e := by
  rw [line, String.toList_ofList]
  cases e with
  | term t =>
    rw [cells, Term.map_flat_cells]
    exact t.reads_text.read? (Nat.succ_pos _)
  | formula f => exact (f.reads_cells 0).read? f.strength_pos

theorem words_print_eq_iff (a b : Expression) (w w' : Nat) :
    words (a.print w).toList = words (b.print w').toList ↔ a = b := by
  rw [words_print, words_print]
  constructor
  . intro hwords
    have hchars := congrArg List.flatten hwords
    rw [flatten_words, flatten_words] at hchars
    have hread := congrArg read? hchars
    rw [read?_filter, read?_filter, read?_line, read?_line] at hread
    exact Option.some.inj hread
  . intro h
    rw [h]

end Expression

end Arithmetization
