import Arithmetization.Proofs.Lines
import Arithmetization.Proofs.Printing

/-!
This module contains the comparison of two layouts of a document. A group that is met in the same
column fits a wider line if it fits a narrower one. Columns differ behind a break that only the
wider line keeps; but no group is met there if, in the document, none opens between the end of a
group that has a break and the next break.

The documents of expressions are of this kind, so that a wider line keeps every break that a
narrower one keeps.
-/

namespace Arithmetization

open Layout

namespace Layout

/--
Two texts of the same cells, of which the second has a space for every break that is a space in the
first.
-/
inductive Widened : List Cell → (narrow wide : List Char) → Prop where
  | nil : Widened [] [] []
  | char {cells : List Cell} {cs ds : List Char} (c : Char) (h : Widened cells cs ds) :
    Widened (.char c :: cells) (c :: cs) (c :: ds)
  | space {cells : List Cell} {cs ds : List Char} (n : Nat) (h : Widened cells cs ds) :
    Widened (.gap n :: cells) (' ' :: cs) (' ' :: ds)
  | joined {cells : List Cell} {cs ds : List Char} (n : Nat) (h : Widened cells cs ds) :
    Widened (.gap n :: cells) ('\n' :: (List.replicate n ' ' ++ cs)) (' ' :: ds)
  | newline {cells : List Cell} {cs ds : List Char} (n : Nat) (h : Widened cells cs ds) :
    Widened (.gap n :: cells) ('\n' :: (List.replicate n ' ' ++ cs))
      ('\n' :: (List.replicate n ' ' ++ ds))

namespace Widened

variable {cells : List Cell} {cs ds : List Char}

theorem text (text : List Char) (h : Widened cells cs ds) :
    Widened (text.map .char ++ cells) (text ++ cs) (text ++ ds) := by
  induction text with
  | nil => exact h
  | cons c text ih => exact .char c ih

theorem length_lines_le (h : Widened cells cs ds) : (lines ds).length ≤ (lines cs).length := by
  rw [length_lines, length_lines, Nat.add_le_add_iff_right]
  induction h with
  | nil => exact Nat.le_refl _
  | char c h ih =>
    rw [List.count_cons, List.count_cons]
    exact Nat.add_le_add_right ih _
  | space n h ih => simpa using ih
  | joined n h ih => simpa [List.count_replicate] using Nat.le_succ_of_le ih
  | newline n h ih => simpa [List.count_replicate] using ih

end Widened

variable {σ : Type} {width width' : Nat}

theorem fits_mono (hwidth : width ≤ width') {doc : Document σ} {column depth : Nat}
    (h : fits width doc column depth = true) : fits width' doc column depth = true := by
  induction doc generalizing column depth with
  | nil => rfl
  | cons item rest ih =>
    cases item with
    | text style s =>
      rw [fits, Bool.and_eq_true, decide_eq_true_eq] at h ⊢
      exact ⟨Nat.le_trans h.1 hwidth, ih h.2⟩
    | line =>
      cases depth with
      | zero => rfl
      | succ depth =>
        rw [fits, Bool.and_eq_true, decide_eq_true_eq] at h ⊢
        exact ⟨Nat.le_trans h.1 hwidth, ih h.2⟩
    | openGroup =>
      cases depth with
      | zero => exact ih h
      | succ depth => exact ih h
    | closeGroup => exact ih h
    | indent n => exact ih h
    | dedent n => exact ih h

/--
Whether no group opens between the end of a group that has a break and the next break. The number of
groups that have opened and not closed since the last break is `fresh`; it is `none` from the end of
any other group until the next break.
-/
def anchored : Document σ → (fresh : Option Nat) → Bool
  | [], _ => true
  | .text _ _ :: rest, fresh => anchored rest fresh
  | .line :: rest, _ => anchored rest (some 0)
  | .openGroup :: rest, some n => anchored rest (some (n + 1))
  | .openGroup :: _, none => false
  | .closeGroup :: rest, some (n + 1) => anchored rest (some n)
  | .closeGroup :: rest, some 0 => anchored rest none
  | .closeGroup :: rest, none => anchored rest none
  | .indent _ :: rest, fresh => anchored rest fresh
  | .dedent _ :: rest, fresh => anchored rest fresh

theorem widened_lay (hwidth : width ≤ width') {doc : Document σ} {fresh : Option Nat}
    (hanchored : anchored doc fresh = true) {column column' depth depth' : Nat} (indentation : Nat)
    (hdepth : depth ≤ depth') (hcolumn : column = column' ∨ ∀ n ∈ fresh, n < depth') :
    Widened (cells doc indentation) (chars (lay width doc column indentation depth))
      (chars (lay width' doc column' indentation depth')) := by
  induction doc generalizing fresh column column' depth depth' indentation with
  | nil => exact .nil
  | cons item rest ih =>
    cases item with
    | text style s =>
      rw [lay, lay, chars_text, chars_text]
      apply Widened.text
      apply ih hanchored _ hdepth
      exact hcolumn.imp_left (congrArg (· + s.length))
    | line =>
      cases depth' with
      | zero =>
        obtain rfl := Nat.le_zero.1 hdepth
        rw [lay, lay, chars_newline, chars_newline]
        exact .newline _ (ih hanchored _ hdepth (.inl rfl))
      | succ depth' =>
        have hfresh : ∀ n ∈ some 0, n < depth' + 1 := by simp
        cases depth with
        | zero =>
          rw [lay, lay, chars_newline, chars_space]
          exact .joined _ (ih hanchored _ hdepth (.inr hfresh))
        | succ depth =>
          rw [lay, lay, chars_space, chars_space]
          exact .space _ (ih hanchored _ hdepth (.inr hfresh))
    | openGroup =>
      cases fresh with
      | none => contradiction
      | some n =>
        cases depth' with
        | zero =>
          -- Neither run is inside of a flat group, so they are in the same column.
          obtain rfl := Nat.le_zero.1 hdepth
          obtain rfl : column = column' := by simpa using hcolumn
          apply ih hanchored _ _ (.inl rfl)
          split
          next h => exact Nat.le_of_eq (if_pos (fits_mono hwidth h)).symm
          next => exact Nat.zero_le _
        | succ depth' =>
          have hfresh : column = column' ∨ ∀ m ∈ some (n + 1), m < depth' + 2 := by
            simpa using hcolumn
          cases depth with
          | zero =>
            apply ih hanchored _ _ hfresh
            split <;> omega
          | succ depth => exact ih hanchored _ (Nat.succ_le_succ hdepth) hfresh
    | closeGroup =>
      have hpred : depth - 1 ≤ depth' - 1 := Nat.sub_le_sub_right hdepth 1
      cases fresh with
      | none => exact ih hanchored _ hpred (.inr (by simp))
      | some n =>
        cases n with
        | zero => exact ih hanchored _ hpred (.inr (by simp))
        | succ n =>
          apply ih hanchored _ hpred
          simp only [Option.mem_some_iff, forall_eq'] at hcolumn ⊢
          omega
    | indent n => exact ih hanchored _ hdepth hcolumn
    | dedent n => exact ih hanchored _ hdepth hcolumn

theorem widened_layout (hwidth : width ≤ width') {doc : Document σ}
    (hanchored : anchored doc (some 0) = true) :
    Widened (cells doc 0) (plain (layout width doc)).toList (plain (layout width' doc)).toList := by
  rw [toList_plain, toList_plain, layout_eq_lay, layout_eq_lay]
  exact widened_lay hwidth hanchored 0 (Nat.le_refl 0) (.inl rfl)

theorem anchored_some {doc : Document σ} (h : anchored doc none = true) (n : Nat) :
    anchored doc (some n) = true := by
  induction doc generalizing n with
  | nil => rfl
  | cons item rest ih =>
    cases item with
    | text style s => exact ih h n
    | line => exact h
    | openGroup => contradiction
    | closeGroup =>
      cases n with
      | zero => exact h
      | succ n => exact ih h n
    | indent k => exact ih h n
    | dedent k => exact ih h n

end Layout

namespace Print

def Unbroken (doc : UInt8 → Doc → Doc) : Prop :=
  ∀ depth rest n, anchored (doc depth rest) (some n) = anchored rest (some n)

def Anchored (doc : UInt8 → Doc → Doc) : Prop :=
  ∀ depth rest n, anchored rest none = true → anchored (doc depth rest) (some n) = true

variable {l r body : UInt8 → Doc → Doc}

theorem anchored_of_unbroken (h : Unbroken body) : Anchored body := by
  intro depth rest n hrest
  rw [h]
  exact anchored_some hrest n

theorem unbroken_argument (h : Unbroken body) (inParens : Bool) :
    Unbroken (argument inParens body) := by
  cases inParens with
  | false => exact h
  | true =>
    intro depth rest n
    exact h (depth + 1) (rightParen depth :: .closeGroup :: rest) (n + 1)

theorem anchored_argument (h : Anchored body) (inParens : Bool) :
    Anchored (argument inParens body) := by
  cases inParens with
  | false => exact h
  | true =>
    intro depth rest n hrest
    exact h (depth + 1) (rightParen depth :: .closeGroup :: rest) (n + 1) hrest

theorem unbroken_infixed (hl : Unbroken l) (hr : Unbroken r) (s : String) :
    Unbroken fun depth rest => .openGroup :: l depth (blank :: styled .operator s :: blank ::
      r depth (.closeGroup :: rest)) := by
  intro depth rest n
  have hright := hr depth (.closeGroup :: rest) (n + 1)
  exact (hl depth (blank :: styled .operator s :: blank :: _) (n + 1)).trans hright

theorem anchored_connected (hl : Anchored l) (hr : Anchored r) (s : String) :
    Anchored fun depth rest => .openGroup :: l depth (.line :: styled .operator s :: blank ::
      r depth (.closeGroup :: rest)) := by
  intro depth rest n hrest
  apply hl
  -- The break takes back what the left side has ruled out.
  exact hr depth (.closeGroup :: rest) 0 hrest

theorem anchored_quantified (h : Anchored body) (s : String) (v : Variable) :
    Anchored fun depth rest => .openGroup :: styled .keyword s :: styled .variableName v.name ::
      .indent 2 :: .line :: body depth (.dedent 2 :: .closeGroup :: rest) := by
  intro depth rest n hrest
  exact h depth (.dedent 2 :: .closeGroup :: rest) 0 hrest

end Print

open Print

theorem Term.unbroken_doc (t : Term) : Unbroken t.doc := by
  induction t with
  | zero => exact fun _ _ _ => rfl
  | var v => exact fun _ _ _ => rfl
  | succ t ih =>
    intro depth rest n
    exact ih (depth + 1) (rightParen depth :: .closeGroup :: rest) (n + 1)
  | add l r ihl ihr | mul l r ihl ihr =>
    exact unbroken_infixed (unbroken_argument ihl _) (unbroken_argument ihr _) _

theorem Formula.anchored_doc (f : Formula) : Anchored f.doc := by
  induction f with
  | equal l r | less l r =>
    exact anchored_of_unbroken (unbroken_infixed l.unbroken_doc r.unbroken_doc _)
  | not f ih =>
    intro depth rest n hrest
    exact anchored_argument ih f.looseUnderNot depth (.closeGroup :: rest) (n + 1) hrest
  | and l r ihl ihr | or l r ihl ihr =>
    exact anchored_connected (anchored_argument ihl _) (anchored_argument ihr _) _
  | all v f ih | ex v f ih => exact anchored_quantified ih _ v
  | proof p f =>
    apply anchored_of_unbroken
    intro depth rest n
    have hleft := p.unbroken_doc (depth + 1) (styled .punctuation "," :: blank ::
      f.doc (depth + 1) (rightParen depth :: .closeGroup :: rest)) (n + 1)
    exact hleft.trans (f.unbroken_doc (depth + 1) (rightParen depth :: .closeGroup :: rest) (n + 1))

namespace Expression

theorem anchored_document (e : Expression) : anchored e.document (some 0) = true := by
  cases e with
  | term t => exact t.unbroken_doc 0 [] 0
  | formula f => exact f.anchored_doc 0 [] 0 rfl

theorem widened_print (e : Expression) {width width' : Nat} (h : width ≤ width') :
    Widened e.cells (e.print width).toList (e.print width').toList ∧
      (lines (e.print width').toList).length ≤ (lines (e.print width).toList).length := by
  have hwidened : Widened e.cells (e.print width).toList (e.print width').toList := by
    rw [← cells_document]
    exact widened_layout h e.anchored_document
  exact ⟨hwidened, hwidened.length_lines_le⟩

theorem widened_print_all_less :
    let e := formula (.all .x (.and (.equal (.var .x) .zero) (.less (.var .x) .zero)))
    8 ≤ 15 ∧ e.print 8 = "∀x\n  x = 0\n  ∧ x < 0" ∧ e.print 15 = "∀x\n  x = 0 ∧ x < 0" ∧
      Widened e.cells (e.print 8).toList (e.print 15).toList ∧
      (lines (e.print 15).toList).length ≤ (lines (e.print 8).toList).length := by
  intro e
  exact ⟨by decide, by decide, by decide, e.widened_print (by decide)⟩

end Expression

end Arithmetization
