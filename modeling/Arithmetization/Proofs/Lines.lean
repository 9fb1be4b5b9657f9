import Arithmetization.Proofs.Layout
import Mathlib.Data.List.Basic

/-!
This module contains the lines of what is printed. A line begins with its indentation and shows the
cells between two breaks that are newlines; other breaks in it are spaces.

A group is laid out flat only if the line does not exceed the width up to the next break after the
group. That break may be flat again, but only if its own group fits in turn. The main statement says
that therefore no line is too long that has a flat break.
-/

namespace Arithmetization

namespace Layout

def lines (cs : List Char) : List (List Char) := cs.splitOn '\n'

theorem length_lines (cs : List Char) : (lines cs).length = cs.count '\n' + 1 := by
  induction cs with
  | nil => simp [lines]
  | cons c cs ih =>
    rw [lines] at ih ⊢
    rw [List.splitOn_cons_eq_if_modifyHead, List.count_cons]
    split <;> simp [ih]

theorem lines_append_flatMap {first : List Char} {rest : List (List Char)}
    (hfirst : ¬ '\n' ∈ first) (hrest : ∀ l ∈ rest, ¬ '\n' ∈ l) :
    lines (first ++ rest.flatMap fun l => '\n' :: l) = first :: rest := by
  induction rest generalizing first with
  | nil =>
    rw [List.flatMap_nil, List.append_nil]
    exact List.splitOn_eq_singleton hfirst
  | cons l rest ih =>
    rw [List.forall_mem_cons] at hrest
    rw [List.flatMap_cons, List.cons_append, lines,
      List.splitOn_append_cons_self_of_not_mem hfirst]
    exact congrArg _ (ih hrest.1 hrest.2)

structure Row where
  indentation : Nat
  cells : List Cell

namespace Row

def text (r : Row) : List Char :=
  List.replicate r.indentation ' ' ++ r.cells.map Cell.flat

theorem length_text (r : Row) : r.text.length = r.indentation + r.cells.length := by
  simp [text]

end Row

def joinRows (first : List Cell) (rows : List Row) : List Cell :=
  first ++ rows.flatMap fun r => .gap r.indentation :: r.cells

def joinTexts (first : List Cell) (rows : List Row) : List Char :=
  first.map Cell.flat ++ rows.flatMap fun r => '\n' :: r.text

def AtBreak (cells : List Cell) : Prop :=
  cells = [] ∨ ∃ n rest, cells = .gap n :: rest

theorem atBreak_flatMap (rows : List Row) :
    AtBreak (rows.flatMap fun r => .gap r.indentation :: r.cells) := by
  cases rows with
  | nil => exact .inl rfl
  | cons r rows => exact .inr ⟨_, _, rfl⟩

theorem joinRows_of_mem (first : List Cell) {rows : List Row} {r : Row} (hr : r ∈ rows) :
    ∃ before after, joinRows first rows = before ++ (r.cells ++ after) ∧ AtBreak after := by
  obtain ⟨rows, rows', rfl⟩ := List.append_of_mem hr
  refine ⟨joinRows first rows ++ [.gap r.indentation], _, ?_, atBreak_flatMap rows'⟩
  simp [joinRows]

theorem newline_not_mem_map_flat {cells : List Cell} (h : ¬ .char '\n' ∈ cells) :
    ¬ '\n' ∈ cells.map Cell.flat := by
  rw [List.mem_map]
  rintro ⟨cell, hcell, heq⟩
  cases cell with
  | char c =>
    obtain rfl : c = '\n' := heq
    exact h hcell
  | gap n => simp [Cell.flat] at heq

theorem lines_joinTexts {first : List Cell} {rows : List Row}
    (h : ¬ .char '\n' ∈ joinRows first rows) :
    lines (joinTexts first rows) = first.map Cell.flat :: rows.map Row.text := by
  rw [joinRows, List.mem_append, not_or] at h
  rw [joinTexts, ← List.flatMap_map, lines_append_flatMap]
  . exact newline_not_mem_map_flat h.1
  . intro l hl
    obtain ⟨r, hr, rfl⟩ := List.mem_map.1 hl
    rw [Row.text, List.mem_append, not_or]
    constructor
    . simp [List.mem_replicate]
    . apply newline_not_mem_map_flat
      intro hmem
      exact h.2 (List.mem_flatMap.2 ⟨r, hr, List.mem_cons_of_mem _ hmem⟩)

/--
A line that the width does not cut off short of the next break: if a break in it is flat, then it
ends within the width.
-/
def Economical (width column : Nat) (cells : List Cell) : Prop :=
  ∀ n, .gap n ∈ cells → column + cells.length ≤ width

theorem Economical.eq_map_char {width column : Nat} {cells : List Cell}
    (h : Economical width column cells) (hlong : width < column + cells.length) :
    cells = (cells.map Cell.flat).map .char := by
  have hgap (n : Nat) : ¬ .gap n ∈ cells := fun hn => Nat.not_le_of_lt hlong (h n hn)
  clear h hlong
  induction cells with
  | nil => rfl
  | cons cell cells ih =>
    cases cell with
    | char c => exact congrArg _ (ih fun n hn => hgap n (List.mem_cons_of_mem _ hn))
    | gap n => exact absurd (List.mem_cons_self ..) (hgap n)

def Arranged (width column : Nat) (fit : Prop) (cells : List Cell) (cs : List Char) : Prop :=
  ∃ first rows, cells = joinRows first rows ∧ cs = joinTexts first rows ∧
    (fit → column ≤ width → column + first.length ≤ width) ∧ Economical width column first ∧
    ∀ r ∈ rows, Economical width r.indentation r.cells

namespace Arranged

variable {width column n : Nat} {fit fit' : Prop} {cells : List Cell} {cs : List Char}

theorem nil : Arranged width column fit [] [] :=
  ⟨[], [], rfl, rfl, fun _ h => h, by simp [Economical], by simp⟩

theorem mono (h : Arranged width column fit' cells cs) (hfit : fit → fit') :
    Arranged width column fit cells cs := by
  obtain ⟨first, rows, hcells, htext, hfirst, hrest⟩ := h
  exact ⟨first, rows, hcells, htext, fun h => hfirst (hfit h), hrest⟩

theorem text {text : List Char} (h : Arranged width (column + text.length) fit' cells cs)
    (hfit : fit → column + text.length ≤ width ∧ fit') :
    Arranged width column fit (text.map .char ++ cells) (text ++ cs) := by
  obtain ⟨first, rows, rfl, rfl, hfirst, heconomical, hrows⟩ := h
  have hlength : column + (text.map Cell.char ++ first).length =
      column + text.length + first.length := by
    rw [List.length_append, List.length_map, Nat.add_assoc]
  refine ⟨text.map .char ++ first, rows, ?_, ?_, ?_, ?_, hrows⟩
  . simp [joinRows]
  . simp [joinTexts]
  . intro h _
    rw [hlength]
    exact hfirst (hfit h).2 (hfit h).1
  . intro m hm
    rw [hlength]
    exact heconomical m (by simpa using hm)

theorem newline (h : Arranged width n fit' cells cs) :
    Arranged width column fit (.gap n :: cells) ('\n' :: (List.replicate n ' ' ++ cs)) := by
  obtain ⟨first, rows, rfl, rfl, _, heconomical, hrows⟩ := h
  refine ⟨[], ⟨n, first⟩ :: rows, ?_, ?_, fun _ h => h, by simp [Economical], ?_⟩
  . simp [joinRows]
  . simp [joinTexts, Row.text]
  . rw [List.forall_mem_cons]
    exact ⟨heconomical, hrows⟩

theorem space (h : Arranged width (column + 1) fit' cells cs) (hcolumn : column + 1 ≤ width)
    (hfit : fit') : Arranged width column fit (.gap n :: cells) (' ' :: cs) := by
  obtain ⟨first, rows, rfl, rfl, hfirst, _, hrows⟩ := h
  have hlength : column + (Cell.gap n :: first).length ≤ width := by
    rw [List.length_cons, Nat.add_comm first.length, ← Nat.add_assoc]
    exact hfirst hfit hcolumn
  exact ⟨.gap n :: first, rows, rfl, rfl, fun _ _ => hlength, fun _ _ => hlength, hrows⟩

end Arranged

variable {σ : Type}

theorem arranged_lay {width : Nat} (doc : Document σ) (column indentation depth : Nat)
    (hdepth : 0 < depth → fits width doc column depth = true) :
    Arranged width column (fits width doc column depth = true) (cells doc indentation)
      (chars (lay width doc column indentation depth)) := by
  induction doc generalizing column indentation depth with
  | nil => exact .nil
  | cons item rest ih =>
    cases item with
    | text style s =>
      rw [fits, Bool.and_eq_true, decide_eq_true_eq, ← String.length_toList] at hdepth ⊢
      rw [cells, lay, chars_text, ← String.length_toList]
      apply Arranged.text
      . apply ih
        exact fun h => (hdepth h).2
      . exact id
    | line =>
      cases depth with
      | zero =>
        rw [cells, lay, chars_newline]
        apply Arranged.newline
        apply ih
        exact fun h => absurd h (Nat.lt_irrefl 0)
      | succ depth =>
        have hline := hdepth (Nat.succ_pos _)
        rw [fits, Bool.and_eq_true, decide_eq_true_eq] at hline
        rw [cells, lay, chars_space]
        apply Arranged.space
        . apply ih
          exact fun _ => hline.2
        . exact hline.1
        . exact hline.2
    | openGroup =>
      cases depth with
      | zero =>
        rw [lay]
        split
        next h =>
          have hflat := ih column indentation 1 fun _ => h
          exact hflat.mono fun _ => h
        next => exact ih _ _ _ fun h => absurd h (Nat.lt_irrefl 0)
      | succ depth => exact ih _ _ _ fun _ => hdepth (Nat.succ_pos _)
    | closeGroup =>
      apply ih
      exact fun h => hdepth (Nat.lt_of_lt_of_le h (Nat.sub_le ..))
    | indent n => exact ih _ _ _ hdepth
    | dedent n => exact ih _ _ _ hdepth

theorem arranged_layout (doc : Document σ) (width : Nat) :
    Arranged width 0 (fits width doc 0 0 = true) (cells doc 0)
      (plain (layout width doc)).toList := by
  rw [toList_plain, layout_eq_lay]
  apply arranged_lay
  exact fun h => absurd h (Nat.lt_irrefl 0)

end Layout

end Arithmetization
