import Arithmetization.Print.Layout
import Mathlib.Data.List.Basic

/-!
This module contains the theory of layout. At every width a document shows the same characters in
the same order. The width only decides about its breaks, each of which is a space or else a newline
with the indentation of its place; if the width is not exceeded by the whole document in one line,
all of them are spaces.
-/

namespace Arithmetization

namespace Layout

inductive Cell where
  | char (c : Char)
  | gap (indentation : Nat)

def Cell.flat : Cell → Char
  | .char c => c
  | .gap _ => ' '

@[simp]
theorem flat_comp_char : Cell.flat ∘ Cell.char = id := rfl

/--
A text in which every character is as given, and every break is a space or a newline followed by its
indentation.
-/
inductive Typeset : List Cell → List Char → Prop where
  | nil : Typeset [] []
  | char {cells : List Cell} {cs : List Char} (c : Char) (h : Typeset cells cs) :
    Typeset (.char c :: cells) (c :: cs)
  | space {cells : List Cell} {cs : List Char} (n : Nat) (h : Typeset cells cs) :
    Typeset (.gap n :: cells) (' ' :: cs)
  | newline {cells : List Cell} {cs : List Char} (n : Nat) (h : Typeset cells cs) :
    Typeset (.gap n :: cells) ('\n' :: (List.replicate n ' ' ++ cs))

theorem Typeset.text {cells : List Cell} {cs : List Char} (text : List Char)
    (h : Typeset cells cs) : Typeset (text.map .char ++ cells) (text ++ cs) := by
  induction text with
  | nil => exact h
  | cons c text ih => exact .char c ih

theorem Typeset.eq_of_map_char {text cs : List Char} (h : Typeset (text.map .char) cs) :
    cs = text := by
  induction text generalizing cs with
  | nil =>
    cases h
    rfl
  | cons c text ih =>
    cases h with
    | char c h => rw [ih h]

variable {σ : Type}

def cells : Document σ → (indentation : Nat) → List Cell
  | [], _ => []
  | .text _ s :: rest, indentation => s.toList.map .char ++ cells rest indentation
  | .line :: rest, indentation => .gap indentation :: cells rest indentation
  | .openGroup :: rest, indentation => cells rest indentation
  | .closeGroup :: rest, indentation => cells rest indentation
  | .indent n :: rest, indentation => cells rest (indentation + n)
  | .dedent n :: rest, indentation => cells rest (indentation - n)

def chars (pieces : List (Piece σ)) : List Char :=
  pieces.flatMap fun p => p.toString.toList

@[simp]
theorem chars_nil : chars ([] : List (Piece σ)) = [] := rfl

@[simp]
theorem chars_text (style : Option σ) (s : String) (pieces : List (Piece σ)) :
    chars (.text style s :: pieces) = s.toList ++ chars pieces := rfl

@[simp]
theorem chars_space (pieces : List (Piece σ)) : chars (.space :: pieces) = ' ' :: chars pieces := by
  simp [chars, Piece.toString]

theorem toList_pushn (c : Char) (n : Nat) : ("".pushn c n).toList = List.replicate n c := by
  rw [String.pushn_eq_repeat_push]
  induction n with
  | zero => rfl
  | succ n ih => rw [Nat.repeat, String.toList_push, ih, List.replicate_succ']

@[simp]
theorem chars_newline (n : Nat) (pieces : List (Piece σ)) :
    chars (.newline n :: pieces) = '\n' :: (List.replicate n ' ' ++ chars pieces) := by
  simp [chars, Piece.toString, toList_pushn]

theorem toList_plain (pieces : List (Piece σ)) : (plain pieces).toList = chars pieces := by
  have h (s : String) :
      (pieces.foldl (fun s p => s ++ p.toString) s).toList = s.toList ++ chars pieces := by
    induction pieces generalizing s with
    | nil => simp
    | cons p pieces ih => simp [ih, chars]
  rw [plain, h]
  simp

def lay (width : Nat) : Document σ → (column indentation depth : Nat) → List (Piece σ)
  | [], _, _, _ => []
  | .text style s :: rest, column, indentation, depth =>
    .text style s :: lay width rest (column + s.length) indentation depth
  | .line :: rest, _, indentation, 0 =>
    .newline indentation :: lay width rest indentation indentation 0
  | .line :: rest, column, indentation, depth + 1 =>
    .space :: lay width rest (column + 1) indentation (depth + 1)
  | .openGroup :: rest, column, indentation, 0 =>
    lay width rest column indentation (if fits width rest column 1 then 1 else 0)
  | .openGroup :: rest, column, indentation, depth + 1 =>
    lay width rest column indentation (depth + 2)
  | .closeGroup :: rest, column, indentation, depth =>
    lay width rest column indentation (depth - 1)
  | .indent n :: rest, column, indentation, depth =>
    lay width rest column (indentation + n) depth
  | .dedent n :: rest, column, indentation, depth =>
    lay width rest column (indentation - n) depth

variable (width : Nat)

theorem toList_go (doc : Document σ) (column indentation depth : Nat) (out : Array (Piece σ)) :
    (layout.go width doc column indentation depth out).toList =
      out.toList ++ lay width doc column indentation depth := by
  induction doc generalizing column indentation depth out with
  | nil => simp [layout.go, lay]
  | cons item rest ih =>
    cases item with
    | text style s => simp [layout.go, lay, ih]
    | line | openGroup => cases depth <;> simp [layout.go, lay, ih]
    | closeGroup | indent _ | dedent _ => simp [layout.go, lay, ih]

theorem layout_eq_lay (doc : Document σ) : layout width doc = lay width doc 0 0 0 := by
  rw [layout, toList_go]
  rfl

theorem typeset_lay (doc : Document σ) (column indentation depth : Nat) :
    Typeset (cells doc indentation) (chars (lay width doc column indentation depth)) := by
  induction doc generalizing column indentation depth with
  | nil => exact .nil
  | cons item rest ih =>
    cases item with
    | text style s =>
      rw [lay, chars_text]
      exact .text _ (ih ..)
    | line =>
      cases depth with
      | zero =>
        rw [lay, chars_newline]
        exact .newline _ (ih ..)
      | succ depth =>
        rw [lay, chars_space]
        exact .space _ (ih ..)
    | openGroup =>
      cases depth with
      | zero => exact ih ..
      | succ depth => exact ih ..
    | closeGroup => exact ih ..
    | indent n => exact ih ..
    | dedent n => exact ih ..

theorem typeset_layout (doc : Document σ) :
    Typeset (cells doc 0) (plain (layout width doc)).toList := by
  rw [toList_plain, layout_eq_lay]
  exact typeset_lay ..

def guarded : Document σ → (depth : Nat) → Bool
  | [], _ => true
  | .text _ _ :: rest, depth => guarded rest depth
  | .line :: _, 0 => false
  | .line :: rest, depth + 1 => guarded rest (depth + 1)
  | .openGroup :: rest, depth => guarded rest (depth + 1)
  | .closeGroup :: rest, depth => guarded rest (depth - 1)
  | .indent _ :: rest, depth => guarded rest depth
  | .dedent _ :: rest, depth => guarded rest depth

variable {width}

theorem fits_of_length_le {doc : Document σ} {column : Nat} (indentation depth : Nat)
    (h : column + (cells doc indentation).length ≤ width) : fits width doc column depth = true := by
  induction doc generalizing column indentation depth with
  | nil => rfl
  | cons item rest ih =>
    cases item with
    | text style s =>
      rw [cells, List.length_append, List.length_map, String.length_toList] at h
      rw [fits, Bool.and_eq_true, decide_eq_true_eq]
      exact ⟨by omega, ih indentation _ (by omega)⟩
    | line =>
      cases depth with
      | zero => rfl
      | succ depth =>
        rw [cells, List.length_cons] at h
        rw [fits, Bool.and_eq_true, decide_eq_true_eq]
        exact ⟨by omega, ih indentation _ (by omega)⟩
    | openGroup =>
      cases depth with
      | zero => exact ih _ _ h
      | succ depth => exact ih _ _ h
    | closeGroup => exact ih _ _ h
    | indent n => exact ih _ _ h
    | dedent n => exact ih _ _ h

theorem lay_of_length_le {doc : Document σ} {column indentation depth : Nat}
    (hguarded : guarded doc depth = true)
    (h : column + (cells doc indentation).length ≤ width) :
    chars (lay width doc column indentation depth) = (cells doc indentation).map Cell.flat := by
  induction doc generalizing column indentation depth with
  | nil => rfl
  | cons item rest ih =>
    cases item with
    | text style s =>
      rw [cells, List.length_append, List.length_map, String.length_toList] at h
      rw [lay, chars_text, cells, List.map_append, List.map_map, flat_comp_char, List.map_id,
        ih hguarded]
      omega
    | line =>
      cases depth with
      | zero => contradiction
      | succ depth =>
        rw [cells, List.length_cons] at h
        rw [lay, chars_space, cells, List.map_cons, ih hguarded]
        . rfl
        . omega
    | openGroup =>
      cases depth with
      | zero =>
        have hfits : fits width rest column 1 = true := fits_of_length_le indentation 1 h
        rw [lay, if_pos hfits]
        exact ih hguarded h
      | succ depth => exact ih hguarded h
    | closeGroup => exact ih hguarded h
    | indent n => exact ih hguarded h
    | dedent n => exact ih hguarded h

theorem layout_of_length_le {doc : Document σ} (hguarded : guarded doc 0 = true)
    (h : (cells doc 0).length ≤ width) :
    (plain (layout width doc)).toList = (cells doc 0).map Cell.flat := by
  rw [toList_plain, layout_eq_lay]
  apply lay_of_length_le hguarded
  omega

end Layout

end Arithmetization
