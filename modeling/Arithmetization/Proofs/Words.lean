import Arithmetization.Proofs.Layout
import Mathlib.Data.List.Basic

/-!
This module contains the words of a text, which are what its white space leaves. Typesetting does
not change them: each break separates words, whether it is a space or a newline.
-/

namespace Arithmetization

namespace Layout

def isBlank (c : Char) : Bool :=
  let n := c.toNat
  (9 ≤ n && n ≤ 13) || n == 32 || n == 0x85 || n == 0xa0 || n == 0x1680 ||
    (0x2000 ≤ n && n ≤ 0x200a) || n == 0x2028 || n == 0x2029 || n == 0x202f || n == 0x205f ||
    n == 0x3000

def words (cs : List Char) : List (List Char) :=
  (cs.splitOnP isBlank).filter (· ≠ [])

theorem words_nil : words [] = [] := by
  simp [words, List.splitOnP_nil]

theorem words_append_blank {c : Char} (hc : isBlank c = true) (pre cs : List Char) :
    words (pre ++ c :: cs) = words pre ++ words cs := by
  rw [words, List.splitOnP_append_cons pre cs hc, List.filter_append]
  rfl

theorem words_blank {c : Char} (hc : isBlank c = true) (cs : List Char) :
    words (c :: cs) = words cs := by
  have h := words_append_blank hc [] cs
  rwa [words_nil] at h

theorem words_spaces (n : Nat) (cs : List Char) :
    words (List.replicate n ' ' ++ cs) = words cs := by
  induction n with
  | zero => rfl
  | succ n ih =>
    rw [List.replicate_succ, List.cons_append, words_blank rfl, ih]

theorem flatten_words (cs : List Char) : (words cs).flatten = cs.filter fun c => !isBlank c := by
  have hflatten : (words cs).flatten = (cs.splitOnP isBlank).flatten := List.flatten_filter_ne_nil
  rw [hflatten]
  clear hflatten
  induction cs with
  | nil => rfl
  | cons c cs ih =>
    rw [List.splitOnP_cons_eq_if_modifyHead]
    split
    next hc => simpa [hc] using ih
    next hc =>
      obtain ⟨w, ws, hws⟩ := List.exists_cons_of_ne_nil (List.splitOnP_ne_nil isBlank cs)
      rw [hws] at ih ⊢
      simpa [hc] using ih

theorem Typeset.words_eq {cells : List Cell} {cs : List Char} (h : Typeset cells cs) :
    words cs = words (cells.map Cell.flat) := by
  -- The word that a character belongs to can begin in front of it.
  suffices hpre : ∀ pre, words (pre ++ cs) = words (pre ++ cells.map Cell.flat) from hpre []
  induction h with
  | nil => exact fun _ => rfl
  | char c h ih =>
    intro pre
    rw [List.append_cons, ih, List.append_assoc]
    rfl
  | @space cells cs n h ih =>
    intro pre
    have hrest : words cs = words (cells.map Cell.flat) := ih []
    rw [words_append_blank rfl, hrest]
    exact (words_append_blank rfl pre _).symm
  | @newline cells cs n h ih =>
    intro pre
    have hrest : words cs = words (cells.map Cell.flat) := ih []
    rw [words_append_blank rfl, words_spaces, hrest]
    exact (words_append_blank rfl pre _).symm

end Layout

end Arithmetization
