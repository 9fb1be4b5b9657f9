import Arithmetization.Print.Ansi

/-!
This module contains what a terminal shows of a text with escape sequences: the characters outside
of them, each in the appearance that is selected where it stands. So painting a text in an
appearance makes the terminal show it in this appearance.
-/

namespace Arithmetization

namespace Ansi

def isFinal (c : Char) : Bool :=
  '@'.toNat ≤ c.toNat && c.toNat ≤ '~'.toNat

def Color.ofDigit? : Char → Option Color
  | '1' => some .red
  | '2' => some .green
  | '3' => some .yellow
  | '4' => some .blue
  | '5' => some .magenta
  | '6' => some .cyan
  | '7' => some .white
  | _ => none

def Appearance.after (a : Appearance) : (parameters : List Char) → Appearance
  | ['0'] => {}
  | ['1'] => { a with bold := true }
  | ['2'] => { a with dimmed := true }
  | ['3', digit] => { a with color := Color.ofDigit? digit, intense := false }
  | _ => a

/--
The characters that a terminal shows of a text, if `a` is selected where the text begins. Inside of
an escape sequence, `sequence?` has the parameters that are read so far.
-/
def shown : (sequence? : Option (List Char)) → (a : Appearance) → List Char →
    List (Char × Appearance)
  | _, _, [] => []
  | none, a, '\x1b' :: '[' :: cs => shown (some []) a cs
  | none, a, c :: cs => (c, a) :: shown none a cs
  | some parameters, a, c :: cs =>
    if isFinal c then
      shown none (a.after parameters) cs
    else
      shown (some (parameters ++ [c])) a cs

def screen (s : String) : List (Char × Appearance) :=
  shown none {} s.toList

variable {a : Appearance}

theorem shown_cons {c : Char} (hc : c ≠ '\x1b') (cs : List Char) :
    shown none a (c :: cs) = (c, a) :: shown none a cs := by
  rw [shown]
  intro _ h
  exact absurd h hc

theorem shown_append {text : List Char} (htext : ¬ '\x1b' ∈ text) (cs : List Char) :
    shown none a (text ++ cs) = text.map (·, a) ++ shown none a cs := by
  induction text with
  | nil => rfl
  | cons c text ih =>
    rw [List.mem_cons, not_or] at htext
    rw [List.cons_append, shown_cons (Ne.symm htext.1), ih htext.2]
    rfl

theorem shown_parameters {parameters : List Char} (h : parameters.any isFinal = false)
    (before cs : List Char) :
    shown (some before) a (parameters ++ 'm' :: cs) =
      shown none (a.after (before ++ parameters)) cs := by
  induction parameters generalizing before with
  | nil =>
    rw [List.append_nil]
    rfl
  | cons c parameters ih =>
    rw [List.any_cons, Bool.or_eq_false_iff] at h
    rw [List.cons_append, shown, h.1, List.append_cons before c parameters]
    exact ih h.2 (before ++ [c])

theorem shown_sequence {parameters : String} (h : parameters.toList.any isFinal = false)
    (cs : List Char) :
    shown none a ((sequence parameters).toList ++ cs) =
      shown none (a.after parameters.toList) cs := by
  have hsequence : (sequence parameters).toList ++ cs =
      '\x1b' :: '[' :: (parameters.toList ++ 'm' :: cs) := by
    simp [sequence]
  rw [hsequence, shown, shown_parameters h, List.nil_append]

theorem shown_select {b : Appearance} (hb : b.intense = false) (cs : List Char) :
    shown none a (b.select.toList ++ cs) = shown none b cs := by
  have hif (flag : Bool) {parameters : String} (h : parameters.toList.any isFinal = false)
      (a : Appearance) (cs : List Char) :
      shown none a ((if flag then sequence parameters else "").toList ++ cs) =
        shown none (if flag then a.after parameters.toList else a) cs := by
    cases flag with
    | false => rfl
    | true => exact shown_sequence h cs
  obtain ⟨color, intense, bold, dimmed⟩ := b
  obtain rfl : intense = false := hb
  rw [Appearance.select, String.toList_append, String.toList_append, String.toList_append,
    List.append_assoc, List.append_assoc, List.append_assoc, reset, shown_sequence (by decide),
    hif bold (by decide), hif dimmed (by decide)]
  cases color with
  | none => cases bold <;> cases dimmed <;> rfl
  | some c =>
    refine (shown_sequence (by cases c <;> decide) cs).trans ?_
    cases c <;> cases bold <;> cases dimmed <;> rfl

theorem shown_paint {b : Appearance} (hb : b.intense = false) {s : String}
    (hs : ¬ '\x1b' ∈ s.toList) (cs : List Char) :
    shown none a ((paint b s).toList ++ cs) = s.toList.map (·, b) ++ shown none {} cs := by
  rw [paint, String.toList_append, String.toList_append, List.append_assoc, List.append_assoc,
    shown_select hb, shown_append hs, reset, shown_sequence (by decide)]
  rfl

end Ansi

end Arithmetization
