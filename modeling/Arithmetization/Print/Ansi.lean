import Arithmetization.Print.Layout

/-!
This module contains colored text for terminals. Every text with an appearance is preceded by the
escape sequences that select it, after one that clears what was selected before, and is followed by
one that clears it again.
-/

namespace Arithmetization

namespace Ansi

inductive Color where
  | red
  | green
  | yellow
  | blue
  | magenta
  | cyan
  | white
deriving DecidableEq

namespace Color

def index : Color → Nat
  | .red => 1
  | .green => 2
  | .yellow => 3
  | .blue => 4
  | .magenta => 5
  | .cyan => 6
  | .white => 7

end Color

structure Appearance where
  color : Option Color := none
  intense : Bool := false
  bold : Bool := false
  dimmed : Bool := false
deriving DecidableEq

def sequence (parameters : String) : String :=
  "\x1b[" ++ parameters ++ "m"

def reset : String := sequence "0"

namespace Appearance

def select (a : Appearance) : String :=
  reset ++ (if a.bold then sequence "1" else "") ++ (if a.dimmed then sequence "2" else "") ++
    match a.color with
    | none => ""
    | some c =>
      if a.intense then sequence s!"38;5;{8 + c.index}" else sequence s!"3{c.index}"

end Appearance

def paint (a : Appearance) (s : String) : String :=
  a.select ++ s ++ reset

def paintPiece {σ : Type} (appearance : σ → Appearance) : Layout.Piece σ → String
  | .text (some style) s => paint (appearance style) s
  | p => p.toString

def colored {σ : Type} (appearance : σ → Appearance) (pieces : List (Layout.Piece σ)) : String :=
  pieces.foldl (fun s p => s ++ paintPiece appearance p) ""

end Ansi

end Arithmetization
