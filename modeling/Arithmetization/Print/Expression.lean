import Arithmetization.Language.Expression
import Arithmetization.Print.Ansi

/-!
This module contains the printed form of terms and formulas: operators stand between their
arguments, and parentheses only where a different expression would be read without them. Lines may
break before a conjunction or disjunction sign and after the variable of a quantifier, whose body is
then indented.

Parentheses are colored by the number of parentheses around them, counted in a byte. Like words,
documents are written in front of what follows them.
-/

namespace Arithmetization

inductive Style where
  | punctuation
  | parenthesis (depth : UInt8)
  | keyword
  | operator
  | variableName
  | constant
deriving DecidableEq

namespace Style

def parenthesisColor (depth : UInt8) : Ansi.Color :=
  match depth.toNat % 6 with
  | 0 => .blue
  | 1 => .green
  | 2 => .white
  | 3 => .yellow
  | 4 => .red
  | _ => .magenta

def appearance : Style → Ansi.Appearance
  | .punctuation => { dimmed := true }
  | .parenthesis depth => { color := some (parenthesisColor depth), dimmed := true }
  | .keyword => { color := some .cyan, bold := true }
  | .operator => { color := some .yellow, bold := true }
  | .variableName => { color := some .green, bold := true }
  | .constant => { color := some .magenta }

end Style

namespace Print

abbrev Doc := Layout.Document Style

def styled (style : Style) (s : String) : Layout.Item Style :=
  .text (some style) s

def blank : Layout.Item Style := .text none " "

def leftParen (depth : UInt8) : Layout.Item Style := styled (.parenthesis depth) "("

def rightParen (depth : UInt8) : Layout.Item Style := styled (.parenthesis depth) ")"

def argument (inParens : Bool) (inner : UInt8 → Doc → Doc) (depth : UInt8) (rest : Doc) : Doc :=
  if inParens then
    .openGroup :: leftParen depth :: inner (depth + 1) (rightParen depth :: .closeGroup :: rest)
  else
    inner depth rest

end Print

open Print

namespace Term

def tightness : Term → Nat
  | .zero => 3
  | .var _ => 3
  | .succ _ => 3
  | .add _ _ => 1
  | .mul _ _ => 2

/--
The document of a term inside `depth` parentheses, in front of `rest`. Sums and products associate
to the left, so an argument on the right needs parentheses already if it is as tight as the whole.
-/
def doc : Term → (depth : UInt8) → (rest : Doc) → Doc
  | .zero, _, rest => styled .constant "0" :: rest
  | .var v, _, rest => styled .variableName v.name :: rest
  | .succ t, depth, rest =>
    .openGroup :: styled .constant "S" :: leftParen depth ::
      t.doc (depth + 1) (rightParen depth :: .closeGroup :: rest)
  | .add l r, depth, rest =>
    .openGroup :: argument (l.tightness < 1) l.doc depth
      (blank :: styled .operator "+" :: blank ::
        argument (r.tightness ≤ 1) r.doc depth (.closeGroup :: rest))
  | .mul l r, depth, rest =>
    .openGroup :: argument (l.tightness < 2) l.doc depth
      (blank :: styled .operator "×" :: blank ::
        argument (r.tightness ≤ 2) r.doc depth (.closeGroup :: rest))

end Term

namespace Formula

def looseUnderNot : Formula → Bool
  | .not _ => false
  | .proof _ _ => false
  | _ => true

def looseLeftOfAnd : Formula → Bool
  | .or _ _ => true
  | .all _ _ => true
  | .ex _ _ => true
  | _ => false

def looseLeftOfOr : Formula → Bool
  | .and _ _ => true
  | .all _ _ => true
  | .ex _ _ => true
  | _ => false

def looseOnRight : Formula → Bool
  | .and _ _ => true
  | .or _ _ => true
  | .all _ _ => true
  | .ex _ _ => true
  | _ => false

def doc : Formula → (depth : UInt8) → (rest : Doc) → Doc
  | .equal l r, depth, rest =>
    .openGroup :: l.doc depth (blank :: styled .operator "=" :: blank ::
      r.doc depth (.closeGroup :: rest))
  | .less l r, depth, rest =>
    .openGroup :: l.doc depth (blank :: styled .operator "<" :: blank ::
      r.doc depth (.closeGroup :: rest))
  | .not f, depth, rest =>
    .openGroup :: styled .operator "¬" ::
      argument f.looseUnderNot f.doc depth (.closeGroup :: rest)
  | .and l r, depth, rest =>
    .openGroup :: argument l.looseLeftOfAnd l.doc depth (.line :: styled .operator "∧" :: blank ::
      argument r.looseOnRight r.doc depth (.closeGroup :: rest))
  | .or l r, depth, rest =>
    .openGroup :: argument l.looseLeftOfOr l.doc depth (.line :: styled .operator "∨" :: blank ::
      argument r.looseOnRight r.doc depth (.closeGroup :: rest))
  | .all v f, depth, rest =>
    .openGroup :: styled .keyword "∀" :: styled .variableName v.name :: .indent 2 :: .line ::
      f.doc depth (.dedent 2 :: .closeGroup :: rest)
  | .ex v f, depth, rest =>
    .openGroup :: styled .keyword "∃" :: styled .variableName v.name :: .indent 2 :: .line ::
      f.doc depth (.dedent 2 :: .closeGroup :: rest)
  | .proof p f, depth, rest =>
    .openGroup :: styled .keyword "Proof" :: leftParen depth ::
      p.doc (depth + 1) (styled .punctuation "," :: blank ::
        f.doc (depth + 1) (rightParen depth :: .closeGroup :: rest))

end Formula

namespace Expression

def document : Expression → Doc
  | .term t => t.doc 0 []
  | .formula f => f.doc 0 []

def pieces (e : Expression) (width : Nat) : List (Layout.Piece Style) :=
  Layout.layout width e.document

def print (e : Expression) (width : Nat) : String :=
  Layout.plain (e.pieces width)

def printColored (e : Expression) (width : Nat) : String :=
  Ansi.colored Style.appearance (e.pieces width)

def defaultWidth : Nat := 80

def display (e : Expression) : String :=
  e.print defaultWidth

end Expression

end Arithmetization
