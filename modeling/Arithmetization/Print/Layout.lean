/-!
This module contains the layout of documents in lines of a given width. A document is a sequence of
texts and breaks, in which groups and indentations are opened and closed. A group is laid out flat,
with every break in it a space, if it fits; otherwise its own breaks become newlines, and the groups
inside it are tried in turn.

A group fits if the line does not exceed the width up to the next break after the group, which
counts as a newline whatever becomes of it later.
-/

namespace Arithmetization

namespace Layout

inductive Item (σ : Type) where
  | text (style : Option σ) (s : String)
  | line
  | openGroup
  | closeGroup
  | indent (n : Nat)
  | dedent (n : Nat)

abbrev Document (σ : Type) := List (Item σ)

inductive Piece (σ : Type) where
  | text (style : Option σ) (s : String)
  | space
  | newline (indentation : Nat)

/--
Whether the line does not exceed the width before the next break outside of all groups. The number
of groups to leave is `depth`; breaks inside them are spaces, and groups that open outside of them
are passed over.
-/
def fits {σ : Type} (width : Nat) : Document σ → (column depth : Nat) → Bool
  | [], _, _ => true
  | .text _ s :: rest, column, depth =>
    column + s.length ≤ width && fits width rest (column + s.length) depth
  | .line :: _, _, 0 => true
  | .line :: rest, column, depth + 1 =>
    column + 1 ≤ width && fits width rest (column + 1) (depth + 1)
  | .openGroup :: rest, column, 0 => fits width rest column 0
  | .openGroup :: rest, column, depth + 1 => fits width rest column (depth + 2)
  | .closeGroup :: rest, column, depth => fits width rest column (depth - 1)
  | .indent _ :: rest, column, depth => fits width rest column depth
  | .dedent _ :: rest, column, depth => fits width rest column depth

def layout {σ : Type} (width : Nat) (doc : Document σ) : List (Piece σ) :=
  (go doc 0 0 0 #[]).toList
where
  go : Document σ → (column indentation depth : Nat) → Array (Piece σ) → Array (Piece σ)
    | [], _, _, _, out => out
    | .text style s :: rest, column, indentation, depth, out =>
      go rest (column + s.length) indentation depth (out.push (.text style s))
    | .line :: rest, _, indentation, 0, out =>
      go rest indentation indentation 0 (out.push (.newline indentation))
    | .line :: rest, column, indentation, depth + 1, out =>
      go rest (column + 1) indentation (depth + 1) (out.push .space)
    | .openGroup :: rest, column, indentation, 0, out =>
      go rest column indentation (if fits width rest column 1 then 1 else 0) out
    | .openGroup :: rest, column, indentation, depth + 1, out =>
      go rest column indentation (depth + 2) out
    | .closeGroup :: rest, column, indentation, depth, out =>
      go rest column indentation (depth - 1) out
    | .indent n :: rest, column, indentation, depth, out =>
      go rest column (indentation + n) depth out
    | .dedent n :: rest, column, indentation, depth, out =>
      go rest column (indentation - n) depth out

namespace Piece

def toString {σ : Type} : Piece σ → String
  | .text _ s => s
  | .space => " "
  | .newline indentation => "\n" ++ "".pushn ' ' indentation

end Piece

def plain {σ : Type} (pieces : List (Piece σ)) : String :=
  pieces.foldl (fun s p => s ++ p.toString) ""

end Layout

end Arithmetization
