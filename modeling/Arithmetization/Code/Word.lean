import Arithmetization.Code.Symbol
import Arithmetization.Language.Expression

/-!
This module contains the words that spell variables, terms and formulas over the alphabet. Each
binary operator is enclosed in parentheses together with its arguments.

Words are written in front of what follows them, so that spelling takes one step for each symbol.
The main statements say that this is the word itself followed by the rest.
-/

namespace Arithmetization

abbrev Word := List Symbol

namespace Word

def enclosed (operator : Symbol) (l r : Word → Word) (rest : Word) : Word :=
  .leftParen :: l (operator :: r (.rightParen :: rest))

def Appends (write : Word → Word) : Prop :=
  ∀ rest, write rest = write [] ++ rest

theorem appends_enclosed {l r : Word → Word} (hl : Appends l) (hr : Appends r)
    (operator : Symbol) : Appends (enclosed operator l r) := by
  intro rest
  rw [enclosed, enclosed, hl, hr, hl (operator :: r [.rightParen]), hr [.rightParen]]
  simp

end Word

namespace Variable

def spell (v : Variable) (rest : Word) : Word :=
  .letter :: (List.replicate v.stars.toNat .star ++ rest)

def word (v : Variable) : Word := v.spell []

theorem appends_spell (v : Variable) : Word.Appends v.spell := by
  intro rest
  simp [spell]

end Variable

namespace Word

def quantified (quantifier : Symbol) (v : Variable) (body : Word → Word) (rest : Word) : Word :=
  quantifier :: v.spell (.leftParen :: body (.rightParen :: rest))

theorem appends_quantified {body : Word → Word} (h : Appends body) (quantifier : Symbol)
    (v : Variable) : Appends (quantified quantifier v body) := by
  intro rest
  rw [quantified, quantified, v.appends_spell, h, v.appends_spell (_ :: body [.rightParen]),
    h [.rightParen]]
  simp

end Word

open Word

namespace Term

def spell : Term → Word → Word
  | .zero, rest => .zero :: rest
  | .var v, rest => v.spell rest
  | .succ t, rest => .succ :: .leftParen :: t.spell (.rightParen :: rest)
  | .add l r, rest => enclosed .plus l.spell r.spell rest
  | .mul l r, rest => enclosed .times l.spell r.spell rest

def word (t : Term) : Word := t.spell []

theorem appends_spell (t : Term) : Appends t.spell := by
  induction t with
  | zero => exact fun _ => rfl
  | var v => exact v.appends_spell
  | succ t ih =>
    intro rest
    rw [spell, spell, ih, ih [.rightParen]]
    simp
  | add l r ihl ihr => exact appends_enclosed ihl ihr .plus
  | mul l r ihl ihr => exact appends_enclosed ihl ihr .times

end Term

namespace Formula

def spell : Formula → Word → Word
  | .equal l r, rest => enclosed .equal l.spell r.spell rest
  | .less l r, rest => enclosed .less l.spell r.spell rest
  | .not f, rest => .not :: f.spell rest
  | .and l r, rest => enclosed .and l.spell r.spell rest
  | .or l r, rest => enclosed .or l.spell r.spell rest
  | .all v f, rest => quantified .all v f.spell rest
  | .ex v f, rest => quantified .ex v f.spell rest
  | .proof p f, rest => enclosed .proof p.spell f.spell rest

def word (f : Formula) : Word := f.spell []

theorem appends_spell (f : Formula) : Appends f.spell := by
  induction f with
  | equal l r => exact appends_enclosed l.appends_spell r.appends_spell .equal
  | less l r => exact appends_enclosed l.appends_spell r.appends_spell .less
  | not f ih =>
    intro rest
    rw [spell, spell, ih]
    rfl
  | and l r ihl ihr => exact appends_enclosed ihl ihr .and
  | or l r ihl ihr => exact appends_enclosed ihl ihr .or
  | all v f ih => exact appends_quantified ih .all v
  | ex v f ih => exact appends_quantified ih .ex v
  | proof p f => exact appends_enclosed p.appends_spell f.appends_spell .proof

end Formula

namespace Expression

def spell : Expression → Word → Word
  | .term t => t.spell
  | .formula f => f.spell

def word (e : Expression) : Word := e.spell []

theorem appends_spell (e : Expression) : Appends e.spell := by
  cases e with
  | term t => exact t.appends_spell
  | formula f => exact f.appends_spell

end Expression

end Arithmetization
