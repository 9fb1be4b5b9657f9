/-!
This module contains the alphabet of the language of arithmetic: the sixteen symbols that terms and
formulas are spelled with. A symbol has a glyph, which is how it is printed, and an ASCII name,
under which it may be called as well.
-/

namespace Arithmetization

inductive Symbol where
  | zero
  | succ
  | plus
  | equal
  | less
  | leftParen
  | rightParen
  | letter
  | star
  | all
  | ex
  | and
  | or
  | not
  | times
  | proof
deriving DecidableEq

namespace Symbol

def alphabet : List Symbol :=
  [.zero, .succ, .plus, .equal, .less, .leftParen, .rightParen, .letter, .star, .all, .ex, .and,
    .or, .not, .times, .proof]

def index : Symbol → Fin 16
  | .zero => 0
  | .succ => 1
  | .plus => 2
  | .equal => 3
  | .less => 4
  | .leftParen => 5
  | .rightParen => 6
  | .letter => 7
  | .star => 8
  | .all => 9
  | .ex => 10
  | .and => 11
  | .or => 12
  | .not => 13
  | .times => 14
  | .proof => 15

def ofIndex? (i : Nat) : Option Symbol :=
  alphabet[i]?

theorem ofIndex?_index (s : Symbol) : ofIndex? s.index = some s := by
  cases s <;> rfl

theorem index_injective {s t : Symbol} (h : s.index = t.index) : s = t := by
  have hs := ofIndex?_index s
  rw [h, ofIndex?_index t, Option.some.injEq] at hs
  exact hs.symm

@[simp]
theorem mem_alphabet (s : Symbol) : s ∈ alphabet := by
  cases s <;> decide

theorem alphabet_nodup : alphabet.Nodup := by
  decide

instance decidableForall (p : Symbol → Prop) [DecidablePred p] : Decidable (∀ s, p s) :=
  decidable_of_iff (∀ s ∈ alphabet, p s)
    ⟨fun h s => h s (mem_alphabet s), fun h s _ => h s⟩

def glyph : Symbol → String
  | .zero => "0"
  | .succ => "S"
  | .plus => "+"
  | .equal => "="
  | .less => "<"
  | .leftParen => "("
  | .rightParen => ")"
  | .letter => "x"
  | .star => "*"
  | .all => "∀"
  | .ex => "∃"
  | .and => "∧"
  | .or => "∨"
  | .not => "¬"
  | .times => "×"
  | .proof => "Proof"

def asciiName : Symbol → String
  | .zero => "zero"
  | .succ => "succ"
  | .plus => "plus"
  | .equal => "eq"
  | .less => "lt"
  | .leftParen => "lparen"
  | .rightParen => "rparen"
  | .letter => "var"
  | .star => "star"
  | .all => "forall"
  | .ex => "exists"
  | .and => "and"
  | .or => "or"
  | .not => "not"
  | .times => "times"
  | .proof => "proof"

def ofName? (name : String) : Option Symbol :=
  alphabet.find? fun s => s.glyph = name ∨ s.asciiName = name

theorem ofName?_glyph (s : Symbol) : ofName? s.glyph = some s := by
  cases s <;> decide

theorem ofName?_asciiName (s : Symbol) : ofName? s.asciiName = some s := by
  cases s <;> decide

def standardCode : Symbol → UInt32
  | .zero => 1
  | .succ => 2
  | .plus => 3
  | .equal => 4
  | .less => 5
  | .leftParen => 6
  | .rightParen => 7
  | .letter => 8
  | .star => 9
  -- Ten has the digit that separates codes.
  | .all => 11
  | .ex => 12
  | .and => 13
  | .or => 14
  | .not => 15
  | .times => 16
  | .proof => 17

end Symbol

end Arithmetization
