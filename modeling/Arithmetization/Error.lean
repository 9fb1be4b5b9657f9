import Arithmetization.Code.Decimal
import Arithmetization.Code.Symbol
import Arithmetization.Language.Variable

/-!
This module contains the causes for which a request is refused, and the text that reports each of
them.
-/

namespace Arithmetization

inductive Obstacle where
  | notFree
  | boundElsewhere
  | otherFreeVariables
deriving DecidableEq

namespace Obstacle

def message : Obstacle → String
  | .notFree => "it does not occur free in the formula"
  | .boundElsewhere => "it is also bound by a quantifier of the formula"
  | .otherFreeVariables => "other variables are free in the formula"

end Obstacle

inductive Error where
  | invalidVariable (input : String)
  | negativeNumeral (value : Int)
  | numeralTooLarge (value limit : Nat)
  | unsubstitutable (v : Variable) (obstacle : Obstacle)
  | noSuchSymbol
  | zeroCode (s : Symbol)
  | duplicateCode (code : UInt32) (first second : Symbol)
  | separatorInCode (s : Symbol) (code : UInt32) (separator : UInt8)
  | invalidSeparator (separator : UInt8)
  | missingSymbol (s : Symbol)
  | duplicateSymbol (s : Symbol)
  | unknownSymbol (name : String)
  | unreadableTable
deriving DecidableEq

namespace Error

def message : Error → String
  | .invalidVariable input =>
    s!"Invalid variable `{input}`. Variables are written `x` followed by zero or more `*`, " ++
      "and their star count must be nonnegative."
  | .negativeNumeral value =>
    s!"Cannot build the numeral of `{value}`: numerals only exist for nonnegative integers."
  | .numeralTooLarge value limit =>
    s!"Refusing to build the numeral of `{Decimal.text value}`: it exceeds the configured " ++
      s!"limit of `{Decimal.text limit}` successor applications."
  | .unsubstitutable v obstacle =>
    s!"Cannot substitute for variable `{v.name}`: {obstacle.message}."
  | .noSuchSymbol => "Matching variant not found"
  | .zeroCode s => s!"Symbol `{s.glyph}` is assigned code 0, but codes must be positive."
  | .duplicateCode code first second =>
    s!"Symbols `{first.glyph}` and `{second.glyph}` share the code `{code.toNat}`."
  | .separatorInCode s code separator =>
    s!"Code `{code.toNat}` of symbol `{s.glyph}` contains the separator digit " ++
      s!"`{separator.toNat}`, which would make concatenation ambiguous."
  | .invalidSeparator separator => s!"Separator `{separator.toNat}` is not a decimal digit."
  | .missingSymbol s => s!"No code is assigned to symbol `{s.glyph}`."
  | .duplicateSymbol s => s!"Symbol `{s.glyph}` is assigned a code more than once."
  | .unknownSymbol name => s!"Unknown symbol `{name}` in code table."
  | .unreadableTable => "Failed to parse code table"

end Error

end Arithmetization
