import Arithmetization.Code.Decimal
import Arithmetization.Language.Expression

/-!
This module contains Polish notation, in which every operator stands in front of its arguments and
no parentheses are needed. Tokens are separated by single spaces. What is read may have the token of
an operator with one argument followed by `^` and a number, for as many of them in a row, and may
have conditionals, which are written out as disjunctions.
-/

namespace Arithmetization

namespace Polish

inductive Token where
  | zero
  | var (v : Variable)
  | succ
  | add
  | mul
  | equal
  | less
  | not
  | and
  | or
  | implies
  | all (v : Variable)
  | ex (v : Variable)
  | proof
deriving DecidableEq

def starred? (ds : List Char) : Option Variable :=
  if Decimal.isDigits ds ∧ Decimal.value ds < UInt32.size then
    some ⟨UInt32.ofNat (Decimal.value ds)⟩
  else
    none

def Token.read? : List Char → Option Token
  | ['0'] => some .zero
  | ['S'] => some .succ
  | ['+'] => some .add
  | ['*'] => some .mul
  | ['='] => some .equal
  | ['<'] => some .less
  | ['!'] => some .not
  | ['&'] => some .and
  | ['|'] => some .or
  | ['>'] => some .implies
  | ['P'] => some .proof
  | 'x' :: ds => (starred? ds).map .var
  | 'A' :: ds => (starred? ds).map .all
  | 'E' :: ds => (starred? ds).map .ex
  | _ => none

def Token.apply : Token → List Expression → Option (List Expression)
  | .zero, rest => some (.term .zero :: rest)
  | .var v, rest => some (.term (.var v) :: rest)
  | .succ, .term t :: rest => some (.term (.succ t) :: rest)
  | .add, .term l :: .term r :: rest => some (.term (.add l r) :: rest)
  | .mul, .term l :: .term r :: rest => some (.term (.mul l r) :: rest)
  | .equal, .term l :: .term r :: rest => some (.formula (.equal l r) :: rest)
  | .less, .term l :: .term r :: rest => some (.formula (.less l r) :: rest)
  | .not, .formula f :: rest => some (.formula (.not f) :: rest)
  | .and, .formula l :: .formula r :: rest => some (.formula (.and l r) :: rest)
  | .or, .formula l :: .formula r :: rest => some (.formula (.or l r) :: rest)
  | .implies, .formula l :: .formula r :: rest => some (.formula (.implies l r) :: rest)
  | .all v, .formula f :: rest => some (.formula (.all v f) :: rest)
  | .ex v, .formula f :: rest => some (.formula (.ex v f) :: rest)
  | .proof, .term p :: .term f :: rest => some (.formula (.proof p f) :: rest)
  | _, _ => none

def repeated? (cs : List Char) : Option (Token × Nat) :=
  match cs.splitOn '^' with
  | [token] => (Token.read? token).map (·, 1)
  | [token, times] =>
    if Decimal.isDigits times then
      (Token.read? token).map (·, Decimal.value times)
    else
      none
  | _ => none

def expressions? (tokens : List (List Char)) : Option (List Expression) :=
  -- The end is read first, so that an operator finds its arguments read.
  tokens.foldr
    (fun cs read => do
      let (token, times) ← repeated? cs
      Nat.repeat (·.bind token.apply) times read)
    (some [])

def read? (s : String) : Option Expression :=
  match expressions? (s.toList.splitOn ' ') with
  | some [e] => some e
  | _ => none

def variableToken (letter : String) (v : Variable) : String :=
  letter ++ toString v.stars.toNat

end Polish

open Polish

def Term.tokens : Term → (rest : List String) → List String
  | .zero, rest => "0" :: rest
  | .var v, rest => variableToken "x" v :: rest
  | .succ t, rest => "S" :: t.tokens rest
  | .add l r, rest => "+" :: l.tokens (r.tokens rest)
  | .mul l r, rest => "*" :: l.tokens (r.tokens rest)

def Formula.tokens : Formula → (rest : List String) → List String
  | .equal l r, rest => "=" :: l.tokens (r.tokens rest)
  | .less l r, rest => "<" :: l.tokens (r.tokens rest)
  | .not f, rest => "!" :: f.tokens rest
  | .and l r, rest => "&" :: l.tokens (r.tokens rest)
  | .or l r, rest => "|" :: l.tokens (r.tokens rest)
  | .all v f, rest => variableToken "A" v :: f.tokens rest
  | .ex v f, rest => variableToken "E" v :: f.tokens rest
  | .proof p f, rest => "P" :: p.tokens (f.tokens rest)

def Expression.toPolish : Expression → String
  | .term t => " ".intercalate (t.tokens [])
  | .formula f => " ".intercalate (f.tokens [])

end Arithmetization
