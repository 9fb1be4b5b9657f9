import Arithmetization.Language.Formula

/-!
This module contains the expressions of the language, that is its terms and formulas taken
together, and the operations that both kinds have.
-/

namespace Arithmetization

inductive Expression where
  | term (t : Term)
  | formula (f : Formula)
deriving DecidableEq, Ord

namespace Expression

def size : Expression → Nat
  | .term t => t.size
  | .formula f => f.size

def subst (e : Expression) (v : Variable) (r : Term) : Expression :=
  match e with
  | .term t => .term (t.subst v r)
  | .formula f => .formula (f.subst v r)

def occursFree (e : Expression) (v : Variable) : Bool :=
  match e with
  | .term t => t.occurs v
  | .formula f => f.occursFree v

end Expression

end Arithmetization
