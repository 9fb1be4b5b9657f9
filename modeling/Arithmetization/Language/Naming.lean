import Arithmetization.Error

/-!
This module contains the reading of variables and symbols from what a user calls them. A variable is
called by its name or by its star count, a symbol by its glyph or its ASCII name.
-/

namespace Arithmetization

namespace Variable

def ofName? (name : String) : Option Variable :=
  match name.toList with
  | 'x' :: stars =>
    if stars.all (· = '*') ∧ stars.length < UInt32.size then
      some ⟨UInt32.ofNat stars.length⟩
    else
      none
  | _ => none

def parse (name : String) : Except Error Variable :=
  match ofName? name with
  | some v => .ok v
  | none => .error (.invalidVariable name)

def ofInt (stars : Int) : Except Error Variable :=
  if 0 ≤ stars ∧ stars < UInt32.size then
    .ok ⟨UInt32.ofNat stars.toNat⟩
  else
    .error (.invalidVariable (toString stars))

end Variable

namespace Symbol

def parse (name : String) : Except Error Symbol :=
  match ofName? name with
  | some s => .ok s
  | none => .error .noSuchSymbol

end Symbol

end Arithmetization
