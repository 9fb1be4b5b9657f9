import Arithmetization.Code.Assignment
import Arithmetization.Toml.Document

/-!
This module contains the forms in which a code table can be given, among them a TOML document. The
document has a table of codes under the key `codes`, whose keys are names of symbols, and may have a
separator under the key `separator`; other keys have no meaning.
-/

namespace Arithmetization

namespace CodeTable

def natBelow? (bound : Nat) : Toml.Value → Option Nat
  | .integer (.ofNat n) => if n < bound then some n else none
  | _ => none

def namedCodes? (entries : Toml.Entries) : Option (List (String × UInt32)) :=
  entries.mapM fun (name, v) =>
    (natBelow? UInt32.size v).map fun n => (name, UInt32.ofNat n)

def settings? (entries : Toml.Entries) : Option (UInt8 × List (String × UInt32)) := do
  let separator ← match entries.lookup "separator" with
    | none => some 0
    | some v => natBelow? UInt8.size v
  match entries.lookup "codes" with
  | some (.table _ codes) => return (UInt8.ofNat separator, ← namedCodes? codes)
  | _ => none

def ofDocument (text : String) : Except Error CodeTable :=
  match (Toml.read? text).bind settings? with
  | none => .error .unreadableTable
  | some (separator, names) => ofNames names separator

def resolveSymbols : List (String × UInt32) → Except Error (List (Symbol × UInt32))
  | [] => .ok []
  | (name, code) :: rest =>
    match Symbol.ofName? name with
    | none => .error .noSuchSymbol
    | some s => (resolveSymbols rest).map ((s, code) :: ·)

inductive Source where
  | standard
  | codes (code : Symbol → UInt32) (separator : UInt8)
  | pairs (names : List (String × UInt32)) (separator : UInt8)
  | document (text : String)

def Source.table : Source → Except Error CodeTable
  | .standard => .ok CodeTable.standard
  | .codes code separator => ofCodes code separator
  | .pairs names separator => do ofPairs (← resolveSymbols names) separator
  | .document text => ofDocument text

end CodeTable

end Arithmetization
