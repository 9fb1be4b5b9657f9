import Arithmetization.Code.Table

/-!
This module contains tables given by assignments. An assignment lists symbols with their codes, or
names of symbols with their codes; it makes a table if it lists every symbol once and the codes are
faultless. Named assignments are visited in the order of the names, whatever the order in which they
are listed.
-/

namespace Arithmetization

namespace CodeTable

def firstRepeated? (seen : List Symbol) : List Symbol → Option Symbol
  | [] => none
  | s :: rest => if s ∈ seen then some s else firstRepeated? (s :: seen) rest

theorem firstRepeated?_eq_none_iff {seen ss : List Symbol} :
    firstRepeated? seen ss = none ↔ ss.Nodup ∧ ∀ s ∈ ss, ¬ s ∈ seen := by
  induction ss generalizing seen with
  | nil => simp [firstRepeated?]
  | cons s ss ih =>
    rw [firstRepeated?]
    split
    . simp [*]
    . rw [ih, List.nodup_cons]
      grind

def ofPairs (pairs : List (Symbol × UInt32)) (separator : UInt8) : Except Error CodeTable :=
  match firstRepeated? [] (pairs.map Prod.fst) with
  | some s => .error (.duplicateSymbol s)
  | none =>
    match Symbol.alphabet.find? fun s => (pairs.lookup s).isNone with
    | some s => .error (.missingSymbol s)
    | none => ofCodes (fun s => (pairs.lookup s).getD 0) separator

def resolve : List (String × UInt32) → Except Error (List (Symbol × UInt32))
  | [] => .ok []
  | (name, code) :: rest =>
    match Symbol.ofName? name with
    | none => .error (.unknownSymbol name)
    | some s => (resolve rest).map ((s, code) :: ·)

def ofNames (names : List (String × UInt32)) (separator : UInt8) : Except Error CodeTable := do
  let pairs ← resolve (names.mergeSort fun a b => a.1 ≤ b.1)
  ofPairs pairs separator

end CodeTable

end Arithmetization
