import Arithmetization.Toml.Moment
import Arithmetization.Toml.Number
import Arithmetization.Toml.Quoted

/-!
This module contains the reading of TOML documents, version 1.1. A document is a sequence of lines,
each of which gives a value to a key or opens a table with a header; arrays and tables between
braces may extend over several lines. Values nest at most eighty deep, and keys have at most eighty
parts. A document that breaks a rule is refused as a whole.
-/

namespace Arithmetization

namespace Toml

def isKeyChar (c : Char) : Bool := c.isAlphanum ∨ c = '_' ∨ c = '-'

def isBareChar (c : Char) : Bool := isKeyChar c ∨ c = '+' ∨ c = '.' ∨ c = ':'

def keyPart : Reader String := do
  match ← Reader.peek? with
  | some '"' => quotedLine
  | some '\'' => quotedLine
  | _ =>
    let cs ← Reader.takeWhile isKeyChar
    if cs.isEmpty then
      failure
    return String.ofList cs

def keyParts : (limit : Nat) → Reader (List String)
  | 0 => failure
  | limit + 1 => do
    blanks
    let part ← keyPart
    blanks
    if ← Reader.accept "." then
      return part :: (← keyParts limit)
    return [part]

def key : Reader (List String × String) := do
  let parts ← keyParts 80
  match parts.getLast? with
  | some last => return (parts.dropLast, last)
  | none => failure

def bareValue? (cs : List Char) : Option Value :=
  if cs = "true".toList then
    some (.boolean true)
  else if cs = "false".toList then
    some (.boolean false)
  else
    match integer? cs with
    | some n => some (.integer n)
    | none =>
      if isFloat cs then
        some (.float (String.ofList cs))
      else if isMoment cs then
        some (.moment (String.ofList cs))
      else
        none

def bareValue : Reader Value := do
  let cs ← Reader.takeWhile isBareChar
  let rest ← get
  let cs ← match rest with
    | ' ' :: c :: _ =>
      if isDate cs ∧ c.isDigit then do
        Reader.expect " "
        pure (cs ++ ' ' :: (← Reader.takeWhile isBareChar))
      else
        pure cs
    | _ => pure cs
  match bareValue? cs with
  | some v => return v
  | none => failure

def arrayItems (item : Reader Value) : (fuel : Nat) → Reader (List Value)
  | 0 => failure
  | fuel + 1 => do
    filler
    if ← Reader.accept "]" then
      return []
    let v ← item
    filler
    if ← Reader.accept "," then
      return v :: (← arrayItems item fuel)
    Reader.expect "]"
    return [v]

def definition (space : Reader Unit) (item : Reader Value)
    (define : List String → String → Value → Option Entries) : Reader Entries := do
  let (path, last) ← key
  space
  Reader.expect "="
  space
  let v ← item
  match define path last v with
  | some entries => return entries
  | none => failure

def inlineEntries (item : Reader Value) : (fuel : Nat) → Entries → Reader Entries
  | 0, _ => failure
  | fuel + 1, entries => do
    filler
    if ← Reader.accept "\x7d" then
      return entries
    let entries ← definition filler item fun path last v => entries.define path last v
    filler
    if ← Reader.accept "," then
      inlineEntries item fuel entries
    else
      Reader.expect "\x7d"
      return entries

def flatValue : Reader Value := do
  match ← Reader.peek? with
  | some '"' => return .string (← quoted)
  | some '\'' => return .string (← quoted)
  | _ => bareValue

def value : (nesting : Nat) → Reader Value
  | 0 => flatValue
  | nesting + 1 => do
    match ← Reader.peek? with
    | some '[' =>
      Reader.expect "["
      return .array (← arrayItems (value nesting) ((← get).length + 1))
    | some '{' =>
      Reader.expect "\x7b"
      return .table .inline (← inlineEntries (value nesting) ((← get).length + 1) [])
    | _ => flatValue

def header (root : Entries) : Reader (List String × Entries) := do
  let double ← Reader.accept "[["
  if !double then
    Reader.expect "["
  let (path, last) ← key
  Reader.expect (if double then "]]" else "]")
  let opened := if double then root.appendTable path last else root.openTable path last
  match opened with
  | some root => return (path ++ [last], root)
  | none => failure

def lines : (fuel : Nat) → (current : List String) → (root : Entries) → Reader Entries
  | 0, _, _ => failure
  | fuel + 1, current, root => do
    filler
    match ← Reader.peek? with
    | none => return root
    | some '[' =>
      let (current, root) ← header root
      lineEnd
      lines fuel current root
    | some _ =>
      let root ← definition blanks (value 80) fun path last v =>
        root.underHeader current fun entries => entries.define path last v
      lineEnd
      lines fuel current root

def read? (s : String) : Option Entries :=
  let cs := match s.toList with
    | '\ufeff' :: cs => cs
    | cs => cs
  (lines (cs.length + 1) [] []).readAll? cs

end Toml

end Arithmetization
