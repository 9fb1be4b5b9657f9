import Arithmetization.Toml.Reader

/-!
This module contains the strings of TOML documents. Double quotes enclose text with escapes, single
quotes enclose text that is taken as it stands; three quotes in a row enclose several lines. Up to
two quotes more may precede the three that end such a string.
-/

namespace Arithmetization

namespace Toml

def escape? : Char → Option Char
  | 'b' => some '\x08'
  | 't' => some '\t'
  | 'n' => some '\n'
  | 'f' => some '\x0c'
  | 'r' => some '\r'
  | 'e' => some '\x1b'
  | '"' => some '"'
  | '\\' => some '\\'
  | _ => none

def hexValue? (c : Char) : Option Nat :=
  if c.isDigit then
    some (c.toNat - '0'.toNat)
  else if 'a' ≤ c ∧ c ≤ 'f' then
    some (c.toNat - 'a'.toNat + 10)
  else if 'A' ≤ c ∧ c ≤ 'F' then
    some (c.toNat - 'A'.toNat + 10)
  else
    none

def codePoint? (ds : List Char) : Option Char := do
  let values ← ds.mapM hexValue?
  let n := values.foldl (fun n d => 16 * n + d) 0
  if n.isValidChar then some (Char.ofNat n) else none

def escapedLine : List Char → (content : List Char) → Option (String × List Char)
  | '"' :: rest, content => some (String.ofList content.reverse, rest)
  | '\\' :: 'x' :: a :: b :: rest, content =>
    match codePoint? [a, b] with
    | some p => escapedLine rest (p :: content)
    | none => none
  | '\\' :: 'u' :: a :: b :: c :: d :: rest, content =>
    match codePoint? [a, b, c, d] with
    | some p => escapedLine rest (p :: content)
    | none => none
  | '\\' :: 'U' :: a :: b :: c :: d :: e :: f :: g :: h :: rest, content =>
    match codePoint? [a, b, c, d, e, f, g, h] with
    | some p => escapedLine rest (p :: content)
    | none => none
  | '\\' :: c :: rest, content =>
    match escape? c with
    | some p => escapedLine rest (p :: content)
    | none => none
  | c :: rest, content => if isPlain c then escapedLine rest (c :: content) else none
  | [], _ => none

inductive LineJoin where
  | none
  | pending
  | skipping
deriving DecidableEq

def escapedLines : List Char → LineJoin → (content : List Char) → Option (String × List Char)
  | '\n' :: rest, .pending, content => escapedLines rest .skipping content
  | '\r' :: '\n' :: rest, .pending, content => escapedLines rest .skipping content
  | c :: rest, .pending, content =>
    if isBlank c then escapedLines rest .pending content else Option.none
  | '\n' :: rest, .skipping, content => escapedLines rest .skipping content
  | '\n' :: rest, .none, content => escapedLines rest .none ('\n' :: content)
  | '\r' :: '\n' :: rest, .skipping, content => escapedLines rest .skipping content
  | '\r' :: '\n' :: rest, .none, content => escapedLines rest .none ('\n' :: content)
  | '"' :: '"' :: '"' :: '"' :: '"' :: rest, _, content =>
    some (String.ofList ('"' :: '"' :: content).reverse, rest)
  | '"' :: '"' :: '"' :: '"' :: rest, _, content =>
    some (String.ofList ('"' :: content).reverse, rest)
  | '"' :: '"' :: '"' :: rest, _, content => some (String.ofList content.reverse, rest)
  | '\\' :: 'x' :: a :: b :: rest, _, content =>
    match codePoint? [a, b] with
    | some p => escapedLines rest .none (p :: content)
    | Option.none => Option.none
  | '\\' :: 'u' :: a :: b :: c :: d :: rest, _, content =>
    match codePoint? [a, b, c, d] with
    | some p => escapedLines rest .none (p :: content)
    | Option.none => Option.none
  | '\\' :: 'U' :: a :: b :: c :: d :: e :: f :: g :: h :: rest, _, content =>
    match codePoint? [a, b, c, d, e, f, g, h] with
    | some p => escapedLines rest .none (p :: content)
    | Option.none => Option.none
  | '\\' :: '\n' :: rest, _, content => escapedLines rest .skipping content
  | '\\' :: '\r' :: '\n' :: rest, _, content => escapedLines rest .skipping content
  | '\\' :: c :: rest, _, content =>
    match escape? c with
    | some p => escapedLines rest .none (p :: content)
    | Option.none => if isBlank c then escapedLines rest .pending content else Option.none
  | c :: rest, join, content =>
    if join = .skipping ∧ isBlank c then
      escapedLines rest .skipping content
    else if isPlain c then
      escapedLines rest .none (c :: content)
    else
      Option.none
  | [], _, _ => Option.none

def literalLine : List Char → (content : List Char) → Option (String × List Char)
  | '\'' :: rest, content => some (String.ofList content.reverse, rest)
  | c :: rest, content => if isPlain c then literalLine rest (c :: content) else none
  | [], _ => none

def literalLines : List Char → (content : List Char) → Option (String × List Char)
  | '\n' :: rest, content => literalLines rest ('\n' :: content)
  | '\r' :: '\n' :: rest, content => literalLines rest ('\n' :: content)
  | '\'' :: '\'' :: '\'' :: '\'' :: '\'' :: rest, content =>
    some (String.ofList ('\'' :: '\'' :: content).reverse, rest)
  | '\'' :: '\'' :: '\'' :: '\'' :: rest, content =>
    some (String.ofList ('\'' :: content).reverse, rest)
  | '\'' :: '\'' :: '\'' :: rest, content => some (String.ofList content.reverse, rest)
  | c :: rest, content => if isPlain c then literalLines rest (c :: content) else none
  | [], _ => none

def afterFirstLineEnd : List Char → List Char
  | '\n' :: rest => rest
  | '\r' :: '\n' :: rest => rest
  | cs => cs

def quotedLine : Reader String :=
  Reader.take? fun
    | '"' :: rest => escapedLine rest []
    | '\'' :: rest => literalLine rest []
    | _ => none

def quoted : Reader String :=
  Reader.take? fun
    | '"' :: '"' :: '"' :: rest => escapedLines (afterFirstLineEnd rest) .none []
    | '"' :: rest => escapedLine rest []
    | '\'' :: '\'' :: '\'' :: rest => literalLines (afterFirstLineEnd rest) []
    | '\'' :: rest => literalLine rest []
    | _ => none

end Toml

end Arithmetization
