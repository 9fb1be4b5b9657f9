/-!
This module contains readers. A reader takes what it reads from the front of a text, or fails.
-/

namespace Arithmetization

namespace Toml

abbrev Reader := StateT (List Char) Option

namespace Reader

def peek? : Reader (Option Char) := do
  return (← get).head?

def takeWhile (p : Char → Bool) : Reader (List Char) := do
  let cs ← get
  set (cs.dropWhile p)
  return cs.takeWhile p

def accept (s : String) : Reader Bool := do
  let cs ← get
  if s.toList.isPrefixOf cs then
    set (cs.drop s.length)
    return true
  else
    return false

def expect (s : String) : Reader Unit := do
  if ← accept s then
    return
  failure

def take? {α : Type} (f : List Char → Option (α × List Char)) : Reader α := f

def readAll? {α : Type} (r : Reader α) (cs : List Char) : Option α :=
  match r cs with
  | some (a, []) => some a
  | _ => none

end Reader

def isBlank (c : Char) : Bool := c = ' ' ∨ c = '\t'

def isPlain (c : Char) : Bool := c = '\t' ∨ (' ' ≤ c ∧ c ≠ '\x7f')

def blanks : Reader Unit := do
  let _ ← Reader.takeWhile isBlank

def filler : Reader Unit :=
  Reader.take? fun cs => (go false cs).map ((), ·)
where
  go (inComment : Bool) : List Char → Option (List Char)
    | [] => some []
    | '\n' :: rest => go false rest
    | '\r' :: '\n' :: rest => go false rest
    | c :: rest =>
      if inComment then
        if isPlain c then go true rest else none
      else if isBlank c then
        go false rest
      else if c = '#' then
        go true rest
      else
        some (c :: rest)

def lineEnd : Reader Unit := do
  blanks
  if ← Reader.accept "#" then
    let _ ← Reader.takeWhile isPlain
  if (← Reader.accept "\n") || (← Reader.accept "\r\n") then
    return
  if (← Reader.peek?).isSome then
    failure

end Toml

end Arithmetization
