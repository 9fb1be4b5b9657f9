import Arithmetization.Demo

/-!
This module contains the command line of the demonstration program. Color is used unless the
environment asks for none or names a terminal without it.
-/

open Arithmetization

def allowsColor : IO Bool := do
  if (← IO.getEnv "NO_COLOR").isSome then
    return false
  match ← IO.getEnv "TERM" with
  | none => return false
  | some terminal => return terminal ≠ "dumb"

def main (arguments : List String) : IO UInt32 := do
  let outcome ← Demo.invoke (fun path => IO.FS.readFile path) allowsColor arguments
  IO.print outcome.stdout
  IO.eprint outcome.stderr
  return outcome.status.toUInt32
