import Arithmetization.Code.Source
import Arithmetization.Diagonal
import Arithmetization.Peano
import Arithmetization.Print.Expression

/-!
This module contains the demonstration program, which numbers the axioms and the template of the
Gödel sentence, and prints the sentence itself if it can be built. The program is a function from
its options, the text of its table document and the use of color to what it writes.
-/

namespace Arithmetization

namespace Demo

structure Options where
  table : Option String := none
  unary : Bool := false
  limit : Option Nat := none
  width : Option Nat := none
deriving DecidableEq

namespace Options

def lineWidth (o : Options) : Nat :=
  o.width.getD Expression.defaultWidth

def number? (s : String) : Option Nat :=
  Decimal.readBelow? UInt64.size s.toList

def set? (o : Options) (letter : Char) (value : String) : Option Options :=
  match letter with
  | 't' => if o.table.isNone then some { o with table := some value } else none
  | 'l' => do
    let n ← number? value
    if o.limit.isNone then some { o with limit := some n } else none
  | 'w' => do
    let n ← number? value
    if o.width.isNone then some { o with width := some n } else none
  | _ => none

def setUnary? (o : Options) : Option Options :=
  if o.unary then none else some { o with unary := true }

def letter? : String → Option Char
  | "table" => some 't'
  | "limit" => some 'l'
  | "width" => some 'w'
  | _ => none

def valueArgument? : List String → Option (String × List String)
  | [] => none
  | value :: rest =>
    match value.toList with
    | '-' :: _ :: _ => none
    | _ => some (value, rest)

def setNext? (o : Options) (letter : Char) (arguments : List String) :
    Option (Options × List String) := do
  let (value, rest) ← valueArgument? arguments
  return (← o.set? letter value, rest)

/--
Read the letters after a hyphen. Letters that follow that of an option with a value are its value,
without an equality sign at their head.
-/
def letters? (o : Options) (rest : List String) : List Char → Option (Options × List String)
  | [] => some (o, rest)
  | 'u' :: letters => do letters? (← o.setUnary?) rest letters
  | [letter] => o.setNext? letter rest
  | letter :: '=' :: value => do return (← o.set? letter (String.ofList value), rest)
  | letter :: value => do return (← o.set? letter (String.ofList value), rest)

def argument? (o : Options) (rest : List String) : List Char → Option (Options × List String)
  | '-' :: '-' :: name =>
    match name.splitOn '=' with
    | [] => none
    | [name] =>
      if String.ofList name = "unary" then do
        return (← o.setUnary?, rest)
      else do
        o.setNext? (← letter? (String.ofList name)) rest
    | name :: value => do
      let letter ← letter? (String.ofList name)
      return (← o.set? letter (String.ofList (['='].intercalate value)), rest)
  | ['-'] => none
  | '-' :: letters => o.letters? rest letters
  | _ => none

def read? (o : Options) : (fuel : Nat) → List String → Option Options
  | 0, _ => none
  | _, [] => some o
  | fuel + 1, argument :: rest =>
    if argument = "--" then
      -- This ends the options, and nothing else is expected.
      if rest.isEmpty then some o else none
    else do
      let (o, rest) ← o.argument? rest argument.toList
      read? o fuel rest

def ofArguments? (arguments : List String) : Option Options :=
  read? {} (arguments.length + 1) arguments

end Options

structure Outcome where
  status : UInt8 := 0
  stdout : String := ""
  stderr : String := ""
deriving DecidableEq

def usage : Outcome :=
  { status := 2
    stderr := "Usage: [-t|--table PATH] [-u|--unary] [-l|--limit N] [-w|--width N]\n" }

def titleLook : Ansi.Appearance := { color := some .green, intense := true }

def failureLook : Ansi.Appearance := { color := some .red, intense := true }

def painted (color : Bool) (look : Ansi.Appearance) (s : String) : String :=
  if color then Ansi.paint look s else s

def formulaLines (width : Nat) (color : Bool) (f : Formula) : String :=
  (if color then Expression.printColored (.formula f) width
    else Expression.print (.formula f) width) ++ "\n"

def numbered (table : CodeTable) (width : Nat) (color : Bool) (f : Formula) : String :=
  formulaLines width color f ++ s!"  ⌜·⌝ = {Decimal.text (table.number f.word)}\n"

def diagonalizer (options : Options) (table : CodeTable) : Diagonalizer :=
  let d : Diagonalizer := { table, form := if options.unary then .unary else .compact }
  match options.limit with
  | none => d
  | some limit => { d with limit := some limit }

def preamble (width : Nat) (color : Bool) (table : CodeTable) : String :=
  painted color titleLook "Axioms:\n" ++
    String.join (Peano.axioms.map (numbered table width color)) ++
    painted color titleLook "Template:\n" ++
    numbered table width color (unprovability .x Variable.x.next)

def sentenceLines (options : Options) (color : Bool) (table : CodeTable) : String :=
  match (diagonalizer options table).goedelSentence.run.answer with
  | .ok sentence =>
    painted color titleLook s!"Gödel sentence ({sentence.size} nodes):\n" ++
      formulaLines options.lineWidth color sentence
  | .error e => painted color failureLook s!"Diagonalization failed: {e.message}\n"

def report (options : Options) (color : Bool) (table : CodeTable) : String :=
  preamble options.lineWidth color table ++ sentenceLines options color table

def source : Option String → CodeTable.Source
  | none => .standard
  | some text => .document text

def run (options : Options) (document : Option String) (color : Bool) : Outcome :=
  match (source document).table with
  | .ok table => { stdout := report options color table }
  | .error e => { status := 1, stderr := s!"Invalid code table: {e.message}\n" }

/--
Run the program on its arguments. The text of a table document comes from `read`, and `color` says
whether color is used.
-/
def invoke {m : Type → Type} [Monad m] (read : String → m String) (color : m Bool)
    (arguments : List String) : m Outcome :=
  match Options.ofArguments? arguments with
  | none => pure usage
  | some options => do
    let document ← options.table.mapM read
    return run options document (← color)

end Demo

end Arithmetization
