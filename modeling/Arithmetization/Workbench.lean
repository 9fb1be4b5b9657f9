import Arithmetization.Code.Source
import Arithmetization.Diagonal
import Arithmetization.Peano
import Arithmetization.Print.Expression

/-!
This module contains a workbench, on which expressions are put together one command at a time. It
has a stack of expressions and the settings of the diagonal construction. A command that is refused
leaves both as they are.
-/

namespace Arithmetization

structure Workbench where
  stack : List Expression := []
  diagonalizer : Diagonalizer := {}

namespace Workbench

inductive Command where
  | push (e : Expression)
  | duplicate
  | swap
  | drop
  | succ
  | add
  | mul
  | equal
  | less
  | proof
  | not
  | and
  | or
  | implies
  | all (v : Variable)
  | ex (v : Variable)
  | subst (v : Variable)
  | standardNumeral (value : Int)
  | compactNumeral (value : Nat)
  | unprovability (x y : Variable)
  | peano (i : Nat)
  | setTable (source : CodeTable.Source)
  | setForm (form : NumeralForm)
  | setLimit (limit : Option Nat)
  | diagonalize (v : Variable)
  | goedelSentence
  | quote
  | number
  | value
  | display
  | quantification

inductive Reply where
  | number (n : Nat)
  | value (n? : Option Nat)
  | text (s : String)
  | table (t : CodeTable)
  | quantification (free bound : VariableSet)

inductive Refusal where
  | error (e : Error)
  | inapplicable

abbrev Result := ExceptT Refusal Logged (Workbench × Option Reply)

def inapplicable : Result := throw .inapplicable

def withStack (w : Workbench) (stack : List Expression) : Result :=
  return ({ w with stack }, none)

def pushAttempt (w : Workbench) (rest : List Expression) (attempt : Attempt Expression) :
    Result := do
  let built ← ExceptT.lift attempt.run
  match built with
  | .ok e => w.withStack (e :: rest)
  | .error e => throw (.error e)

def reply (w : Workbench) (r : Reply) : Result :=
  return (w, some r)

def joinTerms (w : Workbench) (f : Term → Term → Expression) : Result :=
  match w.stack with
  | .term r :: .term l :: rest => w.withStack (f l r :: rest)
  | _ => inapplicable

def joinFormulas (w : Workbench) (f : Formula → Formula → Formula) : Result :=
  match w.stack with
  | .formula r :: .formula l :: rest => w.withStack (.formula (f l r) :: rest)
  | _ => inapplicable

def wrapFormula (w : Workbench) (f : Formula → Formula) : Result :=
  match w.stack with
  | .formula g :: rest => w.withStack (.formula (f g) :: rest)
  | _ => inapplicable

def step (w : Workbench) : Command → Result
  | .push e => w.withStack (e :: w.stack)
  | .duplicate =>
    match w.stack with
    | e :: rest => w.withStack (e :: e :: rest)
    | [] => inapplicable
  | .swap =>
    match w.stack with
    | d :: e :: rest => w.withStack (e :: d :: rest)
    | _ => inapplicable
  | .drop =>
    match w.stack with
    | _ :: rest => w.withStack rest
    | [] => inapplicable
  | .succ =>
    match w.stack with
    | .term t :: rest => w.withStack (.term (.succ t) :: rest)
    | _ => inapplicable
  | .add => w.joinTerms fun l r => .term (.add l r)
  | .mul => w.joinTerms fun l r => .term (.mul l r)
  | .equal => w.joinTerms fun l r => .formula (.equal l r)
  | .less => w.joinTerms fun l r => .formula (.less l r)
  | .proof => w.joinTerms fun p f => .formula (.proof p f)
  | .not => w.wrapFormula .not
  | .and => w.joinFormulas .and
  | .or => w.joinFormulas .or
  | .implies => w.joinFormulas .implies
  | .all v => w.wrapFormula (.all v)
  | .ex v => w.wrapFormula (.ex v)
  | .subst v =>
    match w.stack with
    | .term r :: e :: rest => w.withStack (e.subst v r :: rest)
    | _ => inapplicable
  | .standardNumeral value =>
    w.pushAttempt w.stack (.term <$> Arithmetization.standardNumeral value)
  | .compactNumeral value => w.pushAttempt w.stack (.term <$> Arithmetization.compactNumeral value)
  | .unprovability x y => w.withStack (.formula (Arithmetization.unprovability x y) :: w.stack)
  | .peano i =>
    match Peano.axioms[i]? with
    | some f => w.withStack (.formula f :: w.stack)
    | none => inapplicable
  | .setTable source =>
    match source.table with
    | .ok table =>
      return ({ w with diagonalizer := { w.diagonalizer with table } }, some (.table table))
    | .error e => throw (.error e)
  | .setForm form => return ({ w with diagonalizer := { w.diagonalizer with form } }, none)
  | .setLimit limit =>
    return ({ w with diagonalizer := { w.diagonalizer with limit } }, limit.map .number)
  | .diagonalize v =>
    match w.stack with
    | .formula f :: rest => w.pushAttempt rest (.formula <$> w.diagonalizer.diagonalize f v)
    | _ => inapplicable
  | .goedelSentence => w.pushAttempt w.stack (.formula <$> w.diagonalizer.goedelSentence)
  | .quote =>
    match w.stack with
    | e :: rest => do
      let code ← w.diagonalizer.table.encode e.word
      w.pushAttempt rest (.term <$> w.diagonalizer.numeral code)
    | [] => inapplicable
  | .number =>
    match w.stack with
    | e :: _ => do
      let code ← w.diagonalizer.table.encode e.word
      w.reply (.number code)
    | [] => inapplicable
  | .value =>
    match w.stack with
    | .term t :: _ => w.reply (.value t.value?)
    | _ => inapplicable
  | .display =>
    match w.stack with
    | e :: _ => w.reply (.text e.display)
    | [] => inapplicable
  | .quantification =>
    match w.stack with
    | .formula f :: _ => w.reply (.quantification f.freeVariables f.boundVariables)
    | _ => inapplicable

structure Row where
  depth : Nat
  top : Option Expression
  outcome : Except Refusal (Option Reply)

def run (w : Workbench) : List Command → Logged (List Row)
  | [] => return []
  | c :: rest => do
    let result ← (w.step c).run
    let next := match result with
      | .ok (next, _) => next
      | .error _ => w
    let rows ← next.run rest
    return ⟨next.stack.length, next.stack.head?, result.map Prod.snd⟩ :: rows

end Workbench

end Arithmetization
