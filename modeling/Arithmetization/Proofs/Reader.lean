import Arithmetization.Language.Expression
import Arithmetization.Proofs.Words

/-!
This module contains a reader of printed expressions. It goes over the characters once and skips
white space. What it has begun and not finished waits in frames, the innermost first; a frame has a
strength, and an operator finishes all frames in front of it that are as strong as itself.
-/

namespace Arithmetization

open Layout

namespace Print

inductive Operator where
  | add
  | mul
  | equal
  | less
  | and
  | or

namespace Operator

def sign : Operator → Char
  | .add => '+'
  | .mul => '×'
  | .equal => '='
  | .less => '<'
  | .and => '∧'
  | .or => '∨'

def strength : Operator → Nat
  | .add => 4
  | .mul => 5
  | .equal => 3
  | .less => 3
  | .and => 2
  | .or => 2

def join : Operator → Expression → Expression → Expression
  | .add, .term l, .term r => .term (.add l r)
  | .mul, .term l, .term r => .term (.mul l r)
  | .equal, .term l, .term r => .formula (.equal l r)
  | .less, .term l, .term r => .formula (.less l r)
  | .and, .formula l, .formula r => .formula (.and l r)
  | .or, .formula l, .formula r => .formula (.or l r)
  | _, _, r => r

end Operator

inductive Quantifier where
  | all
  | ex

namespace Quantifier

def sign : Quantifier → Char
  | .all => '∀'
  | .ex => '∃'

def bind : Quantifier → Variable → Formula → Formula
  | .all => .all
  | .ex => .ex

end Quantifier

inductive Frame where
  | paren
  | pair (p : Expression)
  | quantifier (q : Quantifier)
  | binder (q : Quantifier) (v : Variable)
  | not
  | left (operator : Operator) (l : Expression)
  | succ

namespace Frame

def strength : Frame → Nat
  | .paren => 0
  | .pair _ => 0
  | .quantifier _ => 7
  | .binder _ _ => 1
  | .not => 3
  | .left operator _ => operator.strength
  | .succ => 6

def finish : Frame → Expression → Expression
  | .pair (.term p), .term f => .formula (.proof p f)
  | .binder q v, .formula f => .formula (q.bind v f)
  | .not, .formula f => .formula (.not f)
  | .left operator l, r => operator.join l r
  | .succ, .term t => .term (.succ t)
  | _, e => e

end Frame

def settle (k : Nat) : Expression → List Frame → Expression × List Frame
  | e, [] => (e, [])
  | e, frame :: frames =>
    if k ≤ frame.strength then settle k (frame.finish e) frames else (e, frame :: frames)

structure Reader where
  operand : Option Expression
  frames : List Frame

namespace Reader

def start (frames : List Frame) : Reader := ⟨none, frames⟩

def push (r : Reader) (frame : Frame) : Reader := ⟨none, frame :: r.frames⟩

def shift (r : Reader) (k : Nat) (next : Expression × List Frame → Reader) : Reader :=
  match r.operand with
  | none => r
  | some e => next (settle k e r.frames)

def operator (r : Reader) (operator : Operator) : Reader :=
  r.shift operator.strength fun (e, frames) => start (.left operator e :: frames)

def comma (r : Reader) : Reader :=
  r.shift 1 fun (e, frames) => start (.pair e :: frames.tail)

def close (r : Reader) : Reader :=
  r.shift 1 fun
    | (e, []) => ⟨some e, []⟩
    | (e, frame :: frames) => ⟨some (frame.finish e), frames⟩

def letter : Reader → Reader
  | ⟨_, .quantifier q :: frames⟩ => start (.binder q .x :: frames)
  | ⟨_, frames⟩ => ⟨some (.term (.var .x)), frames⟩

def star : Reader → Reader
  | ⟨none, .binder q v :: frames⟩ => start (.binder q v.next :: frames)
  | ⟨some (.term (.var v)), frames⟩ => ⟨some (.term (.var v.next)), frames⟩
  | r => r

def step (r : Reader) (c : Char) : Reader :=
  if isBlank c then
    r
  else
    match c with
    | '0' => ⟨some (.term .zero), r.frames⟩
    | 'x' => r.letter
    | '*' => r.star
    | 'S' => r.push .succ
    | '(' => r.push .paren
    | ')' => r.close
    | ',' => r.comma
    | '+' => r.operator .add
    | '×' => r.operator .mul
    | '=' => r.operator .equal
    | '<' => r.operator .less
    | '∧' => r.operator .and
    | '∨' => r.operator .or
    | '¬' => r.push .not
    | '∀' => r.push (.quantifier .all)
    | '∃' => r.push (.quantifier .ex)
    | _ => r

def run (r : Reader) (cs : List Char) : Reader :=
  cs.foldl step r

theorem run_append (r : Reader) (cs ds : List Char) : r.run (cs ++ ds) = (r.run cs).run ds :=
  List.foldl_append

theorem run_cons (r : Reader) (c : Char) (cs : List Char) :
    r.run (c :: cs) = (r.step c).run cs := by
  rw [run, List.foldl_cons]
  rfl

theorem step_of_isBlank {c : Char} (h : isBlank c = true) (r : Reader) : r.step c = r :=
  if_pos h

theorem run_filter (r : Reader) (cs : List Char) :
    r.run (cs.filter fun c => !isBlank c) = r.run cs := by
  induction cs generalizing r with
  | nil => rfl
  | cons c cs ih =>
    by_cases hc : isBlank c = true
    . rw [List.filter_cons_of_neg (by simp [hc]), ih, run_cons, step_of_isBlank hc]
    . rw [List.filter_cons_of_pos (by simp [hc]), run_cons, run_cons, ih]

end Reader

def read? (cs : List Char) : Option Expression :=
  let r := (Reader.start []).run cs
  r.operand.map fun e => (settle 1 e r.frames).1

theorem read?_filter (cs : List Char) : read? (cs.filter fun c => !isBlank c) = read? cs := by
  rw [read?, Reader.run_filter]
  rfl

example : read? "∀x* ¬Proof(x*, S(x) × 0)".toList =
    some (.formula (.all ⟨1⟩ (.not (.proof (.var ⟨1⟩) (.mul (.succ (.var ⟨0⟩)) .zero))))) := by
  rfl

end Print

end Arithmetization
