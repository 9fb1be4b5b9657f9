import Arithmetization.Language.VariableSet

/-!
This module contains the terms of the language of arithmetic: zero, variables, successors, sums and
products. A term without variables is closed and denotes a natural number, its value.
-/

namespace Arithmetization

inductive Term where
  | zero
  | var (v : Variable)
  | succ (t : Term)
  | add (l r : Term)
  | mul (l r : Term)
deriving DecidableEq, Ord

namespace Term

def size : Term → Nat
  | .zero => 1
  | .var _ => 1
  | .succ t => 1 + t.size
  | .add l r => 1 + l.size + r.size
  | .mul l r => 1 + l.size + r.size

theorem size_pos (t : Term) : 0 < t.size := by
  cases t <;> simp only [size] <;> omega

def occurs (t : Term) (v : Variable) : Bool :=
  match t with
  | .zero => false
  | .var w => w = v
  | .succ t => t.occurs v
  | .add l r => l.occurs v || r.occurs v
  | .mul l r => l.occurs v || r.occurs v

def collect : Term → (out : VariableSet) → VariableSet
  | .zero, out => out
  | .var v, out => out.insert v
  | .succ t, out => t.collect out
  | .add l r, out => r.collect (l.collect out)
  | .mul l r, out => r.collect (l.collect out)

theorem mem_collect {v : Variable} (t : Term) (out : VariableSet) :
    v ∈ t.collect out ↔ t.occurs v = true ∨ v ∈ out := by
  induction t generalizing out with
  | zero => simp [collect, occurs]
  | var w => simp [collect, occurs, eq_comm]
  | succ t ih => exact ih out
  | add l r ihl ihr =>
    rw [collect, ihr, ihl, occurs, Bool.or_eq_true, or_left_comm, or_assoc]
  | mul l r ihl ihr =>
    rw [collect, ihr, ihl, occurs, Bool.or_eq_true, or_left_comm, or_assoc]

def variableSet (t : Term) : VariableSet :=
  t.collect ∅

@[simp]
theorem mem_variableSet {v : Variable} {t : Term} : v ∈ t.variableSet ↔ t.occurs v = true := by
  simp [variableSet, mem_collect]

def isClosed : Term → Bool
  | .zero => true
  | .var _ => false
  | .succ t => t.isClosed
  | .add l r => l.isClosed && r.isClosed
  | .mul l r => l.isClosed && r.isClosed

def subst (t : Term) (v : Variable) (r : Term) : Term :=
  match t with
  | .zero => .zero
  | .var w => if w = v then r else .var w
  | .succ t => .succ (t.subst v r)
  | .add l m => .add (l.subst v r) (m.subst v r)
  | .mul l m => .mul (l.subst v r) (m.subst v r)

def value? : Term → Option Nat
  | .zero => some 0
  | .var _ => none
  | .succ t => do
    let n ← t.value?
    return n + 1
  | .add l r => do
    let m ← l.value?
    let n ← r.value?
    return m + n
  | .mul l r => do
    let m ← l.value?
    let n ← r.value?
    return m * n

def chainLength? (t : Term) : Option Nat :=
  go t 0
where
  go : Term → Nat → Option Nat
    | .zero, n => some n
    | .succ t, n => go t (n + 1)
    | .var _, _ => none
    | .add _ _, _ => none
    | .mul _ _, _ => none

end Term

end Arithmetization
