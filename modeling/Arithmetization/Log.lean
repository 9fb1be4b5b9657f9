import Arithmetization.Error

/-!
This module contains the records that computations leave behind, and answers that come with such
records. A computation is a value: its records are listed beside its answer, the oldest first.
-/

namespace Arithmetization

inductive Level where
  | trace
  | debug
  | warning
deriving DecidableEq

inductive Record where
  | assembled (digits : String)
  | encoded (symbols digits : Nat)
  | standardNumeral (value : Nat)
  | rejectedNumeral (digits limit : Nat)
  | compactNumeral (nodes bits : Nat)
  | diagonalized (v : Variable) (digits nodes : Nat)
deriving DecidableEq

namespace Record

def level : Record → Level
  | .assembled _ => .trace
  | .encoded _ _ => .debug
  | .standardNumeral _ => .debug
  | .rejectedNumeral _ _ => .warning
  | .compactNumeral _ _ => .debug
  | .diagonalized _ _ _ => .debug

def message : Record → String
  | .assembled digits => s!"Assembled digit string {digits}"
  | .encoded symbols digits =>
    s!"Encoded {symbols} symbols into a Gödel number of {digits} digits"
  | .standardNumeral value => s!"Built the standard numeral of {value}"
  | .rejectedNumeral digits limit => s!"Rejected numeral of {digits} digits (limit {limit})"
  | .compactNumeral nodes bits =>
    s!"Built a compact numeral of {nodes} nodes for a {bits}-bit number"
  | .diagonalized v digits nodes =>
    s!"Diagonalized at {v.name}: template code has {digits} digits, sentence has {nodes} nodes"

end Record

structure Logged (α : Type) where
  answer : α
  records : List Record

namespace Logged

instance : Monad Logged where
  pure a := ⟨a, []⟩
  bind a f := ⟨(f a.answer).answer, a.records ++ (f a.answer).records⟩

def emit (r : Record) : Logged Unit := ⟨(), [r]⟩

@[simp]
theorem answer_pure {α : Type} (a : α) : (pure a : Logged α).answer = a := rfl

@[simp]
theorem records_pure {α : Type} (a : α) : (pure a : Logged α).records = [] := rfl

@[simp]
theorem answer_bind {α β : Type} (a : Logged α) (f : α → Logged β) :
    (a >>= f).answer = (f a.answer).answer := rfl

@[simp]
theorem records_bind {α β : Type} (a : Logged α) (f : α → Logged β) :
    (a >>= f).records = a.records ++ (f a.answer).records := rfl

@[simp]
theorem answer_emit (r : Record) : (emit r).answer = () := rfl

@[simp]
theorem records_emit (r : Record) : (emit r).records = [r] := rfl

end Logged

/--
A computation that leaves records and may be refused. The records of a refused computation are
those left before the refusal.
-/
abbrev Attempt := ExceptT Error Logged

namespace Attempt

variable {α β : Type}

def result (a : Attempt α) : Except Error α :=
  a.run.answer

@[simp]
theorem result_pure (a : α) : result (pure a) = pure a := rfl

@[simp]
theorem result_throw (e : Error) : result (throw e : Attempt α) = throw e := rfl

@[simp]
theorem result_liftM (a : Logged α) : result (liftM a) = pure a.answer := rfl

@[simp]
theorem result_liftExcept (a : Except Error α) : result (liftExcept a) = a := by
  cases a <;> rfl

@[simp]
theorem result_bind (a : Attempt α) (f : α → Attempt β) :
    result (a >>= f) = a.result >>= fun x => (f x).result := by
  obtain ⟨answer, records⟩ := a
  cases answer <;> rfl

end Attempt

end Arithmetization
