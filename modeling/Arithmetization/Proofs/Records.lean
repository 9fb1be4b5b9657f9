import Arithmetization.Proofs.Refusal

/-!
This module contains the records that the diagonal construction leaves. An attempt leaves the
records of its steps in order, up to the step that is refused. So the records of the construction
follow its outcome: there are none if the check refuses, and otherwise those of the code, of its
numeral and of the sentence, with a warning in place of the last two if the numeral is refused.
-/

namespace Arithmetization

namespace Attempt

variable {α β : Type} {a : Attempt α} {f : α → Attempt β} {rs rs' : List Record}

def records (a : Attempt α) : List Record :=
  a.run.records

/--
What an attempt comes to, together with the records it has left by then.
-/
structure Leaves (a : Attempt α) (rs : List Record) (r : Except Error α) : Prop where
  records_eq : a.records = rs
  result_eq : a.result = r

theorem leaves_pure (x : α) : Leaves (pure x) [] (.ok x) := ⟨rfl, rfl⟩

theorem leaves_throw (e : Error) : Leaves (throw e : Attempt α) [] (.error e) := ⟨rfl, rfl⟩

theorem leaves_liftM (a : Logged α) : Leaves (liftM a) a.records (.ok a.answer) :=
  ⟨List.append_nil a.records, rfl⟩

theorem leaves_liftExcept (r : Except Error α) : Leaves (liftExcept r) [] r := by
  cases r with
  | error e => exact leaves_throw e
  | ok x => exact leaves_pure x

theorem Leaves.bind {x : α} {r : Except Error β} (h : Leaves a rs (.ok x))
    (hf : Leaves (f x) rs' r) : Leaves (a >>= f) (rs ++ rs') r := by
  obtain ⟨answer, records⟩ := a
  obtain ⟨rfl, hresult⟩ := h
  obtain rfl : answer = .ok x := hresult
  obtain ⟨rfl, rfl⟩ := hf
  exact ⟨rfl, rfl⟩

theorem Leaves.bind_error {e : Error} (h : Leaves a rs (.error e)) :
    Leaves (a >>= f) rs (.error e) := by
  obtain ⟨answer, records⟩ := a
  obtain ⟨rfl, hresult⟩ := h
  obtain rfl : answer = .error e := hresult
  exact ⟨List.append_nil records, rfl⟩

theorem leaves_standardNumeral (n : Nat) :
    Leaves (standardNumeral n) [.standardNumeral n] (.ok (.chain n)) := ⟨rfl, rfl⟩

theorem leaves_compactNumeral (n : Nat) :
    Leaves (liftM (compactNumeral n)) [.compactNumeral (Term.compact n).size (bitLength n)]
      (.ok (.compact n)) := ⟨rfl, rfl⟩

theorem leaves_boundedNumeral_of_lt {n limit : Nat} (h : limit < n) :
    Leaves (boundedNumeral n limit) [.rejectedNumeral (Decimal.length n) limit]
      (.error (.numeralTooLarge n limit)) := by
  refine ⟨?_, result_boundedNumeral_of_lt h⟩
  simp only [boundedNumeral, h, if_true]
  rfl

end Attempt

namespace Diagonalizer

open Attempt

variable {d : Diagonalizer} {f : Formula} {v : Variable} {code : Nat} {c : Term}

def numeralRecord (d : Diagonalizer) (code : Nat) (c : Term) : Record :=
  match d.form with
  | .unary => .standardNumeral code
  | .compact => .compactNumeral c.size (bitLength code)

theorem level_numeralRecord (d : Diagonalizer) (code : Nat) (c : Term) :
    (d.numeralRecord code c).level = .debug := by
  unfold numeralRecord
  cases d.form with
  | unary => rfl
  | compact => rfl

theorem leaves_numeral_of_exceeds {limit : Nat} (h : d.Exceeds code limit) :
    (d.numeral code).Leaves [.rejectedNumeral (Decimal.length code) limit]
      (.error (.numeralTooLarge code limit)) := by
  obtain ⟨hform, hlimit, hlt⟩ := h
  rw [numeral, hform, hlimit]
  exact leaves_boundedNumeral_of_lt hlt

theorem leaves_numeral (h : ¬ ∃ limit, d.Exceeds code limit) :
    ∃ c, (d.numeral code).Leaves [d.numeralRecord code c] (.ok c) := by
  unfold numeral numeralRecord
  cases hform : d.form with
  | compact => exact ⟨_, leaves_compactNumeral code⟩
  | unary =>
    cases hlimit : d.limit with
    | none => exact ⟨_, leaves_standardNumeral code⟩
    | some limit =>
      have hle : code ≤ limit := Nat.le_of_not_lt fun hlt => h ⟨limit, hform, hlimit, hlt⟩
      refine ⟨.chain code, ?_⟩
      simp only [boundedNumeral_of_le hle]
      exact leaves_standardNumeral code

theorem leaves_check (h : check f v = .ok ()) :
    Leaves (liftExcept (check f v)) [] (.ok ()) := by
  rw [h]
  exact leaves_pure ()

theorem leaves_diagonalize_of_check_eq_error {e : Error} (h : check f v = .error e) :
    (d.diagonalize f v).Leaves [] (.error e) := by
  apply Leaves.bind_error
  rw [h]
  exact leaves_liftExcept _

def templateRecords (d : Diagonalizer) (f : Formula) : List Record :=
  [.assembled (d.table.digits f.word),
    .encoded f.word.length (d.table.digits f.word).length]

theorem leaves_encode (d : Diagonalizer) (f : Formula) :
    Leaves (liftM (d.table.encode f.word)) (d.templateRecords f)
      (.ok (d.table.number f.word)) := ⟨rfl, rfl⟩

theorem leaves_diagonalize_of_exceeds {limit : Nat} (hcheck : check f v = .ok ())
    (h : d.Exceeds (d.table.number f.word) limit) :
    (d.diagonalize f v).Leaves
      (d.templateRecords f ++ [.rejectedNumeral (Decimal.length (d.table.number f.word)) limit])
      (.error (.numeralTooLarge (d.table.number f.word) limit)) := by
  apply (leaves_check hcheck).bind
  apply (leaves_encode d f).bind
  exact (leaves_numeral_of_exceeds h).bind_error

theorem leaves_diagonalize (hcheck : check f v = .ok ())
    (h : ¬ ∃ limit, d.Exceeds (d.table.number f.word) limit) :
    ∃ c, (d.numeral (d.table.number f.word)).result = .ok c ∧
      (d.diagonalize f v).Leaves
        (d.templateRecords f ++ [d.numeralRecord (d.table.number f.word) c,
          .diagonalized v (Decimal.length (d.table.number f.word)) (f.subst v c).size])
        (.ok (f.subst v c)) := by
  obtain ⟨c, hc⟩ := leaves_numeral h
  refine ⟨c, hc.result_eq, ?_⟩
  apply (leaves_check hcheck).bind
  apply (leaves_encode d f).bind
  apply hc.bind
  apply (leaves_liftM _).bind
  exact leaves_pure _

theorem diagonalize_records (d : Diagonalizer) (f : Formula) (v : Variable) :
    (∀ e, check f v = .error e →
      (d.diagonalize f v).result = .error e ∧ (d.diagonalize f v).records = []) ∧
    (check f v = .ok () →
      ∃ code digits, d.table.number? f.word = some code ∧
        d.table.digits f.word = digits ∧ Decimal.length code = digits.length ∧
        ((∃ limit, d.Exceeds code limit ∧
            (d.diagonalize f v).result = .error (.numeralTooLarge code limit) ∧
            (d.diagonalize f v).records =
              [.assembled digits, .encoded f.word.length digits.length,
                .rejectedNumeral digits.length limit] ∧
            (d.diagonalize f v).records.map Record.level = [.trace, .debug, .warning]) ∨
          (¬ (∃ limit, d.Exceeds code limit) ∧
            ∃ c s, (d.numeral code).result = .ok c ∧ s = f.subst v c ∧
              (d.diagonalize f v).result = .ok s ∧
              (d.diagonalize f v).records =
                [.assembled digits, .encoded f.word.length digits.length,
                  d.numeralRecord code c, .diagonalized v digits.length s.size] ∧
              (d.diagonalize f v).records.map Record.level =
                [.trace, .debug, .debug, .debug]))) := by
  constructor
  . intro e he
    obtain ⟨hrecords, hresult⟩ := leaves_diagonalize_of_check_eq_error (d := d) he
    exact ⟨hresult, hrecords⟩
  . intro hcheck
    have hlength : Decimal.length (d.table.number f.word) = (d.table.digits f.word).length := by
      rw [Decimal.length, d.table.digits_number f.word_ne_nil, String.length_toList]
    refine ⟨_, _, d.table.number?_eq_some f.word_ne_nil, rfl, hlength, ?_⟩
    by_cases hexceeds : ∃ limit, d.Exceeds (d.table.number f.word) limit
    . left
      obtain ⟨limit, h⟩ := hexceeds
      obtain ⟨hrecords, hresult⟩ := leaves_diagonalize_of_exceeds hcheck h
      rw [hlength] at hrecords
      refine ⟨limit, h, hresult, hrecords, ?_⟩
      rw [hrecords]
      rfl
    . right
      obtain ⟨c, hc, hrecords, hresult⟩ := leaves_diagonalize hcheck hexceeds
      rw [hlength] at hrecords
      refine ⟨hexceeds, c, _, hc, rfl, hresult, hrecords, ?_⟩
      simp only [hrecords, List.map_append, List.map_cons, level_numeralRecord]
      rfl

theorem diagonalize_records_equal :
    check (.equal .zero .zero) .x = .error (.unsubstitutable .x .notFree) ∧
      (diagonalize {} (.equal .zero .zero) .x).records = [] ∧
      check (.equal (.var .x) .zero) .x = .ok () ∧
      (diagonalize {} (.equal (.var .x) .zero) .x).records =
        [.assembled "608040107", .encoded 5 9, .rejectedNumeral 9 10000] := by
  have hrefusal : check (.equal .zero .zero) .x = .error (.unsubstitutable .x .notFree) :=
    check_of_not_occursFree (by decide)
  have hcheck : check (.equal (.var .x) .zero) .x = .ok () := check_eq_ok_iff.2 (by decide)
  have hnumber : CodeTable.standard.number? (Formula.equal (.var .x) .zero).word =
      some 608040107 := by decide
  obtain ⟨hrefused, _⟩ := diagonalize_records {} (.equal .zero .zero) .x
  obtain ⟨_, hpassed⟩ := diagonalize_records {} (.equal (.var .x) .zero) .x
  obtain ⟨code, digits, hcode, rfl, _, hrecords⟩ := hpassed hcheck
  obtain rfl : code = 608040107 := Option.some.inj (hcode.symm.trans hnumber)
  refine ⟨hrefusal, (hrefused _ hrefusal).2, hcheck, ?_⟩
  obtain ⟨limit, ⟨_, hlimit, _⟩, _, hwarned, _⟩ | ⟨hbuilt, _⟩ := hrecords
  . obtain rfl : 10000 = limit := Option.some.inj hlimit
    exact hwarned
  . exact absurd ⟨10000, rfl, rfl, by decide⟩ hbuilt

end Diagonalizer

end Arithmetization
