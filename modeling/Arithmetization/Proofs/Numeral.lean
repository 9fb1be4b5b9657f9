import Arithmetization.Numeral
import Arithmetization.Code.Word
import Mathlib.Data.Nat.Bits

/-!
This module contains the theory of numerals. Standard numerals are exactly the chains of successors
over zero, and a chain is determined by its length. Compact numerals are built from the highest
binary digit of a number, but what they satisfy is shown by induction from its lowest digit. They
are closed, denote the number, and have a size that is read off its digits.
-/

namespace Arithmetization

namespace Term

theorem isClosed_chain (n : Nat) : (chain n).isClosed = true := by
  induction n with
  | zero => rfl
  | succ n ih => simpa [isClosed] using ih

theorem size_chain (n : Nat) : (chain n).size = n + 1 := by
  induction n with
  | zero => rfl
  | succ n ih => rw [chain_succ, size, ih, Nat.add_comm]

theorem spell_chain (n : Nat) (rest : Word) :
    (chain n).spell rest =
      (List.replicate n [Symbol.succ, .leftParen]).flatten ++
        .zero :: (List.replicate n .rightParen ++ rest) := by
  induction n generalizing rest with
  | zero => rfl
  | succ n ih =>
    rw [chain_succ, spell, ih, List.append_cons (List.replicate n _), ← List.replicate_succ']
    rfl

theorem word_chain (n : Nat) :
    (chain n).word =
      (List.replicate n [Symbol.succ, .leftParen]).flatten ++
        .zero :: List.replicate n .rightParen := by
  rw [word, spell_chain, List.append_nil]

theorem chainLength?_go_eq_some_iff {t : Term} {k n : Nat} :
    chainLength?.go t k = some n ↔ ∃ m, t = chain m ∧ n = k + m := by
  induction t generalizing k with
  | zero =>
    rw [chainLength?.go, Option.some.injEq]
    constructor
    . rintro rfl
      exact ⟨0, rfl, rfl⟩
    . rintro ⟨m, hm, rfl⟩
      cases m with
      | zero => rfl
      | succ m => contradiction
  | succ t ih =>
    rw [chainLength?.go, ih]
    constructor
    . rintro ⟨m, rfl, rfl⟩
      exact ⟨m + 1, rfl, Nat.add_right_comm k 1 m⟩
    . rintro ⟨m, hm, rfl⟩
      cases m with
      | zero => contradiction
      | succ m =>
        rw [chain_succ, Term.succ.injEq] at hm
        exact ⟨m, hm, (Nat.add_right_comm k 1 m).symm⟩
  | var v | add l r | mul l r =>
    simp only [chainLength?.go, reduceCtorEq, false_iff]
    rintro ⟨m, hm, _⟩
    cases m with
    | zero => contradiction
    | succ m => contradiction

theorem chainLength?_eq_some_iff {t : Term} {n : Nat} :
    t.chainLength? = some n ↔ t = chain n := by
  rw [chainLength?, chainLength?_go_eq_some_iff]
  simp

theorem horner_bit (m k : Nat) (digit : Bool) (t? : Option Term) :
    horner (Nat.bit digit m) (k + 1) t? = some (hornerStep (horner m k t?) digit) := by
  induction k generalizing t? with
  | zero => rw [horner, horner, horner, Nat.testBit_bit_zero]
  | succ k ih => rw [horner, ih, Nat.testBit_succ, Nat.bit_div_two, horner]

theorem exists_horner_some (n k : Nat) (t : Term) : ∃ u, horner n k (some t) = some u := by
  induction k generalizing t with
  | zero => exact ⟨t, rfl⟩
  | succ k ih => apply ih

theorem horner_bitLength {m : Nat} (hm : m ≠ 0) :
    horner m (bitLength m) none = some (compact m) := by
  have hlength : bitLength m = m.log2 + 1 := if_neg hm
  obtain ⟨u, hu⟩ := exists_horner_some m m.log2 (hornerStep none (m.testBit m.log2))
  rw [compact, hlength, horner, hu]
  rfl

theorem bitLength_bit {m : Nat} (hm : m ≠ 0) (digit : Bool) :
    bitLength (Nat.bit digit m) = bitLength m + 1 := by
  have hbit : Nat.bit digit m ≠ 0 := by simp [hm]
  have hhalf : Nat.bit digit m >>> 1 = m := Nat.bit_shiftRight_one digit m
  rw [bitLength, bitLength, if_neg hbit, if_neg hm, Nat.log2_eq_succ_log2_shiftRight, hhalf]
  rw [hhalf]
  exact hm

theorem compact_bit {m : Nat} (hm : m ≠ 0) (digit : Bool) :
    compact (Nat.bit digit m) = hornerStep (some (compact m)) digit := by
  rw [compact, bitLength_bit hm, horner_bit, horner_bitLength hm]
  rfl

theorem compact_induction {P : Nat → Term → Prop} (zero : P 0 .zero) (one : P 1 (.succ .zero))
    (step : ∀ digit m t, m ≠ 0 → P m t → P (Nat.bit digit m) (hornerStep (some t) digit))
    (n : Nat) : P n (compact n) := by
  induction n using Nat.binaryRecFromOne with
  | zero => exact zero
  | one => exact one
  | bit digit m hm ih =>
    rw [compact_bit hm]
    exact step digit m _ hm ih

theorem value?_hornerStep {t : Term} {m : Nat} (h : t.value? = some m) (digit : Bool) :
    (hornerStep (some t) digit).value? = some (Nat.bit digit m) := by
  cases digit <;> simp [hornerStep, twice, value?, h]

theorem value?_compact (n : Nat) : (compact n).value? = some n := by
  apply compact_induction (P := fun n t => t.value? = some n) rfl rfl
  intro digit m t _ ih
  exact value?_hornerStep ih digit

theorem isClosed_hornerStep {t : Term} (h : t.isClosed = true) (digit : Bool) :
    (hornerStep (some t) digit).isClosed = true := by
  cases digit <;> simp [hornerStep, twice, isClosed, h]

theorem isClosed_compact (n : Nat) : (compact n).isClosed = true := by
  apply compact_induction (P := fun _ t => t.isClosed = true) rfl rfl
  intro digit m t _ ih
  exact isClosed_hornerStep ih digit

theorem compact_two_mul {m : Nat} (hm : m ≠ 0) : compact (2 * m) = (compact m).twice :=
  compact_bit hm false

theorem compact_two_mul_add_one {m : Nat} (hm : m ≠ 0) :
    compact (2 * m + 1) = .succ (compact m).twice :=
  compact_bit hm true

theorem size_hornerStep (t : Term) (digit : Bool) :
    (hornerStep (some t) digit).size = t.size + 4 + digit.toNat := by
  cases digit <;> simp [hornerStep, twice, size] <;> omega

theorem size_compact {n : Nat} (hn : n ≠ 0) :
    (compact n).size + 3 = 4 * bitLength n + n.bits.count true := by
  revert hn
  apply compact_induction
    (P := fun n t => n ≠ 0 → t.size + 3 = 4 * bitLength n + n.bits.count true)
  . intro h
    contradiction
  . intro _
    -- The first digit is not added to a double, and lacks the three nodes of that.
    rw [Nat.one_bits]
    rfl
  . intro digit m t hm ih _
    have hbits : (Nat.bit digit m).bits = digit :: m.bits :=
      Nat.bits_append_bit m digit fun h => absurd h hm
    specialize ih hm
    rw [size_hornerStep, bitLength_bit hm, hbits, List.count_cons]
    cases digit <;> simp <;> omega

end Term

theorem compactNumeral_correct :
    (compactNumeral 0).answer = .zero ∧
      (compactNumeral 1).answer = .succ .zero ∧
      (∀ m, 1 ≤ m →
        (compactNumeral (2 * m)).answer =
            .mul (.succ (.succ .zero)) (compactNumeral m).answer ∧
          (compactNumeral (2 * m + 1)).answer =
            .succ (.mul (.succ (.succ .zero)) (compactNumeral m).answer)) ∧
      ∀ n, (compactNumeral n).answer.isClosed = true ∧
        (compactNumeral n).answer.value? = some n ∧
        (compactNumeral n).answer.size =
          if n = 0 then 1 else 4 * bitLength n + n.bits.count true - 3 := by
  refine ⟨rfl, rfl, ?_, ?_⟩
  . intro m hm
    have hne : m ≠ 0 := Nat.ne_of_gt hm
    exact ⟨Term.compact_two_mul hne, Term.compact_two_mul_add_one hne⟩
  . intro n
    refine ⟨Term.isClosed_compact n, Term.value?_compact n, ?_⟩
    split
    case isTrue h =>
      rw [h]
      rfl
    case isFalse h => exact Nat.eq_sub_of_add_eq (Term.size_compact h)

theorem compactNumeral_correct_six :
    1 ≤ 3 ∧
      (compactNumeral 6).answer = .mul (.succ (.succ .zero)) (compactNumeral 3).answer ∧
      (compactNumeral 6).answer.value? = some 6 ∧
      (compactNumeral 6).answer.size = 11 := by
  obtain ⟨_, _, hrule, hspec⟩ := compactNumeral_correct
  refine ⟨by decide, (hrule 3 (by decide)).1, (hspec 6).2.1, ?_⟩
  rw [(hspec 6).2.2]
  decide

theorem result_standardNumeral_of_neg {value : Int} (h : value < 0) :
    (standardNumeral value).result = .error (.negativeNumeral value) := by
  cases value with
  | ofNat n => contradiction
  | negSucc n => rfl

theorem result_boundedNumeral_of_neg {value : Int} (h : value < 0) (limit : Nat) :
    (boundedNumeral value limit).result = .error (.negativeNumeral value) := by
  cases value with
  | ofNat n => contradiction
  | negSucc n => rfl

theorem boundedNumeral_of_le {n limit : Nat} (h : n ≤ limit) :
    boundedNumeral n limit = standardNumeral n := by
  have hnot : ¬ limit < n := Nat.not_lt.2 h
  simp [boundedNumeral, standardNumeral, hnot]

theorem result_boundedNumeral_of_lt {n limit : Nat} (h : limit < n) :
    (boundedNumeral n limit).result = .error (.numeralTooLarge n limit) := by
  simp [boundedNumeral, h]
  rfl

theorem standardNumeral_exact :
    (∀ n : Nat, ∃ t, (standardNumeral n).result = .ok t ∧
      t.chainLength? = some n ∧
      t.value? = some n ∧
      t.size = n + 1 ∧
      t.word = (List.replicate n [Symbol.succ, .leftParen]).flatten ++
        .zero :: List.replicate n .rightParen) ∧
      (∀ (t : Term) (n : Nat), t.chainLength? = some n → (standardNumeral n).result = .ok t) ∧
      (∀ n limit : Nat, (n ≤ limit → boundedNumeral n limit = standardNumeral n) ∧
        (¬ n ≤ limit → (boundedNumeral n limit).result = .error (.numeralTooLarge n limit))) ∧
      ∀ value : Int, value < 0 →
        (standardNumeral value).result = .error (.negativeNumeral value) ∧
          ∀ limit, (boundedNumeral value limit).result = .error (.negativeNumeral value) := by
  refine ⟨?_, ?_, ?_, ?_⟩
  . intro n
    exact ⟨Term.chain n, result_standardNumeral n, Term.chainLength?_eq_some_iff.2 rfl,
      Term.value?_chain n, Term.size_chain n, Term.word_chain n⟩
  . intro t n h
    rw [Term.chainLength?_eq_some_iff.1 h, result_standardNumeral]
  . intro n limit
    refine ⟨boundedNumeral_of_le, ?_⟩
    intro h
    exact result_boundedNumeral_of_lt (Nat.not_le.1 h)
  . intro value h
    exact ⟨result_standardNumeral_of_neg h, result_boundedNumeral_of_neg h⟩

theorem standardNumeral_exact_two :
    (Term.succ (.succ .zero)).chainLength? = some 2 ∧
      (standardNumeral 2).result = .ok (.succ (.succ .zero)) ∧
      2 ≤ 5 ∧ boundedNumeral 2 5 = standardNumeral 2 ∧
      ¬ 2 ≤ 1 ∧ (boundedNumeral 2 1).result = .error (.numeralTooLarge 2 1) ∧
      (-3 : Int) < 0 ∧ (standardNumeral (-3)).result = .error (.negativeNumeral (-3)) := by
  obtain ⟨_, hchain, hbounded, hnegative⟩ := standardNumeral_exact
  refine ⟨rfl, hchain _ 2 rfl, by decide, (hbounded 2 5).1 (by decide), by decide,
    (hbounded 2 1).2 (by decide), by decide, (hnegative (-3) (by decide)).1⟩

end Arithmetization
