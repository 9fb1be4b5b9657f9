import Arithmetization.Proofs.Decimal

/-!
This module contains the cutting of texts that joining has not written. A part of such a text may
have a sign and zeros in front that do not count. Joining what was cut writes the parts without them
and keeps all else, so cutting and joining are inverse to each other up to this.
-/

namespace Arithmetization

namespace Decimal

def unsigned : List Char → List Char
  | '+' :: ds => ds
  | ds => ds

def withoutZeros : List Char → List Char
  | '0' :: c :: ds => withoutZeros (c :: ds)
  | ds => ds

/--
A text whose parts are as joining writes them: one sign in front of a part is left out, and then the
zeros that are superfluous.
-/
def plain (s : String) (separator : UInt8) : String :=
  String.ofList <| List.intercalate [separatorChar separator] <|
    (s.toList.splitOn (separatorChar separator)).map fun part => withoutZeros (unsigned part)

theorem eq_zero_or_head?_ne {ds : List Char} (h : ∀ c rest, ds ≠ '0' :: c :: rest) :
    ds = ['0'] ∨ ds.head? ≠ some '0' := by
  by_cases hhead : ds.head? = some '0'
  . obtain ⟨rest, rfl⟩ := List.head?_eq_some_iff.1 hhead
    cases rest with
    | nil => exact .inl rfl
    | cons c rest => exact absurd rfl (h c rest)
  . exact .inr hhead

theorem digits_value_eq_withoutZeros {ds : List Char} (h : isDigits ds = true) :
    digits (value ds) = withoutZeros ds := by
  fun_induction withoutZeros ds with
  | case1 c ds ih =>
    have hvalue : value ('0' :: c :: ds) = value (c :: ds) := by
      rw [value_eq_ofDigitChars, Nat.ofDigitChars_cons, value_eq_ofDigitChars]
      rfl
    rw [hvalue]
    apply ih
    simpa [isDigits] using h
  | case2 ds hzeros =>
    obtain rfl | hhead := eq_zero_or_head?_ne hzeros
    . rfl
    . exact digits_value h hhead

theorem isDigits_withoutZeros (ds : List Char) : isDigits (withoutZeros ds) = isDigits ds := by
  fun_induction withoutZeros ds with
  | case1 c ds ih =>
    rw [ih]
    rfl
  | case2 => rfl

theorem withoutZeros_eq_digits_iff {ds : List Char} {n : Nat} :
    withoutZeros ds = digits n ↔ isDigits ds = true ∧ value ds = n := by
  constructor
  . intro h
    have hdigits : isDigits ds = true := by
      rw [← isDigits_withoutZeros, h]
      exact isDigits_digits n
    refine ⟨hdigits, ?_⟩
    rw [← value_digits (value ds), digits_value_eq_withoutZeros hdigits, h, value_digits]
  . rintro ⟨hdigits, rfl⟩
    exact (digits_value_eq_withoutZeros hdigits).symm

theorem readBelow?_eq_some_iff {bound n : Nat} {part : List Char} :
    readBelow? bound part = some n ↔ withoutZeros (unsigned part) = digits n ∧ n < bound := by
  have hread : readBelow? bound part =
      if isDigits (unsigned part) ∧ value (unsigned part) < bound then
        some (value (unsigned part))
      else
        none := rfl
  rw [hread, Option.ite_none_right_eq_some, Option.some.injEq, withoutZeros_eq_digits_iff]
  constructor
  . rintro ⟨⟨hdigits, hlt⟩, rfl⟩
    exact ⟨⟨hdigits, rfl⟩, hlt⟩
  . rintro ⟨⟨hdigits, rfl⟩, hlt⟩
    exact ⟨⟨hdigits, hlt⟩, rfl⟩

theorem digits_code_of_read {part : List Char} {code : UInt32}
    (h : (readBelow? UInt32.size part).map UInt32.ofNat = some code) :
    digits code.toNat = withoutZeros (unsigned part) := by
  rw [Option.map_eq_some_iff] at h
  obtain ⟨n, hn, rfl⟩ := h
  obtain ⟨hpart, hlt⟩ := readBelow?_eq_some_iff.1 hn
  rw [UInt32.toNat_ofNat_of_lt' hlt, hpart]

variable {s : String} {codes : List UInt32} {separator : UInt8}

theorem map_digits_of_split?_eq_some (h : split? s separator = some codes) :
    codes.map (fun c => digits c.toNat) =
      (s.toList.splitOn (separatorChar separator)).map fun part => withoutZeros (unsigned part) :=
  map_eq_map_of_mapM_eq_some (fun _ _ => digits_code_of_read) h

theorem join_of_split?_eq_some (h : split? s separator = some codes) :
    join codes separator = plain s separator := by
  rw [join, joinDigits, map_digits_of_split?_eq_some h, plain]

theorem ne_nil_of_split?_eq_some (h : split? s separator = some codes) : codes ≠ [] := by
  have hlength := congrArg List.length (map_digits_of_split?_eq_some h)
  rw [List.length_map, List.length_map] at hlength
  rintro rfl
  have hparts := List.splitOn_ne_nil (separatorChar separator) s.toList
  exact hparts (List.length_eq_zero_iff.1 hlength.symm)

theorem mem_and_ne_of_mem_splitOn {c x : Char} {cs part : List Char} (hpart : part ∈ cs.splitOn x)
    (hc : c ∈ part) : c ∈ cs ∧ c ≠ x := by
  induction cs generalizing part with
  | nil =>
    rw [List.splitOn_nil, List.mem_singleton] at hpart
    rw [hpart] at hc
    contradiction
  | cons d cs ih =>
    have hrest {part : List Char} (hpart : part ∈ cs.splitOn x) (hc : c ∈ part) :
        c ∈ d :: cs ∧ c ≠ x := by
      obtain ⟨hmem, hne⟩ := ih hpart hc
      exact ⟨List.mem_cons_of_mem d hmem, hne⟩
    rw [List.splitOn_cons_eq_if_modifyHead] at hpart
    split at hpart
    next =>
      obtain rfl | hpart := List.mem_cons.1 hpart
      . contradiction
      . exact hrest hpart hc
    next hne =>
      -- The character in front belongs to the first part, and the other parts are as before.
      obtain ⟨first, others, hparts⟩ := List.exists_cons_of_ne_nil (List.splitOn_ne_nil x cs)
      rw [hparts] at hpart hrest
      obtain rfl | hpart := List.mem_cons.1 hpart
      . obtain rfl | hc := List.mem_cons.1 hc
        . exact ⟨List.mem_cons_self .., by simpa using hne⟩
        . exact hrest (List.mem_cons_self ..) hc
      . exact hrest (List.mem_cons_of_mem _ hpart) hc

theorem withoutZeros_of_not_mem {ds : List Char} (h : ¬ '0' ∈ ds) : withoutZeros ds = ds := by
  unfold withoutZeros
  split
  . simp at h
  . rfl

theorem unsigned_of_not_mem {part : List Char} (h : ¬ '+' ∈ part) : unsigned part = part := by
  unfold unsigned
  split
  . simp at h
  . rfl

theorem plain_zero (hs : ∀ c ∈ s.toList, c.isDigit = true) : plain s 0 = s := by
  have hpart : ∀ part ∈ s.toList.splitOn (separatorChar 0),
      withoutZeros (unsigned part) = part := by
    intro part hpart
    have hsign : ¬ '+' ∈ part := by
      intro h
      have hdigit := hs _ (mem_and_ne_of_mem_splitOn hpart h).1
      contradiction
    have hzero : ¬ '0' ∈ part := by
      intro h
      exact (mem_and_ne_of_mem_splitOn hpart h).2 rfl
    rw [unsigned_of_not_mem hsign, withoutZeros_of_not_mem hzero]
  rw [plain, List.map_congr_left hpart, List.map_id', List.intercalate_splitOn,
    String.ofList_toList]

def Separable (codes : List UInt32) (separator : UInt8) : Prop :=
  codes ≠ [] ∧ ∀ c ∈ codes, ¬ separatorChar separator ∈ digits c.toNat

theorem split?_join_inverse :
    (∀ codes separator, Separable codes separator →
      split? (join codes separator) separator = some codes ∧
        ∀ codes', Separable codes' separator →
          join codes' separator = join codes separator → codes' = codes) ∧
      (∀ s codes separator, split? s separator = some codes →
        codes ≠ [] ∧ join codes separator = plain s separator) ∧
      ∀ s codes, (∀ c ∈ s.toList, c.isDigit = true) → split? s 0 = some codes →
        join codes 0 = s := by
  refine ⟨?_, ?_, ?_⟩
  . intro codes separator h
    have hcodes := split?_join h.1 h.2
    refine ⟨hcodes, ?_⟩
    intro codes' h' hjoin
    have hcodes' := split?_join h'.1 h'.2
    rw [hjoin, hcodes, Option.some.injEq] at hcodes'
    exact hcodes'.symm
  . intro s codes separator h
    exact ⟨ne_nil_of_split?_eq_some h, join_of_split?_eq_some h⟩
  . intro s codes hs h
    rw [join_of_split?_eq_some h, plain_zero hs]

theorem split?_join_inverse_leading_zeros :
    Separable [7, 0, 12] 5 ∧ split? (join [7, 0, 12] 5) 5 = some [7, 0, 12] ∧
      split? "+00750512" 5 = some [7, 0, 12] ∧ join [7, 0, 12] 5 = plain "+00750512" 5 ∧
      plain "+00750512" 5 = "750512" ∧
      split? "601040107" 0 = some [6, 1, 4, 1, 7] ∧ join [6, 1, 4, 1, 7] 0 = "601040107" := by
  obtain ⟨hsplit, hjoin, hzero⟩ := split?_join_inverse
  have hcodes : Separable [7, 0, 12] 5 := by
    refine ⟨by decide, ?_⟩
    rw [List.forall_mem_cons, List.forall_mem_cons, List.forall_mem_singleton]
    decide
  have hdigits : ∀ c ∈ "601040107".toList, c.isDigit = true := List.all_eq_true.1 rfl
  exact ⟨hcodes, (hsplit _ _ hcodes).1, rfl, (hjoin _ _ _ rfl).2, rfl, rfl,
    hzero _ _ hdigits rfl⟩

end Decimal

end Arithmetization
