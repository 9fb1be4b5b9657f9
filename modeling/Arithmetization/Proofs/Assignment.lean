import Arithmetization.Code.Assignment
import Arithmetization.Proofs.Validation
import Mathlib.Data.List.Nodup

/-!
This module contains the theory of assignments to symbols. An assignment makes a table exactly if it
lists every symbol once and its codes are faultless. In which order it lists them only decides which
one of several repeated symbols is reported.
-/

namespace Arithmetization

theorem Symbol.find?_alphabet_eq_some_iff {p : Symbol → Bool} {s : Symbol} :
    alphabet.find? p = some s ↔ p s = true ∧ ∀ t, t.index < s.index → p t = false := by
  rw [List.find?_eq_findSome?_guard, findSome?_alphabet_eq_some_iff]
  constructor
  . rintro ⟨u, hu, hearlier⟩
    obtain ⟨rfl, hp⟩ := Option.guard_eq_some_iff.1 hu
    exact ⟨hp, fun t ht => by simpa using hearlier t ht⟩
  . rintro ⟨hp, hearlier⟩
    exact ⟨s, Option.guard_eq_some_iff.2 ⟨rfl, hp⟩, fun t ht => by simp [hearlier t ht]⟩

namespace CodeTable

variable {pairs pairs' : List (Symbol × UInt32)} {code : Symbol → UInt32} {separator : UInt8}
  {s : Symbol} {t : CodeTable}

def FirstMissing (pairs : List (Symbol × UInt32)) (s : Symbol) : Prop :=
  (¬ ∃ c, (s, c) ∈ pairs) ∧ ∀ t, t.index < s.index → ∃ c, (t, c) ∈ pairs

theorem exists_of_firstRepeated?_eq_some {seen ss : List Symbol}
    (h : firstRepeated? seen ss = some s) :
    ∃ before after, ss = before ++ s :: after ∧ before.Nodup ∧ (∀ t ∈ before, ¬ t ∈ seen) ∧
      (s ∈ seen ∨ s ∈ before) := by
  induction ss generalizing seen with
  | nil => contradiction
  | cons u ss ih =>
    rw [firstRepeated?] at h
    split at h
    next hu =>
      obtain rfl := Option.some.inj h
      exact ⟨[], ss, rfl, List.nodup_nil, by simp, .inl hu⟩
    next hu =>
      obtain ⟨before, after, rfl, hnodup, hseen, hs⟩ := ih h
      refine ⟨u :: before, after, rfl, ?_, ?_, ?_⟩
      . rw [List.nodup_cons]
        exact ⟨fun hmem => hseen u hmem (List.mem_cons_self ..), hnodup⟩
      . rw [List.forall_mem_cons]
        exact ⟨hu, fun t ht htseen => hseen t ht (List.mem_cons_of_mem _ htseen)⟩
      . rw [List.mem_cons] at hs ⊢
        tauto

def Repeats (pairs : List (Symbol × UInt32)) (s : Symbol) : Prop :=
  1 < (pairs.map Prod.fst).count s

theorem exists_repeated_of_not_nodup (h : ¬ (pairs.map Prod.fst).Nodup) (separator : UInt8) :
    ∃ before s after, pairs.map Prod.fst = before ++ s :: after ∧ before.Nodup ∧ s ∈ before ∧
      ofPairs pairs separator = .error (.duplicateSymbol s) := by
  cases hrepeated : firstRepeated? [] (pairs.map Prod.fst) with
  | none => exact absurd (firstRepeated?_eq_none_iff.1 hrepeated).1 h
  | some s =>
    obtain ⟨before, after, hsplit, hnodup, _, hs⟩ := exists_of_firstRepeated?_eq_some hrepeated
    have hmem : s ∈ before := by simpa using hs
    exact ⟨before, s, after, hsplit, hnodup, hmem, by rw [ofPairs, hrepeated]⟩

theorem repeats_of_split {before after : List Symbol}
    (h : pairs.map Prod.fst = before ++ s :: after) (hs : s ∈ before) : Repeats pairs s := by
  have hpos := List.count_pos_iff.2 hs
  rw [Repeats, h, List.count_append, List.count_cons_self]
  omega

theorem lookup_isNone_eq_true_iff : (pairs.lookup s).isNone = true ↔ ¬ ∃ c, (s, c) ∈ pairs := by
  rw [Option.isNone_iff_eq_none, List.lookup_eq_none_iff]
  simp only [bne_iff_ne, Prod.forall]
  constructor
  . rintro h ⟨c, hc⟩
    exact h s c hc rfl
  . rintro h t c hc rfl
    exact h ⟨c, hc⟩

theorem find?_lookup_eq_some_iff :
    (Symbol.alphabet.find? fun s => (pairs.lookup s).isNone) = some s ↔ FirstMissing pairs s := by
  rw [Symbol.find?_alphabet_eq_some_iff, FirstMissing, lookup_isNone_eq_true_iff]
  simp only [← Bool.not_eq_true, lookup_isNone_eq_true_iff, not_not]

theorem firstMissing_or_complete (pairs : List (Symbol × UInt32)) :
    (∃ s, FirstMissing pairs s) ∨ ∃ code : Symbol → UInt32, ∀ s, (s, code s) ∈ pairs := by
  cases hfind : Symbol.alphabet.find? fun s => (pairs.lookup s).isNone with
  | some s => exact .inl ⟨s, find?_lookup_eq_some_iff.1 hfind⟩
  | none =>
    have hall (s : Symbol) : ∃ c, (s, c) ∈ pairs := by
      have hs := List.find?_eq_none.1 hfind s (Symbol.mem_alphabet s)
      rwa [lookup_isNone_eq_true_iff, not_not] at hs
    choose code hcode using hall
    exact .inr ⟨code, hcode⟩

theorem lookup_eq_some_of_mem (hnodup : (pairs.map Prod.fst).Nodup) {c : UInt32}
    (h : (s, c) ∈ pairs) : pairs.lookup s = some c := by
  cases hlookup : pairs.lookup s with
  | none =>
    rw [← Option.isNone_iff_eq_none, lookup_isNone_eq_true_iff] at hlookup
    exact absurd ⟨c, h⟩ hlookup
  | some d =>
    obtain ⟨before, after, hsplit, _⟩ := List.lookup_eq_some_iff.1 hlookup
    have hmem : (s, d) ∈ pairs := by simp [hsplit]
    have heq := List.inj_on_of_nodup_map hnodup hmem h rfl
    rw [(Prod.mk.inj heq).2]

theorem ofPairs_of_firstMissing (hnodup : (pairs.map Prod.fst).Nodup) (h : FirstMissing pairs s) :
    ofPairs pairs separator = .error (.missingSymbol s) := by
  have honce : firstRepeated? [] (pairs.map Prod.fst) = none := by
    simpa [firstRepeated?_eq_none_iff] using hnodup
  rw [ofPairs, honce]
  dsimp only
  rw [find?_lookup_eq_some_iff.2 h]

theorem ofPairs_of_complete (hnodup : (pairs.map Prod.fst).Nodup)
    (h : ∀ s, (s, code s) ∈ pairs) : ofPairs pairs separator = ofCodes code separator := by
  have honce : firstRepeated? [] (pairs.map Prod.fst) = none := by
    simpa [firstRepeated?_eq_none_iff] using hnodup
  have hlookup (s : Symbol) : pairs.lookup s = some (code s) := lookup_eq_some_of_mem hnodup (h s)
  have hfind : (Symbol.alphabet.find? fun s => (pairs.lookup s).isNone) = none := by
    simp [hlookup]
  rw [ofPairs, honce]
  dsimp only
  rw [hfind]
  simp [hlookup]

theorem ofPairs_eq_ok_iff :
    ofPairs pairs separator = .ok t ↔
      (pairs.map Prod.fst).Nodup ∧ (∀ s, (s, t.code s) ∈ pairs) ∧
        ofCodes t.code separator = .ok t := by
  constructor
  . intro h
    have hnodup : (pairs.map Prod.fst).Nodup := by
      by_contra hnodup
      obtain ⟨_, _, _, _, _, _, herror⟩ := exists_repeated_of_not_nodup hnodup separator
      rw [herror] at h
      contradiction
    obtain ⟨s, hs⟩ | ⟨code, hcode⟩ := firstMissing_or_complete pairs
    . rw [ofPairs_of_firstMissing hnodup hs] at h
      contradiction
    . rw [ofPairs_of_complete hnodup hcode] at h
      obtain ⟨_, rfl, _⟩ := ofCodes_eq_ok_iff.1 h
      exact ⟨hnodup, hcode, h⟩
  . rintro ⟨hnodup, hcode, h⟩
    rw [ofPairs_of_complete hnodup hcode, h]

theorem count_eq_one_iff :
    (∀ s, (pairs.map Prod.fst).count s = 1) ↔
      (pairs.map Prod.fst).Nodup ∧ ∀ s, ∃ c, (s, c) ∈ pairs := by
  have hmem (s : Symbol) : (∃ c, (s, c) ∈ pairs) ↔ 0 < (pairs.map Prod.fst).count s := by
    simp [List.count_pos_iff]
  simp only [List.nodup_iff_count_le_one, hmem]
  constructor
  . intro h
    exact ⟨fun s => Nat.le_of_eq (h s), fun s => h s ▸ Nat.one_pos⟩
  . rintro ⟨hle, hpos⟩ s
    exact Nat.le_antisymm (hle s) (hpos s)

theorem ofPairs_perm (h : pairs.Perm pairs') (separator : UInt8) :
    ofPairs pairs separator = ofPairs pairs' separator ∨
      ∃ s s', Repeats pairs s ∧ Repeats pairs s' ∧
        ofPairs pairs separator = .error (.duplicateSymbol s) ∧
        ofPairs pairs' separator = .error (.duplicateSymbol s') := by
  have hkeys : (pairs.map Prod.fst).Perm (pairs'.map Prod.fst) := h.map _
  by_cases hnodup : (pairs.map Prod.fst).Nodup
  . have hnodup' := hkeys.nodup_iff.1 hnodup
    left
    obtain ⟨s, hs⟩ | ⟨code, hcode⟩ := firstMissing_or_complete pairs
    . have hs' : FirstMissing pairs' s := by
        simpa only [FirstMissing, h.mem_iff] using hs
      rw [ofPairs_of_firstMissing hnodup hs, ofPairs_of_firstMissing hnodup' hs']
    . have hcode' (s : Symbol) : (s, code s) ∈ pairs' := h.mem_iff.1 (hcode s)
      rw [ofPairs_of_complete hnodup hcode, ofPairs_of_complete hnodup' hcode']
  . have hnodup' := mt hkeys.nodup_iff.2 hnodup
    right
    obtain ⟨_, s, _, hsplit, _, hmem, hs⟩ := exists_repeated_of_not_nodup hnodup separator
    obtain ⟨_, s', _, hsplit', _, hmem', hs'⟩ := exists_repeated_of_not_nodup hnodup' separator
    refine ⟨s, s', repeats_of_split hsplit hmem, ?_, hs, hs'⟩
    rw [Repeats, hkeys.count_eq]
    exact repeats_of_split hsplit' hmem'

theorem ofPairs_eq_ok_of_perm (h : pairs.Perm pairs') (hok : ofPairs pairs separator = .ok t) :
    ofPairs pairs' separator = .ok t := by
  obtain heq | ⟨s, _, _, _, herror, _⟩ := ofPairs_perm h separator
  . rw [← heq, hok]
  . rw [hok] at herror
    contradiction

theorem ofPairs_toPairs (t : CodeTable) : ofPairs t.toPairs t.separator = .ok t := by
  rw [ofPairs_eq_ok_iff]
  refine ⟨?_, ?_, ?_⟩
  . have hkeys : t.toPairs.map Prod.fst = Symbol.alphabet := by
      simp [toPairs, Function.comp_def]
    rw [hkeys]
    exact Symbol.alphabet_nodup
  . intro s
    exact List.mem_map_of_mem (Symbol.mem_alphabet s)
  . exact ofCodes_eq_ok_iff.2 ⟨t.valid, rfl, rfl⟩

theorem ofPairs_exact :
    (∀ pairs separator t, ofPairs pairs separator = .ok t ↔
        (∀ s, (pairs.map Prod.fst).count s = 1) ∧
          ∃ code : Symbol → UInt32, (∀ s, (s, code s) ∈ pairs) ∧
            ofCodes code separator = .ok t) ∧
      (∀ pairs separator t, ofPairs pairs separator = .ok t →
        (∀ s c, (s, c) ∈ pairs → t.code s = c) ∧ t.separator = separator ∧
          t.isFaultless = true) ∧
      (∀ pairs pairs' separator, pairs.Perm pairs' →
        ofPairs pairs separator = ofPairs pairs' separator ∨
          ∃ s s', Repeats pairs s ∧ Repeats pairs s' ∧
            ofPairs pairs separator = .error (.duplicateSymbol s) ∧
            ofPairs pairs' separator = .error (.duplicateSymbol s')) ∧
      ∀ t : CodeTable, ofPairs t.toPairs t.separator = .ok t := by
  refine ⟨?_, ?_, fun _ _ separator h => ofPairs_perm h separator, ofPairs_toPairs⟩
  . intro pairs separator t
    rw [count_eq_one_iff]
    constructor
    . intro h
      obtain ⟨hnodup, hcode, hcodes⟩ := ofPairs_eq_ok_iff.1 h
      exact ⟨⟨hnodup, fun s => ⟨t.code s, hcode s⟩⟩, t.code, hcode, hcodes⟩
    . rintro ⟨⟨hnodup, _⟩, code, hcode, hcodes⟩
      rw [ofPairs_of_complete hnodup hcode, hcodes]
  . intro pairs separator t h
    obtain ⟨hnodup, hcode, hcodes⟩ := ofPairs_eq_ok_iff.1 h
    refine ⟨?_, (ofCodes_eq_ok_iff.1 hcodes).2.2, t.isFaultless_eq_true⟩
    intro s c hc
    have heq := List.inj_on_of_nodup_map hnodup hc (hcode s) rfl
    exact (Prod.mk.inj heq).2.symm

theorem ofPairs_exact_repeated :
    ofPairs standard.toPairs.reverse 0 = .ok standard ∧ standard.code .proof = 17 ∧
      [(Symbol.all, 11), (.ex, 12), (.ex, 1), (.all, 2)].Perm
        [(Symbol.ex, (12 : UInt32)), (.all, 11), (.all, 2), (.ex, 1)] ∧
      ∃ s s', ofPairs [(.all, 11), (.ex, 12), (.ex, 1), (.all, 2)] 0 =
          .error (.duplicateSymbol s) ∧
        ofPairs [(.ex, 12), (.all, 11), (.all, 2), (.ex, 1)] 0 = .error (.duplicateSymbol s') ∧
        s = .ex ∧ s' = .all := by
  obtain ⟨haccepts, hcode, hperm, _⟩ := ofPairs_exact
  have hok : ofPairs standard.toPairs.reverse 0 = .ok standard :=
    (haccepts _ 0 standard).2 ⟨by decide, standard.code, by decide,
      ofCodes_eq_ok_iff.2 ⟨standard.valid, rfl, rfl⟩⟩
  have horder : [(Symbol.all, 11), (.ex, 12), (.ex, 1), (.all, 2)].Perm
      [(Symbol.ex, (12 : UInt32)), (.all, 11), (.all, 2), (.ex, 1)] := by decide
  refine ⟨hok, (hcode _ _ _ hok).1 .proof 17 (by decide), horder, ?_⟩
  obtain h | ⟨s, s', _, _, hs, hs'⟩ := hperm _ _ 0 horder
  . contradiction
  . refine ⟨s, s', hs, hs', ?_, ?_⟩
    . cases hs
      rfl
    . cases hs'
      rfl

end CodeTable

end Arithmetization
