import Arithmetization.Demo
import Arithmetization.Proofs.Cutting
import Mathlib.Data.List.Basic
import Mathlib.Data.List.Nodup

/-!
This module contains the arguments that give options to the demonstration program. Each setting of
the options is written once, in one of its spellings, and the order does not matter. The main
statement, `ofArguments?_eq_some_iff`, says that the program reads these arguments and no others.
-/

namespace Arithmetization

namespace Demo

inductive Setting where
  | unary
  | table (path : String)
  | limit (n : Nat)
  | width (n : Nat)

namespace Setting

def letter : Setting → Char
  | .unary => 'u'
  | .table _ => 't'
  | .limit _ => 'l'
  | .width _ => 'w'

def name : Setting → String
  | .unary => "unary"
  | .table _ => "table"
  | .limit _ => "limit"
  | .width _ => "width"

/--
Whether a text is the value of a setting. A number may have one sign in front, and zeros.
-/
def HasValue (value : String) : Setting → Prop
  | .unary => False
  | .table path => value = path
  | .limit n | .width n =>
    Decimal.withoutZeros (Decimal.unsigned value.toList) = n.repr.toList ∧ n < UInt64.size

def InRange : Setting → Prop
  | .unary | .table _ => True
  | .limit n | .width n => n < UInt64.size

variable {s : Setting} {value : String} {n : Nat}

theorem inRange_of_hasValue (h : s.HasValue value) : s.InRange := by
  cases s with
  | unary | table path => trivial
  | limit n | width n => exact h.2

theorem number?_eq_some_iff :
    Options.number? value = some n ↔
      Decimal.withoutZeros (Decimal.unsigned value.toList) = n.repr.toList ∧ n < UInt64.size := by
  rw [Options.number?, Decimal.readBelow?_eq_some_iff, Decimal.toList_repr]

theorem withoutZeros_repr (n : Nat) :
    Decimal.withoutZeros (Decimal.unsigned n.repr.toList) = n.repr.toList := by
  have hsign : ¬ '+' ∈ Decimal.digits n := by
    intro h
    have hdigit := Decimal.isDigit_of_mem_digits h
    contradiction
  rw [Decimal.toList_repr, Decimal.unsigned_of_not_mem hsign, Decimal.withoutZeros_eq_digits_iff]
  exact ⟨Decimal.isDigits_digits n, Decimal.value_digits n⟩

theorem letter?_name (h : s.HasValue value) : Options.letter? s.name = some s.letter := by
  cases s with
  | unary => contradiction
  | table path | limit n | width n => rfl

theorem eq_name_of_letter? {name : String} (h : Options.letter? name = some s.letter) :
    name = s.name := by
  unfold Options.letter? at h
  split at h
  . cases s with
    | table path => rfl
    | unary | limit n | width n => simp [letter] at h
  . cases s with
    | limit n => rfl
    | unary | table path | width n => simp [letter] at h
  . cases s with
    | width n => rfl
    | unary | table path | limit n => simp [letter] at h
  . contradiction

end Setting

namespace Options

variable {o o' : Options} {s : Setting} {ss : List Setting}

def settings (o : Options) : List Setting :=
  (if o.unary then [.unary] else []) ++ (o.table.map Setting.table).toList ++
    (o.limit.map Setting.limit).toList ++ (o.width.map Setting.width).toList

theorem unary_mem_settings : .unary ∈ o.settings ↔ o.unary = true := by
  simp [settings]

theorem table_mem_settings {path : String} : .table path ∈ o.settings ↔ o.table = some path := by
  simp [settings]

theorem limit_mem_settings {n : Nat} : .limit n ∈ o.settings ↔ o.limit = some n := by
  simp [settings]

theorem width_mem_settings {n : Nat} : .width n ∈ o.settings ↔ o.width = some n := by
  simp [settings]

theorem eq_of_settings_perm (h : o.settings.Perm o'.settings) : o = o' := by
  have hmem (s : Setting) : s ∈ o.settings ↔ s ∈ o'.settings := h.mem_iff
  have hunary : o.unary = o'.unary := by
    rw [Bool.eq_iff_iff, ← unary_mem_settings, hmem, unary_mem_settings]
  have htable : o.table = o'.table := Option.ext fun path => by
    rw [← table_mem_settings, hmem, table_mem_settings]
  have hlimit : o.limit = o'.limit := Option.ext fun n => by
    rw [← limit_mem_settings, hmem, limit_mem_settings]
  have hwidth : o.width = o'.width := Option.ext fun n => by
    rw [← width_mem_settings, hmem, width_mem_settings]
  cases o
  cases o'
  rw [mk.injEq]
  exact ⟨htable, hunary, hlimit, hwidth⟩

theorem nodup_letters (o : Options) : (o.settings.map Setting.letter).Nodup := by
  obtain ⟨table, unary, limit, width⟩ := o
  cases table <;> cases unary <;> cases limit <;> cases width <;>
    simp [settings, Setting.letter]

def add? (o : Options) : Setting → Option Options
  | .unary => o.setUnary?
  | .table path => if o.table.isNone then some { o with table := some path } else none
  | .limit n => if o.limit.isNone then some { o with limit := some n } else none
  | .width n => if o.width.isNone then some { o with width := some n } else none

theorem settings_perm_of_add? (h : o.add? s = some o') : o'.settings.Perm (s :: o.settings) := by
  cases s with
  | unary =>
    rw [add?, setUnary?, Option.ite_none_left_eq_some] at h
    obtain ⟨hunary, h⟩ := h
    cases h
    simp [settings, hunary]
  | table path =>
    rw [add?, Option.ite_none_right_eq_some] at h
    obtain ⟨htable, h⟩ := h
    cases h
    simp [settings, Option.isNone_iff_eq_none.1 htable]
  | limit n =>
    rw [add?, Option.ite_none_right_eq_some] at h
    obtain ⟨hlimit, h⟩ := h
    cases h
    simp only [settings, Option.isNone_iff_eq_none.1 hlimit, Option.map_none, Option.toList_none,
      List.append_nil]
    exact (List.perm_append_singleton ..).append_right _
  | width n =>
    rw [add?, Option.ite_none_right_eq_some] at h
    obtain ⟨hwidth, h⟩ := h
    cases h
    simp only [settings, Option.isNone_iff_eq_none.1 hwidth, Option.map_none, Option.toList_none,
      List.append_nil]
    exact List.perm_append_singleton ..

theorem letter_mem_of_add? (h : o.add? s = none) : s.letter ∈ o.settings.map Setting.letter := by
  rw [List.mem_map]
  cases s with
  | unary =>
    rw [add?, setUnary?, ite_eq_left_iff] at h
    refine ⟨.unary, unary_mem_settings.2 ?_, rfl⟩
    simpa using h
  | table path =>
    obtain ⟨path', h⟩ : ∃ path', o.table = some path' := by
      simpa [add?, Option.ne_none_iff_exists'] using h
    exact ⟨.table path', table_mem_settings.2 h, rfl⟩
  | limit n =>
    obtain ⟨n', h⟩ : ∃ n', o.limit = some n' := by
      simpa [add?, Option.ne_none_iff_exists'] using h
    exact ⟨.limit n', limit_mem_settings.2 h, rfl⟩
  | width n =>
    obtain ⟨n', h⟩ : ∃ n', o.width = some n' := by
      simpa [add?, Option.ne_none_iff_exists'] using h
    exact ⟨.width n', width_mem_settings.2 h, rfl⟩

def addAll? (o : Options) (ss : List Setting) : Option Options :=
  ss.foldlM add? o

@[simp]
theorem addAll?_nil : o.addAll? [] = some o := rfl

theorem addAll?_cons_eq_some_iff :
    o.addAll? (s :: ss) = some o' ↔ ∃ o₁, o.add? s = some o₁ ∧ o₁.addAll? ss = some o' := by
  rw [addAll?, List.foldlM_cons, Option.bind_eq_bind, Option.bind_eq_some_iff]
  rfl

theorem addAll?_append_eq_some_iff {ss' : List Setting} :
    o.addAll? (ss ++ ss') = some o' ↔
      ∃ o₁, o.addAll? ss = some o₁ ∧ o₁.addAll? ss' = some o' := by
  rw [addAll?, List.foldlM_append, Option.bind_eq_bind, Option.bind_eq_some_iff]
  rfl

theorem addAll?_singleton : o.addAll? [s] = o.add? s := by
  simp [addAll?]

theorem addAll?_eq_some_iff : o.addAll? ss = some o' ↔ (ss ++ o.settings).Perm o'.settings := by
  induction ss generalizing o with
  | nil =>
    rw [addAll?_nil, Option.some.injEq]
    constructor
    . rintro rfl
      exact .refl _
    . exact eq_of_settings_perm
  | cons s ss ih =>
    simp only [addAll?_cons_eq_some_iff, ih]
    constructor
    . rintro ⟨o₁, hs, hss⟩
      have hadded := (settings_perm_of_add? hs).append_left ss
      exact (List.perm_middle.symm.trans hadded.symm).trans hss
    . intro h
      cases hs : o.add? s with
      | none =>
        -- Another setting of this kind would be a second one among those of the result.
        have hletters := (h.map Setting.letter).nodup_iff.2 o'.nodup_letters
        rw [List.cons_append, List.map_cons, List.nodup_cons, List.map_append] at hletters
        exact absurd (List.mem_append_right _ (letter_mem_of_add? hs)) hletters.1
      | some o₁ =>
        have hadded := (settings_perm_of_add? hs).append_left ss
        exact ⟨o₁, rfl, (hadded.trans List.perm_middle).trans h⟩

theorem set?_eq_some_iff {letter : Char} {value : String} :
    o.set? letter value = some o' ↔
      ∃ s, s.letter = letter ∧ s.HasValue value ∧ o.add? s = some o' := by
  constructor
  . intro h
    unfold set? at h
    split at h
    . exact ⟨.table value, rfl, rfl, h⟩
    . obtain ⟨n, hn, h⟩ := Option.bind_eq_some_iff.1 h
      exact ⟨.limit n, rfl, Setting.number?_eq_some_iff.1 hn, h⟩
    . obtain ⟨n, hn, h⟩ := Option.bind_eq_some_iff.1 h
      exact ⟨.width n, rfl, Setting.number?_eq_some_iff.1 hn, h⟩
    . contradiction
  . rintro ⟨s, rfl, hvalue, h⟩
    cases s with
    | unary => contradiction
    | table path =>
      obtain rfl : value = path := hvalue
      exact h
    | limit n | width n =>
      exact Option.bind_eq_some_iff.2 ⟨n, Setting.number?_eq_some_iff.2 hvalue, h⟩

end Options

def IsOperand (argument : String) : Prop :=
  ∀ c cs, argument.toList ≠ '-' :: c :: cs

inductive Cluster : List Setting → List Char → List String → Prop where
  | nil : Cluster [] [] []
  | unary {ss : List Setting} {letters : List Char} {operands : List String}
    (h : Cluster ss letters operands) : Cluster (.unary :: ss) ('u' :: letters) operands
  | attached {s : Setting} {value : List Char} (hs : s.HasValue (String.ofList value))
    (hvalue : value ≠ []) (hsign : ∀ cs, value ≠ '=' :: cs) : Cluster [s] (s.letter :: value) []
  | joined {s : Setting} {value : List Char} (hs : s.HasValue (String.ofList value)) :
    Cluster [s] (s.letter :: '=' :: value) []
  | separate {s : Setting} {value : String} (hs : s.HasValue value) (hvalue : IsOperand value) :
    Cluster [s] [s.letter] [value]

inductive SpelledNext : List Setting → List String → Prop where
  | unary : SpelledNext [.unary] ["--unary"]
  | joined {s : Setting} {value : String} (hs : s.HasValue value) :
    SpelledNext [s] ["--" ++ s.name ++ "=" ++ value]
  | separate {s : Setting} {value : String} (hs : s.HasValue value) (hvalue : IsOperand value) :
    SpelledNext [s] ["--" ++ s.name, value]
  | cluster {ss : List Setting} {letters : List Char} {operands : List String}
    (hletters : Cluster ss letters operands) (hne : letters ≠ []) :
    SpelledNext ss (String.ofList ('-' :: letters) :: operands)

inductive Spelled : List Setting → List String → Prop where
  | nil : Spelled [] []
  | finished : Spelled [] ["--"]
  | next {ss ss' : List Setting} {arguments rest : List String} (h : SpelledNext ss arguments)
    (hrest : Spelled ss' rest) : Spelled (ss ++ ss') (arguments ++ rest)

theorem inRange_of_cluster {ss : List Setting} {letters : List Char} {operands : List String}
    (h : Cluster ss letters operands) : ∀ s ∈ ss, s.InRange := by
  induction h with
  | nil => simp
  | unary _ ih => exact List.forall_mem_cons.2 ⟨trivial, ih⟩
  | attached hs | joined hs | separate hs =>
    exact List.forall_mem_singleton.2 (Setting.inRange_of_hasValue hs)

theorem inRange_of_spelledNext {ss : List Setting} {arguments : List String}
    (h : SpelledNext ss arguments) : ∀ s ∈ ss, s.InRange := by
  cases h with
  | unary => exact List.forall_mem_singleton.2 trivial
  | joined hs | separate hs =>
    exact List.forall_mem_singleton.2 (Setting.inRange_of_hasValue hs)
  | cluster hletters => exact inRange_of_cluster hletters

theorem inRange_of_spelled {ss : List Setting} {arguments : List String}
    (h : Spelled ss arguments) : ∀ s ∈ ss, s.InRange := by
  induction h with
  | nil | finished => simp
  | next h _ ih => exact List.forall_mem_append.2 ⟨inRange_of_spelledNext h, ih⟩

theorem exists_spelledNext {s : Setting} (h : s.InRange) :
    ∃ arguments, SpelledNext [s] arguments := by
  cases s with
  | unary => exact ⟨_, .unary⟩
  | table path => exact ⟨_, .joined rfl⟩
  | limit n | width n => exact ⟨_, .joined ⟨Setting.withoutZeros_repr n, h⟩⟩

theorem exists_spelled {ss : List Setting} (h : ∀ s ∈ ss, s.InRange) :
    ∃ arguments, Spelled ss arguments := by
  induction ss with
  | nil => exact ⟨[], .nil⟩
  | cons s ss ih =>
    obtain ⟨hs, hss⟩ := List.forall_mem_cons.1 h
    obtain ⟨arguments, hnext⟩ := exists_spelledNext hs
    obtain ⟨rest, hrest⟩ := ih hss
    exact ⟨arguments ++ rest, .next hnext hrest⟩

namespace Options

variable {o o' : Options} {s : Setting} {ss : List Setting} {letters : List Char} {value : String}
  {operands rest rest' arguments : List String}

theorem valueArgument?_eq_some_iff :
    valueArgument? arguments = some (value, rest) ↔
      arguments = value :: rest ∧ IsOperand value := by
  cases arguments with
  | nil => simp [valueArgument?]
  | cons argument arguments =>
    rw [valueArgument?]
    split
    next c cs h =>
      simp only [reduceCtorEq, false_iff, not_and]
      intro hcons hvalue
      cases hcons
      exact hvalue c cs h
    next h =>
      rw [Option.some.injEq, Prod.mk.injEq, List.cons.injEq]
      constructor
      . rintro ⟨rfl, rfl⟩
        exact ⟨⟨rfl, rfl⟩, h⟩
      . rintro ⟨hcons, _⟩
        exact hcons

theorem bind_set?_eq_some_iff {letter : Char} :
    (do return (← o.set? letter value, rest)) = some (o', rest') ↔
      ∃ s, s.letter = letter ∧ s.HasValue value ∧ o.add? s = some o' ∧ rest = rest' := by
  simp only [Option.bind_eq_bind, Option.bind_eq_some_iff, Option.pure_def, Option.some.injEq,
    Prod.mk.injEq, set?_eq_some_iff]
  constructor
  . rintro ⟨_, ⟨s, rfl, hs, hadd⟩, rfl, rfl⟩
    exact ⟨s, rfl, hs, hadd, rfl⟩
  . rintro ⟨s, rfl, hs, hadd, rfl⟩
    exact ⟨o', ⟨s, rfl, hs, hadd⟩, rfl, rfl⟩

theorem setNext?_eq_some_iff {letter : Char} :
    o.setNext? letter arguments = some (o', rest) ↔
      ∃ s value, s.letter = letter ∧ s.HasValue value ∧ IsOperand value ∧
        arguments = value :: rest ∧ o.add? s = some o' := by
  simp only [setNext?, Option.bind_eq_bind, Option.bind_eq_some_iff, Option.pure_def,
    Option.some.injEq, Prod.mk.injEq, Prod.exists, valueArgument?_eq_some_iff, set?_eq_some_iff]
  constructor
  . rintro ⟨value, _, ⟨rfl, hvalue⟩, _, ⟨s, rfl, hs, hadd⟩, rfl, rfl⟩
    exact ⟨s, value, rfl, hs, hvalue, rfl, hadd⟩
  . rintro ⟨s, value, rfl, hs, hvalue, rfl, hadd⟩
    exact ⟨value, rest, ⟨rfl, hvalue⟩, o', ⟨s, rfl, hs, hadd⟩, rfl, rfl⟩

theorem letter_ne_of_hasValue (hs : s.HasValue value) : s.letter ≠ 'u' := by
  cases s with
  | unary => contradiction
  | table path | limit n | width n => simp [Setting.letter]

theorem letters?_of_cluster (h : Cluster ss letters operands) (hadd : o.addAll? ss = some o') :
    o.letters? (operands ++ rest) letters = some (o', rest) := by
  induction h generalizing o with
  | nil =>
    cases hadd
    rfl
  | unary h ih =>
    obtain ⟨o₁, hunary, hadd⟩ := addAll?_cons_eq_some_iff.1 hadd
    rw [add?] at hunary
    rw [letters?, hunary]
    exact ih hadd
  | attached hs hvalue hsign =>
    rw [addAll?_singleton] at hadd
    rw [letters?.eq_5 _ _ _ _ (letter_ne_of_hasValue hs) hvalue hsign]
    exact bind_set?_eq_some_iff.2 ⟨_, rfl, hs, hadd, rfl⟩
  | joined hs =>
    rw [addAll?_singleton] at hadd
    rw [letters?.eq_4 _ _ _ _ (letter_ne_of_hasValue hs)]
    exact bind_set?_eq_some_iff.2 ⟨_, rfl, hs, hadd, rfl⟩
  | separate hs hvalue =>
    rw [addAll?_singleton] at hadd
    rw [letters?.eq_3 _ _ _ (letter_ne_of_hasValue hs)]
    exact setNext?_eq_some_iff.2 ⟨_, _, rfl, hs, hvalue, rfl, hadd⟩

theorem cluster_of_letters? (h : o.letters? rest letters = some (o', rest')) :
    ∃ ss operands, Cluster ss letters operands ∧ rest = operands ++ rest' ∧
      o.addAll? ss = some o' := by
  fun_induction letters? o rest letters with
  | case1 o =>
    cases h
    exact ⟨[], [], .nil, rfl, rfl⟩
  | case2 o letters ih =>
    obtain ⟨o₁, hunary, h⟩ := Option.bind_eq_some_iff.1 h
    obtain ⟨ss, operands, hss, hrest, hadd⟩ := ih o₁ h
    exact ⟨.unary :: ss, operands, .unary hss, hrest,
      addAll?_cons_eq_some_iff.2 ⟨o₁, hunary, hadd⟩⟩
  | case3 o letter hletter =>
    obtain ⟨s, value, rfl, hs, hvalue, hrest, hadd⟩ := setNext?_eq_some_iff.1 h
    exact ⟨[s], [value], .separate hs hvalue, hrest, addAll?_singleton.trans hadd⟩
  | case4 o letter value hletter =>
    obtain ⟨s, rfl, hs, hadd, rfl⟩ := bind_set?_eq_some_iff.1 h
    exact ⟨[s], [], .joined hs, rfl, addAll?_singleton.trans hadd⟩
  | case5 o letter value hletter hvalue hsign =>
    obtain ⟨s, rfl, hs, hadd, rfl⟩ := bind_set?_eq_some_iff.1 h
    exact ⟨[s], [], .attached hs hvalue hsign, rfl, addAll?_singleton.trans hadd⟩

theorem ne_hyphen_of_cluster (h : Cluster ss letters operands) (name : List Char) :
    letters ≠ '-' :: name := by
  have hletter (s : Setting) : s.letter ≠ '-' := by
    cases s <;> simp [Setting.letter]
  cases h <;> simp [hletter]

theorem argument?_cluster (h : Cluster ss letters operands) (hne : letters ≠ []) :
    o.argument? rest ('-' :: letters) = o.letters? rest letters := by
  rw [argument?]
  . exact ne_hyphen_of_cluster h
  . exact hne

theorem argument?_unary :
    o.argument? rest "--unary".toList = o.setUnary?.bind fun o => some (o, rest) := rfl

theorem argument?_name {name : String} {letter : Char} (h : letter? name = some letter) :
    o.argument? rest ("--" ++ name).toList = o.setNext? letter rest := by
  unfold letter? at h
  split at h
  case h_4 => contradiction
  all_goals
    cases h
    rfl

theorem argument?_name_joined {name : String} {letter : Char} (h : letter? name = some letter)
    (value : String) :
    o.argument? rest ("--" ++ name ++ "=" ++ value).toList =
      do return (← o.set? letter value, rest) := by
  have hsign : ¬ '=' ∈ name.toList := by
    unfold letter? at h
    split at h
    case h_4 => contradiction
    all_goals decide
  have htext : ("--" ++ name ++ "=" ++ value).toList =
      '-' :: '-' :: (name.toList ++ '=' :: value.toList) := by simp
  obtain ⟨part, parts, hparts⟩ := List.exists_cons_of_ne_nil (List.splitOn_ne_nil '=' value.toList)
  have hvalue : ['='].intercalate (part :: parts) = value.toList := by
    rw [← hparts, List.intercalate_splitOn]
  rw [htext, argument?, List.splitOn_append_cons_self, List.splitOn_eq_singleton hsign, hparts,
    List.singleton_append]
  simp only [String.ofList_toList, h, hvalue]
  rfl

theorem argument?_of_spelledNext (rest : List String) (h : SpelledNext ss arguments)
    (hadd : o.addAll? ss = some o') :
    ∃ argument operands, arguments = argument :: operands ∧ argument ≠ "--" ∧
      o.argument? (operands ++ rest) argument.toList = some (o', rest) := by
  cases h with
  | unary =>
    rw [addAll?_singleton, add?] at hadd
    refine ⟨_, [], rfl, by decide, ?_⟩
    rw [argument?_unary, hadd]
    rfl
  | joined hs =>
    rw [addAll?_singleton] at hadd
    refine ⟨_, [], rfl, ?_, ?_⟩
    . intro htext
      have := congrArg String.toList htext
      simp at this
    . rw [argument?_name_joined (Setting.letter?_name hs)]
      exact bind_set?_eq_some_iff.2 ⟨_, rfl, hs, hadd, rfl⟩
  | @separate s value hs hvalue =>
    rw [addAll?_singleton] at hadd
    refine ⟨_, [value], rfl, ?_, ?_⟩
    . cases s <;> simp [Setting.name]
    . rw [argument?_name (Setting.letter?_name hs)]
      exact setNext?_eq_some_iff.2 ⟨_, _, rfl, hs, hvalue, rfl, hadd⟩
  | cluster hletters hne =>
    refine ⟨_, _, rfl, ?_, ?_⟩
    . intro htext
      have hlist := congrArg String.toList htext
      rw [String.toList_ofList] at hlist
      exact ne_hyphen_of_cluster hletters [] (List.tail_eq_of_cons_eq hlist)
    . rw [String.toList_ofList, argument?_cluster hletters hne]
      exact letters?_of_cluster hletters hadd

theorem eq_of_splitOn_eq_singleton {name name' : List Char} (h : name.splitOn '=' = [name']) :
    name = name' := by
  have hname : ['='].intercalate (name.splitOn '=') = name := List.intercalate_splitOn '='
  rw [h, List.intercalate_singleton] at hname
  exact hname.symm

theorem ofList_long (name : List Char) :
    String.ofList ('-' :: '-' :: name) = "--" ++ String.ofList name := by
  simp [← String.toList_inj]

theorem spelledNext_of_argument? {argument : String}
    (h : o.argument? rest argument.toList = some (o', rest')) :
    ∃ ss operands, SpelledNext ss (argument :: operands) ∧ rest = operands ++ rest' ∧
      o.addAll? ss = some o' := by
  rw [← String.ofList_toList (s := argument)]
  revert h
  generalize argument.toList = cs
  fun_cases argument? o rest cs with
  | case2 name name' hsplit hunary =>
    intro h
    obtain rfl := eq_of_splitOn_eq_singleton hsplit
    obtain ⟨o₁, hset, h⟩ := Option.bind_eq_some_iff.1 h
    cases h
    rw [ofList_long, hunary]
    exact ⟨[.unary], [], .unary, rfl, addAll?_singleton.trans hset⟩
  | case3 name name' hsplit =>
    intro h
    obtain rfl := eq_of_splitOn_eq_singleton hsplit
    obtain ⟨letter, hletter, h⟩ := Option.bind_eq_some_iff.1 h
    obtain ⟨s, value, rfl, hs, hvalue, hrest, hadd⟩ := setNext?_eq_some_iff.1 h
    rw [ofList_long, Setting.eq_name_of_letter? hletter]
    exact ⟨[s], [value], .separate hs hvalue, hrest, addAll?_singleton.trans hadd⟩
  | case4 name name' value hvalue hsplit =>
    intro h
    obtain ⟨letter, hletter, h⟩ := Option.bind_eq_some_iff.1 h
    obtain ⟨s, rfl, hs, hadd, rfl⟩ := bind_set?_eq_some_iff.1 h
    have hname : ['='].intercalate (name.splitOn '=') = name := List.intercalate_splitOn '='
    rw [hsplit, List.intercalate_cons_of_ne_nil hvalue] at hname
    have hargument : String.ofList ('-' :: '-' :: name) =
        "--" ++ s.name ++ "=" ++ String.ofList (['='].intercalate value) := by
      rw [← Setting.eq_name_of_letter? hletter, ← hname]
      simp [← String.toList_inj]
    rw [hargument]
    exact ⟨[s], [], .joined hs, rfl, addAll?_singleton.trans hadd⟩
  | case6 letters hlong hne =>
    intro h
    obtain ⟨ss, operands, hss, hrest, hadd⟩ := cluster_of_letters? h
    exact ⟨ss, operands, .cluster hss hne, hrest, hadd⟩
  | case1 | case5 | case7 => exact fun h => by contradiction

theorem read?_of_spelled {fuel : Nat} (h : Spelled ss arguments) (hfuel : arguments.length < fuel)
    (hadd : o.addAll? ss = some o') : read? o fuel arguments = some o' := by
  -- What is spelled next takes an argument at least, so there is fuel for the rest.
  induction h generalizing o fuel with
  | nil =>
    cases fuel with
    | zero => contradiction
    | succ fuel => exact hadd
  | finished =>
    cases fuel with
    | zero => contradiction
    | succ fuel => exact hadd
  | @next ss ss' arguments rest h _ ih =>
    obtain ⟨o₁, hnext, hadd⟩ := addAll?_append_eq_some_iff.1 hadd
    obtain ⟨argument, operands, rfl, hend, hargument⟩ := argument?_of_spelledNext rest h hnext
    cases fuel with
    | zero => contradiction
    | succ fuel =>
      rw [List.cons_append, read?, if_neg hend, hargument]
      apply ih _ hadd
      rw [List.length_append, List.length_cons] at hfuel
      omega

theorem exists_spelled_of_read? {fuel : Nat} (h : read? o fuel arguments = some o') :
    ∃ ss, Spelled ss arguments ∧ o.addAll? ss = some o' := by
  fun_induction read? o fuel arguments with
  | case1 => contradiction
  | case2 o =>
    cases h
    exact ⟨[], .nil, rfl⟩
  | case3 o fuel rest hrest =>
    cases h
    rw [List.isEmpty_iff.1 hrest]
    exact ⟨[], .finished, rfl⟩
  | case4 => contradiction
  | case5 o fuel argument rest hend ih =>
    obtain ⟨⟨o₁, rest'⟩, hnext, hrest⟩ := Option.bind_eq_some_iff.1 h
    obtain ⟨ss, operands, hss, rfl, hadd⟩ := spelledNext_of_argument? hnext
    obtain ⟨ss', hss', hadd'⟩ := ih o₁ rest' hrest
    exact ⟨ss ++ ss', .next hss hss', addAll?_append_eq_some_iff.2 ⟨o₁, hadd, hadd'⟩⟩

/--
Whether arguments give options: each setting of these once, in any order.
-/
def Given (o : Options) (arguments : List String) : Prop :=
  ∃ ss, ss.Perm o.settings ∧ Spelled ss arguments

theorem ofArguments?_eq_some_iff {arguments : List String} :
    ofArguments? arguments = some o ↔ o.Given arguments := by
  have hperm (ss : List Setting) : addAll? {} ss = some o ↔ ss.Perm o.settings := by
    rw [addAll?_eq_some_iff]
    simp [settings]
  constructor
  . intro h
    obtain ⟨ss, hss, hadd⟩ := exists_spelled_of_read? h
    exact ⟨ss, (hperm ss).1 hadd, hss⟩
  . rintro ⟨ss, hss, hspelled⟩
    exact read?_of_spelled hspelled (Nat.lt_succ_self _) ((hperm ss).2 hss)

theorem forall_inRange_settings :
    (∀ s ∈ o.settings, s.InRange) ↔
      ∀ n, o.limit = some n ∨ o.width = some n → n < UInt64.size := by
  constructor
  . rintro h n (hn | hn)
    . exact h _ (limit_mem_settings.2 hn)
    . exact h _ (width_mem_settings.2 hn)
  . intro h s hs
    cases s with
    | unary | table path => trivial
    | limit n => exact h n (.inl (limit_mem_settings.1 hs))
    | width n => exact h n (.inr (width_mem_settings.1 hs))

theorem exists_given_iff :
    (∃ arguments, o.Given arguments) ↔
      ∀ n, o.limit = some n ∨ o.width = some n → n < UInt64.size := by
  rw [← forall_inRange_settings]
  constructor
  . rintro ⟨_, ss, hss, hspelled⟩ s hs
    exact inRange_of_spelled hspelled s (hss.mem_iff.2 hs)
  . intro h
    obtain ⟨arguments, hspelled⟩ := exists_spelled h
    exact ⟨arguments, o.settings, .refl _, hspelled⟩

end Options

end Demo

end Arithmetization
