import Arithmetization.Proofs.Assignment
import Arithmetization.Proofs.ByteOrder
import Arithmetization.Proofs.Keys
import Mathlib.Data.List.Perm.Basic

/-!
This module contains the theory of tables read from documents. A document assigns codes to names of
symbols, and the outcome of reading it depends on nothing else: not on the order of its lines, and
for a table that can be read not on the names by which the symbols are called either.
-/

namespace Arithmetization

theorem Symbol.ofName?_eq_some_iff {name : String} {s : Symbol} :
    ofName? name = some s ↔ name = s.glyph ∨ name = s.asciiName := by
  constructor
  . intro h
    have hname := List.find?_some h
    rw [decide_eq_true_eq] at hname
    exact hname.imp Eq.symm Eq.symm
  . rintro (rfl | rfl)
    . exact ofName?_glyph s
    . exact ofName?_asciiName s

namespace CodeTable

variable {names names' : List (String × UInt32)} {pairs : List (Symbol × UInt32)}
  {separator : UInt8} {t : CodeTable}

theorem resolve_cons_eq_ok_iff {name : String} {code : UInt32} :
    resolve ((name, code) :: names) = .ok pairs ↔
      ∃ s rest, Symbol.ofName? name = some s ∧ resolve names = .ok rest ∧
        pairs = (s, code) :: rest := by
  rw [resolve]
  split
  next h => simp [h]
  next s h =>
    cases hrest : resolve names with
    | error e => simp [Except.map]
    | ok rest => simp [Except.map, h, eq_comm]

theorem resolve_eq_ok_iff :
    resolve names = .ok pairs ↔
      names.map (fun p => (Symbol.ofName? p.1, p.2)) = pairs.map fun p => (some p.1, p.2) := by
  induction names generalizing pairs with
  | nil => cases pairs <;> simp [resolve]
  | cons p names ih =>
    rw [resolve_cons_eq_ok_iff]
    cases pairs with
    | nil => simp
    | cons q pairs =>
      simp only [ih, List.map_cons, List.cons.injEq, Prod.mk.injEq]
      constructor
      . rintro ⟨s, rest, hs, hrest, rfl, rfl⟩
        exact ⟨⟨hs, rfl⟩, hrest⟩
      . rintro ⟨⟨hs, hcode⟩, hrest⟩
        exact ⟨q.1, pairs, hs, hrest, by rw [hcode], rfl⟩

theorem exists_of_resolve_eq_error {e : Error} (h : resolve names = .error e) :
    ∃ before name code after, names = before ++ (name, code) :: after ∧
      Symbol.ofName? name = none ∧ (∀ p ∈ before, (Symbol.ofName? p.1).isSome = true) ∧
      e = .unknownSymbol name := by
  induction names with
  | nil => contradiction
  | cons p names ih =>
    obtain ⟨name, code⟩ := p
    rw [resolve] at h
    split at h
    next hname =>
      obtain rfl := Except.error.inj h
      exact ⟨[], name, code, names, rfl, hname, by simp, rfl⟩
    next s hname =>
      cases hrest : resolve names with
      | ok pairs =>
        rw [hrest] at h
        contradiction
      | error e' =>
        rw [hrest] at h
        obtain rfl := Except.error.inj h
        obtain ⟨before, unknown, code', after, rfl, hunknown, hbefore, rfl⟩ := ih hrest
        refine ⟨(name, code) :: before, unknown, code', after, rfl, hunknown, ?_, rfl⟩
        rw [List.forall_mem_cons]
        exact ⟨by simp [hname], hbefore⟩

/-! ### The outcome of reading -/

def Calls (name : String) (s : Symbol) : Prop :=
  name = s.glyph ∨ name = s.asciiName

def Unknown (names : List (String × UInt32)) (name : String) : Prop :=
  name ∈ names.map Prod.fst ∧ ∀ s, ¬ Calls name s

def Recalls (names : List (String × UInt32)) (name : String) (s : Symbol) : Prop :=
  name ∈ names.map Prod.fst ∧ Calls name s ∧
    ∃ other ∈ names.map Prod.fst, Precedes other name ∧ Calls other s

def Assigns (names : List (String × UInt32)) (s : Symbol) (code : UInt32) : Prop :=
  ∃ name, (name, code) ∈ names ∧ Calls name s

def Least (p : String → Prop) (name : String) : Prop :=
  p name ∧ ∀ other, p other → other = name ∨ Precedes name other

/--
What an assignment to names comes to. The least unknown name comes first among the errors, then the
symbol of the least name that calls one again, then the first symbol without a code.
-/
inductive Outcome (names : List (String × UInt32)) (separator : UInt8) :
    Except Error CodeTable → Prop where
  | unknown {name : String} (hname : Least (Unknown names) name) :
    Outcome names separator (.error (.unknownSymbol name))
  | repeated {name : String} {s : Symbol} (hknown : ∀ name, ¬ Unknown names name)
    (hname : Least (fun name => ∃ s, Recalls names name s) name) (hs : Calls name s) :
    Outcome names separator (.error (.duplicateSymbol s))
  | missing {s : Symbol} (hknown : ∀ name, ¬ Unknown names name)
    (honce : ∀ name s, ¬ Recalls names name s) (hs : ¬ ∃ code, Assigns names s code)
    (hearlier : ∀ t, t.index < s.index → ∃ code, Assigns names t code) :
    Outcome names separator (.error (.missingSymbol s))
  | complete {code : Symbol → UInt32} (hknown : ∀ name, ¬ Unknown names name)
    (honce : ∀ name s, ¬ Recalls names name s) (hcode : ∀ s, Assigns names s (code s)) :
    Outcome names separator (ofCodes code separator)

theorem pairwise_precedes_mergeSort (h : (names.map Prod.fst).Nodup) :
    (names.mergeSort fun a b => a.1 ≤ b.1).Pairwise fun a b => Precedes a.1 b.1 := by
  have hperm := List.mergeSort_perm names fun a b => a.1 ≤ b.1
  have hsorted : (names.mergeSort fun a b => a.1 ≤ b.1).Pairwise fun a b =>
      decide (a.1 ≤ b.1) = true := by
    apply List.pairwise_mergeSort
    . intro a b c
      simpa using String.le_trans
    . intro a b
      simpa using String.le_total a.1 b.1
  have hdistinct := List.pairwise_map.1 ((hperm.map Prod.fst).nodup_iff.2 h)
  refine (hsorted.and hdistinct).imp ?_
  rintro a b ⟨hle, hne⟩
  rw [precedes_iff_lt, ← String.not_le]
  exact fun hge => hne (String.le_antisymm (of_decide_eq_true hle) hge)

theorem Outcome.perm {r : Except Error CodeTable} (h : names.Perm names')
    (houtcome : Outcome names separator r) : Outcome names' separator r := by
  have hkeys (name : String) : name ∈ names.map Prod.fst ↔ name ∈ names'.map Prod.fst :=
    (h.map Prod.fst).mem_iff
  have hunknown : Unknown names = Unknown names' := by
    funext name
    simp only [Unknown, hkeys]
  have hrecalls : Recalls names = Recalls names' := by
    funext name s
    simp only [Recalls, hkeys]
  have hassigns : Assigns names = Assigns names' := by
    funext s code
    simp only [Assigns, h.mem_iff]
  cases houtcome with
  | unknown hname =>
    rw [hunknown] at hname
    exact .unknown hname
  | repeated hknown hname hs =>
    rw [hunknown] at hknown
    rw [hrecalls] at hname
    exact .repeated hknown hname hs
  | missing hknown honce hs hearlier =>
    rw [hunknown] at hknown
    rw [hrecalls] at honce
    rw [hassigns] at hs hearlier
    exact .missing hknown honce hs hearlier
  | complete hknown honce hcode =>
    rw [hunknown] at hknown
    rw [hrecalls] at honce
    rw [hassigns] at hcode
    exact .complete hknown honce hcode

section Sorted

variable {before after : List (String × UInt32)} {name : String} {code : UInt32}

theorem mem_before_of_precedes
    (hsorted : (before ++ after).Pairwise fun a b => Precedes a.1 b.1)
    {p q : String × UInt32} (hp : p ∈ before) (hq : q ∈ before ++ after)
    (hqp : Precedes q.1 p.1) : q ∈ before := by
  obtain hq | hq := List.mem_append.1 hq
  . exact hq
  . have hpq := (List.pairwise_append.1 hsorted).2.2 p hp q hq
    exact absurd hqp (precedes_asymm hpq)

theorem least_of_first
    (hsorted : (before ++ (name, code) :: after).Pairwise fun a b => Precedes a.1 b.1)
    {p : String → Prop} (hname : p name)
    (hmem : ∀ other, p other → other ∈ (before ++ (name, code) :: after).map Prod.fst)
    (hbefore : ∀ q ∈ before, ¬ p q.1) : Least p name := by
  refine ⟨hname, ?_⟩
  intro other hother
  obtain ⟨q, hq, rfl⟩ := List.mem_map.1 (hmem other hother)
  rw [List.mem_append, List.mem_cons] at hq
  obtain hq | rfl | hq := hq
  . exact absurd hother (hbefore q hq)
  . exact .inl rfl
  . have hrest := (List.pairwise_append.1 hsorted).2.1
    exact .inr (List.rel_of_pairwise_cons hrest hq)

end Sorted

theorem calls_iff {name : String} {s : Symbol} : Calls name s ↔ Symbol.ofName? name = some s :=
  Symbol.ofName?_eq_some_iff.symm

theorem assigns_iff_mem (h : resolve names = .ok pairs) {s : Symbol} {code : UInt32} :
    Assigns names s code ↔ (s, code) ∈ pairs := by
  have hpairs : (some s, code) ∈ names.map (fun p => (Symbol.ofName? p.1, p.2)) ↔
      (some s, code) ∈ pairs.map fun p => (some p.1, p.2) := by
    rw [resolve_eq_ok_iff.1 h]
  simpa [Assigns, calls_iff, and_comm] using hpairs

theorem map_ofName?_of_resolve (h : resolve names = .ok pairs) :
    names.map (fun p => Symbol.ofName? p.1) = (pairs.map Prod.fst).map some := by
  have hfst := congrArg (List.map Prod.fst) (resolve_eq_ok_iff.1 h)
  simpa [List.map_map, Function.comp_def] using hfst

theorem not_unknown_of_resolve (h : resolve names = .ok pairs) (name : String) :
    ¬ Unknown names name := by
  rintro ⟨hname, hcalls⟩
  obtain ⟨p, hp, rfl⟩ := List.mem_map.1 hname
  have hmem : Symbol.ofName? p.1 ∈ (pairs.map Prod.fst).map some := by
    rw [← map_ofName?_of_resolve h]
    exact List.mem_map_of_mem hp
  obtain ⟨s, _, hs⟩ := List.mem_map.1 hmem
  exact hcalls s (calls_iff.2 hs.symm)

theorem not_recalls_of_nodup {symbols : List Symbol}
    (h : names.map (fun p => Symbol.ofName? p.1) = symbols.map some) (hnodup : symbols.Nodup)
    (name : String) (s : Symbol) : ¬ Recalls names name s := by
  rintro ⟨hname, hs, other, hother, hprecedes, hs'⟩
  obtain ⟨p, hp, rfl⟩ := List.mem_map.1 hname
  obtain ⟨q, hq, rfl⟩ := List.mem_map.1 hother
  have honce : (names.map fun p => Symbol.ofName? p.1).Nodup := by
    rw [h]
    exact hnodup.map fun _ _ => Option.some.inj
  rw [calls_iff] at hs hs'
  obtain rfl := List.inj_on_of_nodup_map honce hp hq (hs.trans hs'.symm)
  exact precedes_asymm hprecedes hprecedes

section Sorted

variable (hsorted : names.Pairwise fun a b => Precedes a.1 b.1)

include hsorted

theorem outcome_of_unknown {e : Error} (h : resolve names = .error e) :
    Outcome names separator (.error e) := by
  obtain ⟨before, name, code, after, rfl, hname, hbefore, rfl⟩ := exists_of_resolve_eq_error h
  refine .unknown (least_of_first hsorted ?_ (fun _ hother => hother.1) ?_)
  . refine ⟨by simp, ?_⟩
    intro s hs
    rw [calls_iff, hname] at hs
    contradiction
  . rintro q hq ⟨_, hcalls⟩
    obtain ⟨s, hs⟩ := Option.isSome_iff_exists.1 (hbefore q hq)
    exact hcalls s (calls_iff.2 hs)

theorem outcome_of_repeated (h : resolve names = .ok pairs) {before after : List Symbol}
    {s : Symbol} (hsplit : pairs.map Prod.fst = before ++ s :: after) (hnodup : before.Nodup)
    (hs : s ∈ before) : Outcome names separator (.error (.duplicateSymbol s)) := by
  have hsymbols := map_ofName?_of_resolve h
  rw [hsplit, List.map_append, List.map_cons] at hsymbols
  obtain ⟨front, back, rfl, hfront, hback⟩ := List.map_eq_append_iff.1 hsymbols
  obtain ⟨⟨name, code⟩, rest, rfl, hname, _⟩ := List.map_eq_cons_iff.1 hback
  have hcalls : Calls name s := calls_iff.2 hname
  refine .repeated (not_unknown_of_resolve h) (least_of_first hsorted ?_ ?_ ?_) hcalls
  . -- The symbol stands among the names before, which are smaller.
    have hmem : some s ∈ front.map fun p => Symbol.ofName? p.1 := by
      rw [hfront]
      exact List.mem_map_of_mem hs
    obtain ⟨p, hp, hps⟩ := List.mem_map.1 hmem
    refine ⟨s, by simp, hcalls, p.1, ?_, ?_, calls_iff.2 hps⟩
    . exact List.mem_map_of_mem (List.mem_append_left _ hp)
    . exact (List.pairwise_append.1 hsorted).2.2 p hp _ (List.mem_cons_self ..)
  . rintro other ⟨u, hother, _⟩
    exact hother
  . -- What a name before calls again would be called twice among the names before.
    rintro q hq ⟨u, _, hu, other, hother, hprecedes, hu'⟩
    obtain ⟨p, hp, rfl⟩ := List.mem_map.1 hother
    have hpfront := mem_before_of_precedes hsorted hq hp hprecedes
    exact not_recalls_of_nodup hfront hnodup q.1 u
      ⟨List.mem_map_of_mem hq, hu, p.1, List.mem_map_of_mem hpfront, hprecedes, hu'⟩

theorem outcome_sorted : Outcome names separator (resolve names >>= (ofPairs · separator)) := by
  cases h : resolve names with
  | error e => exact outcome_of_unknown hsorted h
  | ok pairs =>
    change Outcome names separator (ofPairs pairs separator)
    have hknown := not_unknown_of_resolve h
    by_cases hnodup : (pairs.map Prod.fst).Nodup
    . have honce := not_recalls_of_nodup (map_ofName?_of_resolve h) hnodup
      obtain ⟨s, hs⟩ | ⟨code, hcode⟩ := firstMissing_or_complete pairs
      . rw [ofPairs_of_firstMissing hnodup hs]
        simp only [FirstMissing, ← assigns_iff_mem h] at hs
        exact .missing hknown honce hs.1 hs.2
      . rw [ofPairs_of_complete hnodup hcode]
        exact .complete hknown honce fun s => (assigns_iff_mem h).2 (hcode s)
    . obtain ⟨before, s, after, hsplit, hbefore, hs, hresult⟩ :=
        exists_repeated_of_not_nodup hnodup separator
      rw [hresult]
      exact outcome_of_repeated hsorted h hsplit hbefore hs

end Sorted

theorem calls_unique {name : String} {s s' : Symbol} (hs : Calls name s) (hs' : Calls name s') :
    s = s' := by
  rw [calls_iff] at hs hs'
  exact Option.some.inj (hs.symm.trans hs')

theorem Least.unique {p : String → Prop} {a b : String} (ha : Least p a) (hb : Least p b) :
    a = b := by
  obtain rfl | hab := ha.2 b hb.1
  . rfl
  . obtain rfl | hba := hb.2 a ha.1
    . rfl
    . exact absurd hba (precedes_asymm hab)

theorem assigns_unique (hkeys : (names.map Prod.fst).Nodup)
    (honce : ∀ name s, ¬ Recalls names name s) {s : Symbol} {c c' : UInt32}
    (h : Assigns names s c) (h' : Assigns names s c') : c = c' := by
  obtain ⟨name, hname, hcalls⟩ := h
  obtain ⟨name', hname', hcalls'⟩ := h'
  have hmem := List.mem_map_of_mem (f := Prod.fst) hname
  have hmem' := List.mem_map_of_mem (f := Prod.fst) hname'
  by_cases heq : name = name'
  . exact (Prod.mk.inj (List.inj_on_of_nodup_map hkeys hname hname' heq)).2
  . obtain hlt | hgt := precedes_total heq
    . exact absurd ⟨hmem', hcalls', name, hmem, hlt, hcalls⟩ (honce name' s)
    . exact absurd ⟨hmem, hcalls, name', hmem', hgt, hcalls'⟩ (honce name s)

theorem Outcome.unique (hkeys : (names.map Prod.fst).Nodup) {r r' : Except Error CodeTable}
    (h : Outcome names separator r) (h' : Outcome names separator r') : r = r' := by
  cases h with
  | @unknown name hname =>
    cases h' with
    | unknown hname' => rw [hname.unique hname']
    | repeated hknown | missing hknown | complete hknown => exact absurd hname.1 (hknown name)
  | @repeated name s hknown hname hs =>
    obtain ⟨u, hu⟩ := hname.1
    cases h' with
    | @unknown name' hname' => exact absurd hname'.1 (hknown name')
    | repeated _ hname' hs' =>
      obtain rfl := hname.unique hname'
      rw [calls_unique hs hs']
    | missing _ honce | complete _ honce => exact absurd hu (honce name u)
  | @missing s hknown honce hs hearlier =>
    cases h' with
    | @unknown name' hname' => exact absurd hname'.1 (hknown name')
    | @repeated name' _ _ hname' =>
      obtain ⟨u, hu⟩ := hname'.1
      exact absurd hu (honce name' u)
    | @missing s' _ _ hs' hearlier' =>
      rcases Nat.lt_trichotomy s.index s'.index with hlt | heq | hgt
      . exact absurd (hearlier' s hlt) hs
      . rw [Symbol.index_injective (Fin.ext heq)]
      . exact absurd (hearlier s' hgt) hs'
    | @complete code _ _ hcode => exact absurd ⟨code s, hcode s⟩ hs
  | @complete code hknown honce hcode =>
    cases h' with
    | @unknown name' hname' => exact absurd hname'.1 (hknown name')
    | @repeated name' _ _ hname' =>
      obtain ⟨u, hu⟩ := hname'.1
      exact absurd hu (honce name' u)
    | @missing s' _ _ hs' => exact absurd ⟨code s', hcode s'⟩ hs'
    | complete _ _ hcode' =>
      rw [funext fun s => assigns_unique hkeys honce (hcode s) (hcode' s)]

theorem outcome_ofNames (h : (names.map Prod.fst).Nodup) (separator : UInt8) :
    Outcome names separator (ofNames names separator) :=
  (outcome_sorted (pairwise_precedes_mergeSort h)).perm (List.mergeSort_perm names _)

/-! ### Assignments that differ in order and names -/

theorem resolve_perm (h : names.Perm names') (hpairs : resolve names = .ok pairs) :
    ∃ pairs', resolve names' = .ok pairs' ∧ pairs.Perm pairs' := by
  cases h' : resolve names' with
  | error e =>
    obtain ⟨before, name, code, after, hsplit, hname, _, _⟩ := exists_of_resolve_eq_error h'
    have hmem : name ∈ names.map Prod.fst := by
      rw [(h.map Prod.fst).mem_iff, hsplit]
      simp
    refine absurd ⟨hmem, ?_⟩ (not_unknown_of_resolve hpairs name)
    intro s hs
    rw [calls_iff, hname] at hs
    contradiction
  | ok pairs' =>
    refine ⟨pairs', rfl, ?_⟩
    have hmap := h.map fun p => (Symbol.ofName? p.1, p.2)
    rw [resolve_eq_ok_iff.1 hpairs, resolve_eq_ok_iff.1 h'] at hmap
    refine (List.map_perm_map_iff ?_).1 hmap
    rintro ⟨s, c⟩ ⟨s', c'⟩ heq
    simpa using heq

theorem ofNames_eq_ok_iff :
    ofNames names separator = .ok t ↔
      ∃ pairs, resolve names = .ok pairs ∧ ofPairs pairs separator = .ok t := by
  have hsort := List.mergeSort_perm names fun a b => a.1 ≤ b.1
  constructor
  . intro h
    cases hpairs : resolve (names.mergeSort fun a b => a.1 ≤ b.1) with
    | error e =>
      rw [ofNames, hpairs] at h
      contradiction
    | ok pairs =>
      rw [ofNames, hpairs] at h
      obtain ⟨pairs', hpairs', hperm⟩ := resolve_perm hsort hpairs
      exact ⟨pairs', hpairs', ofPairs_eq_ok_of_perm hperm h⟩
  . rintro ⟨pairs, hpairs, h⟩
    obtain ⟨pairs', hpairs', hperm⟩ := resolve_perm hsort.symm hpairs
    rw [ofNames, hpairs']
    exact ofPairs_eq_ok_of_perm hperm h

/--
Whether two assignments give the same codes to the same symbols, perhaps in another order and under
the other name of a symbol.
-/
def Renamed (names names' : List (String × UInt32)) : Prop :=
  ∃ reordered, names.Perm reordered ∧
    List.Forall₂ (fun p q => p.2 = q.2 ∧ ∃ s, Calls p.1 s ∧ Calls q.1 s) reordered names'

theorem resolve_eq_ok_of_renamed {reordered : List (String × UInt32)}
    (h : List.Forall₂ (fun p q => p.2 = q.2 ∧ ∃ s, Calls p.1 s ∧ Calls q.1 s) reordered names')
    (hpairs : resolve reordered = .ok pairs) : resolve names' = .ok pairs := by
  rw [resolve_eq_ok_iff] at hpairs ⊢
  rw [← hpairs]
  clear hpairs
  induction h with
  | nil => rfl
  | @cons p q _ _ hpq _ ih =>
    obtain ⟨hcode, s, hp, hq⟩ := hpq
    rw [List.map_cons, List.map_cons, ih, hcode, calls_iff.1 hp, calls_iff.1 hq]

theorem ofNames_eq_ok_of_renamed (h : Renamed names names')
    (hok : ofNames names separator = .ok t) : ofNames names' separator = .ok t := by
  obtain ⟨reordered, hperm, hrenamed⟩ := h
  obtain ⟨pairs, hpairs, hok⟩ := ofNames_eq_ok_iff.1 hok
  obtain ⟨pairs', hpairs', hpermPairs⟩ := resolve_perm hperm hpairs
  exact ofNames_eq_ok_iff.2
    ⟨pairs', resolve_eq_ok_of_renamed hrenamed hpairs', ofPairs_eq_ok_of_perm hpermPairs hok⟩

theorem ofDocument_eq_ofNames {text : String}
    (h : (Toml.read? text).bind settings? = some (separator, names)) :
    ofDocument text = ofNames names separator := by
  rw [ofDocument, h]

theorem ofDocument_outcome {text : String}
    (h : (Toml.read? text).bind settings? = some (separator, names)) :
    (∀ r, ofDocument text = r ↔ Outcome names separator r) ∧
      ∀ text' names', (Toml.read? text').bind settings? = some (separator, names') →
        Renamed names names' → ∀ t, ofDocument text = .ok t → ofDocument text' = .ok t := by
  have hkeys := nodup_of_document h
  have houtcome := outcome_ofNames hkeys separator
  rw [ofDocument_eq_ofNames h]
  constructor
  . intro r
    constructor
    . rintro rfl
      exact houtcome
    . exact houtcome.unique hkeys
  . intro text' names' h' hrenamed t ht
    rw [ofDocument_eq_ofNames h']
    exact ofNames_eq_ok_of_renamed hrenamed ht

theorem ofDocument_outcome_standard :
    Outcome (Symbol.alphabet.map fun s => (s.asciiName, s.standardCode)) 0 (.ok standard) ∧
      Renamed (Symbol.alphabet.map fun s => (s.asciiName, s.standardCode))
        (Symbol.alphabet.reverse.map fun s =>
          (if s = .all then s.glyph else s.asciiName, s.standardCode)) ∧
      ofDocument ("[codes]\nproof=17\ntimes=16\nnot=15\nor=14\nand=13\nexists=12\n\"∀\"=11\n" ++
        "star=9\nvar=8\nrparen=7\nlparen=6\nlt=5\neq=4\nplus=3\nsucc=2\nzero=1") =
        .ok standard := by
  have hread : (Toml.read? ("[codes]\nzero=1\nsucc=2\nplus=3\neq=4\nlt=5\nlparen=6\nrparen=7\n" ++
      "var=8\nstar=9\nforall=11\nexists=12\nand=13\nor=14\nnot=15\ntimes=16\nproof=17")).bind
      settings? = some (0, Symbol.alphabet.map fun s => (s.asciiName, s.standardCode)) := by
    decide +kernel
  have hread' : (Toml.read?
      ("[codes]\nproof=17\ntimes=16\nnot=15\nor=14\nand=13\nexists=12\n\"∀\"=11\n" ++
        "star=9\nvar=8\nrparen=7\nlparen=6\nlt=5\neq=4\nplus=3\nsucc=2\nzero=1")).bind settings? =
      some (0, Symbol.alphabet.reverse.map fun s =>
        (if s = .all then s.glyph else s.asciiName, s.standardCode)) := by
    decide +kernel
  have hrenamed : Renamed (Symbol.alphabet.map fun s => (s.asciiName, s.standardCode))
      (Symbol.alphabet.reverse.map fun s =>
        (if s = .all then s.glyph else s.asciiName, s.standardCode)) := by
    refine ⟨Symbol.alphabet.reverse.map fun s => (s.asciiName, s.standardCode), ?_, ?_⟩
    . exact (List.reverse_perm Symbol.alphabet).symm.map _
    . rw [List.forall₂_map_left_iff, List.forall₂_map_right_iff, List.forall₂_same]
      intro s _
      refine ⟨rfl, s, .inr rfl, ?_⟩
      dsimp only
      split
      . exact .inl rfl
      . exact .inr rfl
  obtain ⟨hresult, hnames⟩ := ofDocument_outcome hread
  have hok := (ofDocument_eq_ofNames hread).trans
    (ofNames_eq_ok_iff.2 ⟨standard.toPairs, rfl, ofPairs_toPairs standard⟩)
  exact ⟨(hresult _).1 hok, hrenamed, hnames _ _ hread' hrenamed _ hok⟩

end CodeTable

end Arithmetization
