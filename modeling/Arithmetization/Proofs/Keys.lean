import Arithmetization.Code.Source
import Mathlib.Data.List.Nodup

/-!
This module contains the proof that a TOML document gives no key twice. What defines or extends a
table changes the value of one key, or adds a key that is not there yet; so the keys of every table
stay distinct, at any depth, while the document is read.
-/

namespace Arithmetization

namespace Toml

inductive Value.Distinct : Value → Prop where
  | string (s : String) : Distinct (.string s)
  | integer (n : Int) : Distinct (.integer n)
  | float (literal : String) : Distinct (.float literal)
  | boolean (b : Bool) : Distinct (.boolean b)
  | moment (literal : String) : Distinct (.moment literal)
  | array {items : List Value} (h : ∀ v ∈ items, Distinct v) : Distinct (.array items)
  | tables {items : List Value} (h : ∀ v ∈ items, Distinct v) : Distinct (.tables items)
  | table {origin : Origin} {entries : List (String × Value)}
    (hkeys : (entries.map Prod.fst).Nodup) (hvalues : ∀ e ∈ entries, Distinct e.2) :
    Distinct (.table origin entries)

structure Entries.Distinct (entries : Entries) : Prop where
  keys : (entries.map Prod.fst).Nodup
  values : ∀ e ∈ entries, e.2.Distinct

theorem Value.distinct_table_iff {origin : Origin} {entries : Entries} :
    (Value.table origin entries).Distinct ↔ entries.Distinct := by
  constructor
  . intro h
    cases h with
    | table hkeys hvalues => exact ⟨hkeys, hvalues⟩
  . intro h
    exact .table h.keys h.values

theorem Value.distinct_tables_iff {items : List Value} :
    (Value.tables items).Distinct ↔ ∀ v ∈ items, v.Distinct := by
  constructor
  . intro h
    cases h with
    | tables h => exact h
  . exact .tables

theorem Value.distinct_tables_append {items : List Value} {v : Value}
    (h : ∀ w ∈ items, w.Distinct) (hv : v.Distinct) :
    (Value.tables (items ++ [v])).Distinct := by
  rw [distinct_tables_iff, List.forall_mem_append]
  exact ⟨h, by simpa using hv⟩

namespace Entries

theorem distinct_nil : Distinct [] := ⟨List.nodup_nil, by simp⟩

theorem distinct_cons_iff {key : String} {v : Value} {entries : Entries} :
    Distinct ((key, v) :: entries) ↔
      ¬ key ∈ entries.map Prod.fst ∧ v.Distinct ∧ entries.Distinct := by
  constructor
  . rintro ⟨hkeys, hvalues⟩
    rw [List.map_cons, List.nodup_cons] at hkeys
    rw [List.forall_mem_cons] at hvalues
    exact ⟨hkeys.1, hvalues.1, hkeys.2, hvalues.2⟩
  . rintro ⟨hkey, hv, hkeys, hvalues⟩
    exact ⟨List.nodup_cons.2 ⟨hkey, hkeys⟩, List.forall_mem_cons.2 ⟨hv, hvalues⟩⟩

def Keeps (f : Entries → Option Entries) : Prop :=
  ∀ entries entries', entries.Distinct → f entries = some entries' → entries'.Distinct

def KeepsValue (f : Option Value → Option Value) : Prop :=
  ∀ v? v, (∀ w, v? = some w → w.Distinct) → f v? = some v → v.Distinct

variable {key : String} {f : Option Value → Option Value}

theorem mem_keys_of_alter {entries entries' : Entries} {k : String}
    (h : entries.alter key f = some entries') (hk : k ∈ entries'.map Prod.fst) :
    k = key ∨ k ∈ entries.map Prod.fst := by
  induction entries generalizing entries' with
  | nil =>
    obtain ⟨v, _, rfl⟩ := Option.map_eq_some_iff.1 h
    simpa using hk
  | cons e rest ih =>
    rw [alter] at h
    split at h
    . obtain ⟨v, _, rfl⟩ := Option.map_eq_some_iff.1 h
      rw [List.map_cons, List.mem_cons] at hk
      exact hk.imp_right (List.mem_cons_of_mem _)
    . obtain ⟨rest', hrest, rfl⟩ := Option.map_eq_some_iff.1 h
      rw [List.map_cons, List.mem_cons] at hk
      obtain rfl | hk := hk
      . exact .inr (List.mem_cons_self ..)
      . exact (ih hrest hk).imp_right (List.mem_cons_of_mem _)

theorem keeps_alter (hf : KeepsValue f) : Keeps (alter key f) := by
  intro entries
  induction entries with
  | nil =>
    intro entries' _ h
    obtain ⟨v, hv, rfl⟩ := Option.map_eq_some_iff.1 h
    exact distinct_cons_iff.2 ⟨by simp, hf none v (by simp) hv, distinct_nil⟩
  | cons e rest ih =>
    intro entries' hdistinct h
    obtain ⟨hfresh, hvalue, hrest⟩ := distinct_cons_iff.1 hdistinct
    rw [alter] at h
    split at h
    next heq =>
      obtain ⟨v, hv, rfl⟩ := Option.map_eq_some_iff.1 h
      rw [heq] at hfresh
      refine distinct_cons_iff.2 ⟨hfresh, hf (some e.2) v ?_ hv, hrest⟩
      rintro w ⟨⟩
      exact hvalue
    next hne =>
      obtain ⟨rest', hrest', rfl⟩ := Option.map_eq_some_iff.1 h
      refine distinct_cons_iff.2 ⟨?_, hvalue, ih rest' hrest hrest'⟩
      intro hmem
      obtain heq | hmem := mem_keys_of_alter hrest' hmem
      . exact hne heq
      . exact hfresh hmem

theorem keeps_within {f : Entries → Option Entries} (hf : Keeps f) (route : Route)
    (path : List String) : Keeps (within route path f) := by
  induction path with
  | nil => exact hf
  | cons key path ih =>
    apply keeps_alter
    intro v? v hold hv
    have hmade {origin : Origin} {inner : Entries} (hinner : inner.Distinct)
        (h : (within route path f inner).map (.table origin ·) = some v) : v.Distinct := by
      obtain ⟨inner', hinner', rfl⟩ := Option.map_eq_some_iff.1 h
      exact Value.distinct_table_iff.2 (ih _ _ hinner hinner')
    dsimp only at hv
    split at hv
    . exact hmade distinct_nil hv
    . split at hv
      . exact hmade (Value.distinct_table_iff.1 (hold _ rfl)) hv
      . contradiction
    next items =>
      have hitems := Value.distinct_tables_iff.1 (hold _ rfl)
      split at hv
      next origin inner hlast =>
        split at hv
        . obtain ⟨inner', hinner', rfl⟩ := Option.map_eq_some_iff.1 hv
          have hinner := Value.distinct_table_iff.1 (hitems _ (List.mem_of_getLast? hlast))
          apply Value.distinct_tables_append
          . exact fun w hw => hitems w (List.dropLast_subset items hw)
          . exact Value.distinct_table_iff.2 (ih _ _ hinner hinner')
        . contradiction
      . contradiction
    . contradiction

theorem keeps_define (path : List String) (key : String) {v : Value} (hv : v.Distinct) :
    Keeps (define path key v) := by
  apply keeps_within
  apply keeps_alter
  intro v? w _ hw
  dsimp only at hw
  split at hw
  . obtain rfl := Option.some.inj hw
    exact hv
  . contradiction

theorem keeps_openTable (path : List String) (key : String) : Keeps (openTable path key) := by
  apply keeps_within
  apply keeps_alter
  intro v? w hold hw
  dsimp only at hw
  split at hw
  . obtain rfl := Option.some.inj hw
    exact Value.distinct_table_iff.2 distinct_nil
  . obtain rfl := Option.some.inj hw
    exact Value.distinct_table_iff.2 (Value.distinct_table_iff.1 (hold _ rfl))
  . contradiction

theorem keeps_appendTable (path : List String) (key : String) :
    Keeps (appendTable path key) := by
  have hitem : (Value.table .item []).Distinct := Value.distinct_table_iff.2 distinct_nil
  apply keeps_within
  apply keeps_alter
  intro v? w hold hw
  dsimp only at hw
  split at hw
  . obtain rfl := Option.some.inj hw
    exact Value.distinct_tables_iff.2 (by simpa using hitem)
  . obtain rfl := Option.some.inj hw
    exact Value.distinct_tables_append (Value.distinct_tables_iff.1 (hold _ rfl)) hitem
  . contradiction

end Entries

namespace Reader

variable {α β : Type} {P : α → Prop} {Q : β → Prop}

structure Ensures (r : Reader α) (P : α → Prop) : Prop where
  found : ∀ cs a rest, r cs = some (a, rest) → P a

theorem ensures_bind {r : Reader α} {f : α → Reader β} (hr : r.Ensures P)
    (hf : ∀ a, P a → (f a).Ensures Q) : (r >>= f).Ensures Q := by
  constructor
  intro cs b rest h
  obtain ⟨⟨a, rest'⟩, ha, hb⟩ := Option.bind_eq_some_iff.1 h
  exact (hf a (hr.found cs a rest' ha)).found rest' b rest hb

theorem ensures_true (r : Reader α) : r.Ensures fun _ => True := ⟨fun _ _ _ _ => trivial⟩

theorem ensures_after {r : Reader α} {f : α → Reader β} (hf : ∀ a, (f a).Ensures Q) :
    (r >>= f).Ensures Q :=
  ensures_bind r.ensures_true fun a _ => hf a

theorem ensures_pure {a : α} (h : P a) : (pure a : Reader α).Ensures P := by
  constructor
  rintro cs b rest ⟨⟩
  exact h

theorem ensures_failure : (failure : Reader α).Ensures P := by
  constructor
  intro cs a rest h
  contradiction

theorem Ensures.of_readAll? {r : Reader α} (hr : r.Ensures P) {cs : List Char} {a : α}
    (h : r.readAll? cs = some a) : P a := by
  unfold readAll? at h
  split at h
  next hcs =>
    obtain rfl := Option.some.inj h
    exact hr.found cs _ [] hcs
  . contradiction

end Reader

open Reader

theorem distinct_of_bareValue?_eq_some {cs : List Char} {v : Value} (h : bareValue? cs = some v) :
    v.Distinct := by
  unfold bareValue? at h
  repeat' split at h
  . obtain rfl := Option.some.inj h
    exact .boolean _
  . obtain rfl := Option.some.inj h
    exact .boolean _
  . obtain rfl := Option.some.inj h
    exact .integer _
  . obtain rfl := Option.some.inj h
    exact .float _
  . obtain rfl := Option.some.inj h
    exact .moment _
  . contradiction

theorem ensures_bareValue : bareValue.Ensures Value.Distinct := by
  unfold bareValue
  apply ensures_after
  intro cs
  apply ensures_after
  intro rest
  -- Date and time may be parted by one blank.
  dsimp only
  split
  on_goal 1 => split
  on_goal 1 =>
    apply ensures_after
    intro _
    apply ensures_after
    intro time
  all_goals
    apply ensures_after
    intro cs'
    split
    next h => exact ensures_pure (distinct_of_bareValue?_eq_some h)
    . exact ensures_failure

theorem ensures_flatValue : flatValue.Ensures Value.Distinct := by
  apply ensures_after
  intro c?
  split
  . apply ensures_after
    exact fun s => ensures_pure (.string s)
  . apply ensures_after
    exact fun s => ensures_pure (.string s)
  . exact ensures_bareValue

variable {item : Reader Value}

theorem ensures_arrayItems (hitem : item.Ensures Value.Distinct) (fuel : Nat) :
    (arrayItems item fuel).Ensures fun items => ∀ v ∈ items, v.Distinct := by
  induction fuel with
  | zero => exact ensures_failure
  | succ fuel ih =>
    rw [arrayItems]
    apply ensures_after
    intro _
    apply ensures_after
    intro closed
    split
    . exact ensures_pure (by simp)
    . apply ensures_bind hitem
      intro v hv
      apply ensures_after
      intro _
      apply ensures_after
      intro more
      split
      . apply ensures_bind ih
        intro items hitems
        exact ensures_pure (List.forall_mem_cons.2 ⟨hv, hitems⟩)
      . apply ensures_after
        intro _
        exact ensures_pure (by simpa using hv)

theorem ensures_definition (space : Reader Unit) (hitem : item.Ensures Value.Distinct)
    {define : List String → String → Value → Option Entries}
    (hdefine : ∀ path key v entries, v.Distinct → define path key v = some entries →
      entries.Distinct) :
    (definition space item define).Ensures Entries.Distinct := by
  rw [definition]
  apply ensures_after
  rintro ⟨path, last⟩
  apply ensures_after
  intro _
  apply ensures_after
  intro _
  apply ensures_after
  intro _
  apply ensures_bind hitem
  intro v hv
  split
  . exact ensures_pure (hdefine _ _ _ _ hv ‹_›)
  . exact ensures_failure

theorem ensures_inlineEntries (hitem : item.Ensures Value.Distinct) (fuel : Nat)
    {entries : Entries} (hentries : entries.Distinct) :
    (inlineEntries item fuel entries).Ensures Entries.Distinct := by
  induction fuel generalizing entries with
  | zero => exact ensures_failure
  | succ fuel ih =>
    rw [inlineEntries]
    apply ensures_after
    intro _
    apply ensures_after
    intro closed
    split
    . exact ensures_pure hentries
    . apply ensures_bind
      . apply ensures_definition filler hitem
        intro path key v entries' hv h
        exact Entries.keeps_define path key hv _ _ hentries h
      . intro entries' hentries'
        apply ensures_after
        intro _
        apply ensures_after
        intro more
        split
        . exact ih hentries'
        . apply ensures_after
          intro _
          exact ensures_pure hentries'

theorem ensures_value (nesting : Nat) : (value nesting).Ensures Value.Distinct := by
  induction nesting with
  | zero => exact ensures_flatValue
  | succ nesting ih =>
    rw [value]
    apply ensures_after
    intro c?
    split
    . apply ensures_after
      intro _
      apply ensures_after
      intro cs
      apply ensures_bind (ensures_arrayItems ih _)
      intro items hitems
      exact ensures_pure (.array hitems)
    . apply ensures_after
      intro _
      apply ensures_after
      intro cs
      apply ensures_bind (ensures_inlineEntries ih _ Entries.distinct_nil)
      intro entries hentries
      exact ensures_pure (Value.distinct_table_iff.2 hentries)
    . exact ensures_flatValue

theorem ensures_header {root : Entries} (hroot : root.Distinct) :
    (header root).Ensures fun opened => opened.2.Distinct := by
  rw [header]
  apply ensures_after
  intro double
  dsimp only
  split
  on_goal 1 =>
    apply ensures_after
    intro _
  all_goals
    apply ensures_after
    rintro ⟨path, last⟩
    apply ensures_after
    intro _
    split
    next root' h =>
      split at h
      . exact ensures_pure (Entries.keeps_appendTable path last _ _ hroot h)
      . exact ensures_pure (Entries.keeps_openTable path last _ _ hroot h)
    . exact ensures_failure

theorem ensures_lines (fuel : Nat) (current : List String) {root : Entries}
    (hroot : root.Distinct) : (lines fuel current root).Ensures Entries.Distinct := by
  induction fuel generalizing current root with
  | zero => exact ensures_failure
  | succ fuel ih =>
    rw [lines]
    apply ensures_after
    intro _
    apply ensures_after
    intro c?
    split
    . exact ensures_pure hroot
    . apply ensures_bind (ensures_header hroot)
      rintro ⟨current', root'⟩ hroot'
      apply ensures_after
      intro _
      exact ih current' hroot'
    . apply ensures_bind
      . apply ensures_definition blanks (ensures_value 80)
        intro path key v entries hv h
        exact Entries.keeps_within (Entries.keeps_define path key hv) _ _ _ _ hroot h
      . intro root' hroot'
        apply ensures_after
        intro _
        exact ih current hroot'

theorem distinct_of_read?_eq_some {s : String} {entries : Entries} (h : read? s = some entries) :
    entries.Distinct := by
  exact (ensures_lines _ [] Entries.distinct_nil).of_readAll? h

end Toml

namespace CodeTable

theorem map_fst_of_namedCodes?_eq_some {entries : Toml.Entries} {names : List (String × UInt32)}
    (h : namedCodes? entries = some names) : names.map Prod.fst = entries.map Prod.fst := by
  apply map_eq_map_of_mapM_eq_some ?_ h
  intro e p hp
  obtain ⟨n, _, rfl⟩ := Option.map_eq_some_iff.1 hp
  rfl

theorem exists_codes_of_settings?_eq_some {entries : Toml.Entries} {separator : UInt8}
    {names : List (String × UInt32)} (h : settings? entries = some (separator, names)) :
    ∃ origin codes, entries.lookup "codes" = some (.table origin codes) ∧
      namedCodes? codes = some names := by
  unfold settings? at h
  dsimp only at h
  split at h
  all_goals
    obtain ⟨_, _, h⟩ := Option.bind_eq_some_iff.1 h
    split at h
    next origin codes hlookup =>
      obtain ⟨names', hnames, h⟩ := Option.bind_eq_some_iff.1 h
      obtain ⟨_, rfl⟩ := Prod.mk.inj (Option.some.inj h)
      exact ⟨origin, codes, hlookup, hnames⟩
    . contradiction

theorem nodup_of_settings?_eq_some {entries : Toml.Entries} (hentries : entries.Distinct)
    {separator : UInt8} {names : List (String × UInt32)}
    (h : settings? entries = some (separator, names)) : (names.map Prod.fst).Nodup := by
  obtain ⟨origin, codes, hlookup, hnames⟩ := exists_codes_of_settings?_eq_some h
  obtain ⟨before, after, rfl, _⟩ := List.lookup_eq_some_iff.1 hlookup
  have htable := hentries.values ("codes", .table origin codes) (by simp)
  rw [map_fst_of_namedCodes?_eq_some hnames]
  exact (Toml.Value.distinct_table_iff.1 htable).keys

theorem nodup_of_document {text : String} {separator : UInt8} {names : List (String × UInt32)}
    (h : (Toml.read? text).bind settings? = some (separator, names)) :
    (names.map Prod.fst).Nodup := by
  obtain ⟨entries, hentries, hsettings⟩ := Option.bind_eq_some_iff.1 h
  exact nodup_of_settings?_eq_some (Toml.distinct_of_read?_eq_some hentries) hsettings

end CodeTable

end Arithmetization
