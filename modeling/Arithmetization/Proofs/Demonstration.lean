import Arithmetization.Proofs.Arguments
import Arithmetization.Proofs.Growth
import Arithmetization.Proofs.Numeral
import Arithmetization.Proofs.Refusal

/-!
This module contains the outcome of the demonstration program. Under every table the code of its
template exceeds every limit that can be given, so that the program never has a unary numeral to
print; compact numerals have no limit, and the sentence with one is always printed.
-/

namespace Arithmetization

def unprovable (t : Term) : Formula :=
  .all ⟨1⟩ (.not (.proof (.var ⟨1⟩) t))

theorem unprovability_eq : unprovability .x Variable.x.next = unprovable (.var ⟨0⟩) := rfl

theorem subst_unprovable (r : Term) : (unprovable (.var ⟨0⟩)).subst ⟨0⟩ r = unprovable r := rfl

theorem CodeTable.uint64_size_le_number_unprovable (t : CodeTable) :
    UInt64.size ≤ t.number (unprovable (.var ⟨0⟩)).word := by
  have hlength : 11 < (unprovable (.var ⟨0⟩)).word.length := by decide
  have hsize : UInt64.size ≤ 100 ^ 11 := by decide
  exact Nat.le_trans hsize (t.hundred_pow_le_number (by decide) hlength)

namespace Diagonalizer

variable {d : Diagonalizer}

theorem check_unprovable : check (unprovable (.var ⟨0⟩)) ⟨0⟩ = .ok () :=
  check_eq_ok_iff.2 (by decide)

theorem goedelSentence_unary {limit : Nat} (hform : d.form = .unary) (hlimit : d.limit = some limit)
    (hlt : limit < UInt64.size) :
    d.goedelSentence.result =
      .error (.numeralTooLarge (d.table.number (unprovable (.var ⟨0⟩)).word) limit) := by
  have hle := d.table.uint64_size_le_number_unprovable
  rw [goedelSentence, unprovability_eq]
  exact diagonalize_of_exceeds check_unprovable ⟨hform, hlimit, Nat.lt_of_lt_of_le hlt hle⟩

theorem goedelSentence_compact (hform : d.form = .compact) :
    d.goedelSentence.result =
      .ok (unprovable (.compact (d.table.number (unprovable (.var ⟨0⟩)).word))) := by
  rw [goedelSentence, unprovability_eq]
  refine diagonalize_eq_ok_iff.2 ⟨check_unprovable, _, ?_, (subst_unprovable _).symm⟩
  rw [result_numeral, hform]

end Diagonalizer

namespace Demo

variable {o : Options} {file : String → String} {color : Bool} {arguments : List String}
  {table : CodeTable}

/--
What the program does on its arguments, where `file` is the text at each path.
-/
def outcome (file : String → String) (color : Bool) (arguments : List String) : Outcome :=
  Id.run (invoke (fun path => pure (file path)) (pure color) arguments)

def Options.chosenTable (o : Options) (file : String → String) : Except Error CodeTable :=
  match o.table with
  | none => .ok .standard
  | some path => CodeTable.ofDocument (file path)

def refusalText (color : Bool) (code limit : Nat) : String :=
  let line := "Diagonalization failed: " ++ "Refusing to build the numeral of `" ++ code.repr ++
    "`: it exceeds the configured limit of `" ++ limit.repr ++ "` successor applications." ++ "\n"
  if color then "\x1b[0m\x1b[38;5;9m" ++ line ++ "\x1b[0m" else line

def sentenceText (color : Bool) (width : Nat) (s : Formula) : String :=
  let title := "Gödel sentence (" ++ s.size.repr ++ " nodes):\n"
  if color then
    "\x1b[0m\x1b[38;5;10m" ++ title ++ "\x1b[0m" ++
      (Expression.formula s).printColored width ++ "\n"
  else
    title ++ (Expression.formula s).print width ++ "\n"

theorem source_table (o : Options) (file : String → String) :
    (source (o.table.map file)).table = o.chosenTable file := by
  rw [Options.chosenTable]
  cases o.table <;> rfl

theorem diagonalizer_eq (o : Options) (table : CodeTable) :
    diagonalizer o table =
      { table
        form := if o.unary then .unary else .compact
        limit := some (o.limit.getD 10000) } := by
  unfold diagonalizer
  cases o.limit <;> rfl

theorem exists_preamble_eq (width : Nat) (color : Bool) (table : CodeTable) :
    ∃ text, preamble width color table = text ++ "\n" := by
  unfold preamble numbered
  simp only [toString, ← String.append_assoc]
  exact ⟨_, rfl⟩

theorem refusalText_eq (color : Bool) (code limit : Nat) :
    refusalText color code limit =
      painted color failureLook
        s!"Diagonalization failed: {(Error.numeralTooLarge code limit).message}\n" := by
  have hmessage : (Error.numeralTooLarge code limit).message =
      "Refusing to build the numeral of `" ++ Decimal.text code ++
        "`: it exceeds the configured " ++
          ("limit of `" ++ Decimal.text limit ++ "` successor applications.") := rfl
  have hconfigured : "`: it exceeds the configured limit of `" =
      "`: it exceeds the configured " ++ "limit of `" := by simp
  have hline : "Diagonalization failed: " ++ "Refusing to build the numeral of `" ++ code.repr ++
      "`: it exceeds the configured limit of `" ++ limit.repr ++ "` successor applications." ++
        "\n" =
      "Diagonalization failed: " ++ (Error.numeralTooLarge code limit).message ++ "\n" := by
    rw [hmessage, Decimal.text_eq_repr, Decimal.text_eq_repr, hconfigured]
    simp only [String.append_assoc, -String.reduceAppend]
  rw [refusalText, hline]
  rfl

theorem sentenceText_eq (color : Bool) (width : Nat) (s : Formula) :
    sentenceText color width s =
      painted color titleLook s!"Gödel sentence ({s.size} nodes):\n" ++
        formulaLines width color s := by
  cases color with
  | false => exact String.append_assoc ..
  | true => exact String.append_assoc ..

section

variable (color : Bool)

theorem sentenceLines_unary (hunary : o.unary = true)
    (hlimit : o.limit.getD 10000 < UInt64.size) :
    sentenceLines o color table =
      refusalText color (table.number (unprovable (.var ⟨0⟩)).word) (o.limit.getD 10000) := by
  have h : (diagonalizer o table).goedelSentence.result = .error (.numeralTooLarge
      (table.number (unprovable (.var ⟨0⟩)).word) (o.limit.getD 10000)) := by
    rw [diagonalizer_eq, hunary]
    exact Diagonalizer.goedelSentence_unary rfl rfl hlimit
  rw [Attempt.result] at h
  rw [sentenceLines, h, refusalText_eq]

theorem sentenceLines_compact (hcompact : o.unary = false) :
    sentenceLines o color table =
      sentenceText color (o.width.getD 80)
        (unprovable (.compact (table.number (unprovable (.var ⟨0⟩)).word))) := by
  have h : (diagonalizer o table).goedelSentence.result =
      .ok (unprovable (.compact (table.number (unprovable (.var ⟨0⟩)).word))) := by
    rw [diagonalizer_eq, hcompact]
    exact Diagonalizer.goedelSentence_compact rfl
  rw [Attempt.result] at h
  rw [sentenceLines, h, sentenceText_eq]
  rfl

end

theorem outcome_of_given (h : o.Given arguments) :
    outcome file color arguments = run o (o.table.map file) color := by
  rw [outcome, invoke, Options.ofArguments?_eq_some_iff.2 h]
  cases hpath : o.table with
  | none | some path => simp [hpath]

theorem outcome_of_valid (h : o.Given arguments) (htable : o.chosenTable file = .ok table) :
    outcome file color arguments = { stdout := report o color table } := by
  rw [outcome_of_given h, run, source_table, htable]

theorem outcome_of_invalid {e : Error} (h : o.Given arguments)
    (htable : o.chosenTable file = .error e) :
    outcome file color arguments =
      { status := 1, stderr := s!"Invalid code table: {e.message}\n" } := by
  rw [outcome_of_given h, run, source_table, htable]

theorem limit_lt_of_given (h : o.Given arguments) : o.limit.getD 10000 < UInt64.size := by
  cases hlimit : o.limit with
  | none => decide
  | some limit => exact Options.exists_given_iff.1 ⟨arguments, h⟩ limit (.inl hlimit)

theorem outcome_prints_compact_only (o : Options) (file : String → String) (color : Bool) :
    ((∃ arguments, o.Given arguments) ↔
      ∀ n, o.limit = some n ∨ o.width = some n → n < UInt64.size) ∧
    ∀ arguments, o.Given arguments →
      ((outcome file color arguments).status = 1 ∧ (outcome file color arguments).stdout = "" ↔
        ∃ e, o.chosenTable file = .error e) ∧
      ((outcome file color arguments).status = 0 ↔ ∃ table, o.chosenTable file = .ok table) ∧
      ∀ table, o.chosenTable file = .ok table →
        ∃ text code, table.number? (unprovable (.var ⟨0⟩)).word = some code ∧
          (Term.compact code).value? = some code ∧
          (∀ limit, (Diagonalizer.goedelSentence { table, form := .compact, limit }).result =
            .ok (unprovable (.compact code))) ∧
          (outcome file color arguments).stdout = text ++ "\n" ++
            if o.unary then
              refusalText color code (o.limit.getD 10000)
            else
              sentenceText color (o.width.getD 80) (unprovable (.compact code)) := by
  refine ⟨Options.exists_given_iff, fun arguments h => ?_⟩
  cases htable : o.chosenTable file with
  | error e => simp [outcome_of_invalid h htable]
  | ok table =>
    rw [outcome_of_valid h htable]
    refine ⟨by simp, by simp, ?_⟩
    rintro _ ⟨⟩
    obtain ⟨text, htext⟩ := exists_preamble_eq (o.width.getD 80) color table
    have hcode := table.number?_eq_some (unprovable (.var ⟨0⟩)).word_ne_nil
    refine ⟨text, _, hcode, Term.value?_compact _,
      fun limit => Diagonalizer.goedelSentence_compact rfl, ?_⟩
    have hpreamble : preamble o.lineWidth color table = text ++ "\n" := htext
    rw [report, hpreamble]
    split
    next hunary => rw [sentenceLines_unary color hunary (limit_lt_of_given h)]
    next hcompact =>
      rw [Bool.not_eq_true] at hcompact
      rw [sentenceLines_compact color hcompact]

theorem outcome_prints_compact_only_runs :
    (Options.Given { unary := true, limit := some 9 } ["-ul", "9"] ∧
      (outcome (fun _ => "") false ["-ul", "9"]).status = 0 ∧
      ∃ text, (outcome (fun _ => "") false ["-ul", "9"]).stdout = text ++ "\n" ++
        ("Diagonalization failed: Refusing to build the numeral of " ++
          "`11080906015060809017080707`: it exceeds the configured limit of `9` " ++
          "successor applications.\n")) ∧
    (Options.Given { limit := some 9, width := some 40 } ["--limit=9", "-w", "40"] ∧
      (outcome (fun _ => "") true ["--limit=9", "-w", "40"]).status = 0 ∧
      ∃ text, (outcome (fun _ => "") true ["--limit=9", "-w", "40"]).stdout = text ++ "\n" ++
        ("\x1b[0m\x1b[38;5;10mGödel sentence (378 nodes):\n\x1b[0m" ++
          (Expression.formula
            (unprovable (.compact 11080906015060809017080707))).printColored 40 ++ "\n")) ∧
    Options.Given { table := some "t" } ["-tt"] ∧
      (outcome (fun _ => "") false ["-tt"]).status = 1 ∧
      (outcome (fun _ => "") false ["-tt"]).stdout = "" := by
  have hoperand (s : String) (h : s.toList.head? ≠ some '-') : IsOperand s := by
    intro c cs hs
    simp [hs] at h
  have hlimit : Setting.HasValue "9" (.limit 9) := ⟨by decide, by decide⟩
  have hwidth : Setting.HasValue "40" (.width 40) := ⟨by decide, by decide⟩
  have hunary : Options.Given { unary := true, limit := some 9 } ["-ul", "9"] := by
    have hcluster : Cluster [.unary, .limit 9] ['u', 'l'] ["9"] :=
      .unary (.separate (s := .limit 9) hlimit (hoperand _ (by decide)))
    exact ⟨[.unary, .limit 9], .refl _, .next (.cluster hcluster (by simp)) .nil⟩
  have hcompact :
      Options.Given { limit := some 9, width := some 40 } ["--limit=9", "-w", "40"] := by
    have hcluster : Cluster [.width 40] ['w'] ["40"] :=
      .separate (s := .width 40) hwidth (hoperand _ (by decide))
    have hjoined : SpelledNext [.limit 9] ["--limit=9"] := .joined (s := .limit 9) hlimit
    exact ⟨[.limit 9, .width 40], .refl _, .next hjoined (.next (.cluster hcluster (by simp)) .nil)⟩
  have htable : Options.Given { table := some "t" } ["-tt"] := by
    have hcluster : Cluster [.table "t"] ['t', 't'] [] :=
      .attached (s := .table "t") rfl (by simp) (by simp)
    exact ⟨[.table "t"], .refl _, .next (.cluster hcluster (by simp)) .nil⟩
  have hnumber : CodeTable.standard.number? (unprovable (.var ⟨0⟩)).word =
      some 11080906015060809017080707 := by decide
  have hinvalid : CodeTable.ofDocument "" = .error .unreadableTable := by decide
  have hrepr : Nat.repr 11080906015060809017080707 = "11080906015060809017080707" := by
    decide +kernel
  have hsize : (unprovable (.compact 11080906015060809017080707)).size = 378 := by decide +kernel
  refine ⟨⟨hunary, ?_⟩, ⟨hcompact, ?_⟩, htable, ?_⟩
  . obtain ⟨_, hstatus, hstdout⟩ :=
      (outcome_prints_compact_only { unary := true, limit := some 9 } (fun _ => "") false).2 _
        hunary
    obtain ⟨text, code, hcode, _, _, htext⟩ := hstdout .standard rfl
    obtain rfl : code = 11080906015060809017080707 := Option.some.inj (hcode.symm.trans hnumber)
    refine ⟨hstatus.2 ⟨_, rfl⟩, text, ?_⟩
    rw [htext, if_pos rfl, refusalText, hrepr]
    rfl
  . obtain ⟨_, hstatus, hstdout⟩ :=
      (outcome_prints_compact_only { limit := some 9, width := some 40 } (fun _ => "") true).2 _
        hcompact
    obtain ⟨text, code, hcode, _, _, htext⟩ := hstdout .standard rfl
    obtain rfl : code = 11080906015060809017080707 := Option.some.inj (hcode.symm.trans hnumber)
    refine ⟨hstatus.2 ⟨_, rfl⟩, text, ?_⟩
    rw [htext, if_neg Bool.false_ne_true, sentenceText, hsize]
    rfl
  . obtain ⟨hstatus, _⟩ :=
      (outcome_prints_compact_only { table := some "t" } (fun _ => "") false).2 _ htable
    exact hstatus.2 ⟨_, hinvalid⟩

end Demo

end Arithmetization
