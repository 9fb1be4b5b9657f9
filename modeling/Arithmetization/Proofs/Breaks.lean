import Arithmetization.Proofs.Lines
import Arithmetization.Proofs.Printing

/-!
This module contains the places of breaks in printed expressions. There is one before each
conjunction or disjunction sign and one after the variable of each quantifier, and no line is too
long that has a flat break. So a line that is too long has such a sign at its beginning only, and
the variable of a quantifier at its end only.
-/

namespace Arithmetization

open Layout

namespace Print

def connectives : List Char := ['∧', '∨']

def quantifiers : List Char := ['∀', '∃']

theorem not_mem_quantifiers {c : Char} (hc : c ∈ connectives) : ¬ c ∈ quantifiers := by
  simp only [connectives, List.mem_cons, List.not_mem_nil, or_false] at hc
  rcases hc with rfl | rfl <;> decide

def Plain (c : Char) : Prop :=
  ¬ c ∈ connectives ∧ ¬ c ∈ quantifiers ∧ c ≠ '\n'

instance (c : Char) : Decidable (Plain c) :=
  inferInstanceAs (Decidable (_ ∧ _ ∧ _))

inductive Marked : List Cell → Prop where
  | nil : Marked []
  | plain {c : Char} {cells : List Cell} (hc : Plain c) (h : Marked cells) :
    Marked (.char c :: cells)
  | gap {cells : List Cell} (n : Nat) (h : Marked cells) : Marked (.gap n :: cells)
  | connective {c : Char} {cells : List Cell} (n : Nat) (hc : c ∈ connectives)
    (h : Marked cells) : Marked (.gap n :: .char c :: cells)
  | quantifier {c : Char} {cells : List Cell} (hc : c ∈ quantifiers) (v : Variable) (n : Nat)
    (h : Marked cells) : Marked (.char c :: (v.letters.map .char ++ .gap n :: cells))

def Placed (pre : List Cell) (c : Char) (post : List Cell) : Prop :=
  Plain c ∨ (c ∈ connectives ∧ ∃ before n, pre = before ++ [.gap n]) ∨
    (c ∈ quantifiers ∧ ∃ (v : Variable) (n : Nat) (after : List Cell),
      post = v.letters.map .char ++ .gap n :: after)

theorem Placed.append_left {pre post : List Cell} {c : Char} (h : Placed pre c post)
    (front : List Cell) : Placed (front ++ pre) c post := by
  rcases h with hc | ⟨hc, before, n, rfl⟩ | hc
  . exact .inl hc
  . exact .inr (.inl ⟨hc, front ++ before, n, (List.append_assoc ..).symm⟩)
  . exact .inr (.inr hc)

theorem plain_of_mem_letters {c : Char} {v : Variable} (h : c ∈ v.letters) : Plain c := by
  rw [Variable.letters, List.mem_cons, List.mem_replicate] at h
  rcases h with rfl | ⟨-, rfl⟩ <;> decide

namespace Marked

variable {a b cells pre post : List Cell} {c : Char}

theorem letters (v : Variable) (h : Marked a) : Marked (v.letters.map .char ++ a) := by
  have hstars (n : Nat) : Marked ((List.replicate n '*').map .char ++ a) := by
    induction n with
    | zero => exact h
    | succ n ih => exact .plain (by decide) ih
  exact .plain (by decide) (hstars v.stars.toNat)

theorem append (ha : Marked a) (hb : Marked b) : Marked (a ++ b) := by
  induction ha with
  | nil => exact hb
  | plain hc h ih => exact .plain hc ih
  | gap n h ih => exact .gap n ih
  | connective n hc h ih => exact .connective n hc ih
  | quantifier hc v n h ih =>
    rw [List.cons_append, List.append_assoc]
    exact .quantifier hc v n ih

theorem bracketed (h : Marked a) (inParens : Bool) :
    Marked (bracketed inParens (.char '(') (.char ')') a) := by
  cases inParens with
  | false => exact h
  | true => exact .plain (by decide) (h.append (.plain (by decide) .nil))

theorem infixed_plain (hc : Plain c) (ha : Marked a) (hb : Marked b) :
    Marked (infixed (.char ' ') c a b) :=
  ha.append (.plain (by decide) (.plain hc (.plain (by decide) hb)))

theorem infixed_connective (hc : c ∈ connectives) (n : Nat) (ha : Marked a) (hb : Marked b) :
    Marked (infixed (.gap n) c a b) :=
  ha.append (.connective n hc (.plain (by decide) hb))

theorem newline_not_mem (h : Marked cells) : ¬ .char '\n' ∈ cells := by
  have hne {cs : List Char} {c : Char} (hc : c ∈ cs) (hcs : ¬ '\n' ∈ cs) : '\n' ≠ c := by
    rintro rfl
    exact hcs hc
  induction h with
  | nil => simp
  | plain hc h ih => simpa [ih] using hc.2.2.symm
  | gap n h ih => simpa using ih
  | connective n hc h ih => simpa [ih] using hne hc (by decide)
  | quantifier hc v n h ih => simpa [ih, Variable.letters] using hne hc (by decide)

theorem split_letters {text : List Char} {n : Nat} (htext : ¬ c ∈ text)
    (heq : text.map .char ++ .gap n :: a = pre ++ .char c :: post) :
    ∃ pre', pre = text.map .char ++ .gap n :: pre' ∧ a = pre' ++ .char c :: post := by
  induction text generalizing pre with
  | nil =>
    cases pre with
    | nil => simp at heq
    | cons cell pre =>
      obtain ⟨rfl, rfl⟩ := List.cons.inj heq
      exact ⟨pre, rfl, rfl⟩
  | cons d text ih =>
    rw [List.mem_cons, not_or] at htext
    cases pre with
    | nil =>
      obtain ⟨hcd, -⟩ := List.cons.inj heq
      exact absurd (Cell.char.inj hcd).symm htext.1
    | cons cell pre =>
      obtain ⟨rfl, htail⟩ := List.cons.inj heq
      obtain ⟨pre', rfl, ha⟩ := ih htext.2 htail
      exact ⟨pre', rfl, ha⟩

theorem placed (h : Marked cells) (heq : cells = pre ++ .char c :: post) : Placed pre c post := by
  induction h generalizing pre with
  | nil => simp at heq
  | plain hd h ih =>
    cases pre with
    | nil =>
      obtain ⟨⟨⟩, -⟩ := List.cons.inj heq
      exact .inl hd
    | cons cell pre => exact (ih (List.cons.inj heq).2).append_left [cell]
  | gap n h ih =>
    cases pre with
    | nil => simp at heq
    | cons cell pre => exact (ih (List.cons.inj heq).2).append_left [cell]
  | connective n hd h ih =>
    match pre with
    | [] => simp at heq
    | [cell] =>
      obtain ⟨rfl, htail⟩ := List.cons.inj heq
      obtain ⟨⟨⟩, -⟩ := List.cons.inj htail
      exact .inr (.inl ⟨hd, [], n, rfl⟩)
    | cell :: sign :: pre =>
      have htail := (List.cons.inj (List.cons.inj heq).2).2
      exact (ih htail).append_left [cell, sign]
  | quantifier hd v n h ih =>
    cases pre with
    | nil =>
      obtain ⟨⟨⟩, rfl⟩ := List.cons.inj heq
      exact .inr (.inr ⟨hd, v, n, _, rfl⟩)
    | cons cell pre =>
      -- The letters are plain, so that anything else is further on.
      by_cases hc : Plain c
      . exact .inl hc
      . have hletters : ¬ c ∈ v.letters := mt plain_of_mem_letters hc
        obtain ⟨pre', rfl, htail⟩ := split_letters hletters (List.cons.inj heq).2
        have hplaced := (ih htail).append_left (cell :: (v.letters.map .char ++ [.gap n]))
        rwa [List.cons_append, List.append_assoc] at hplaced

end Marked

/--
A line in which a conjunction or disjunction sign is the first character that is no space, and the
variable of a quantifier is the last of all.
-/
structure BrokenThroughout (l : List Char) : Prop where
  connective (pre post : List Char) (c : Char) :
    l = pre ++ c :: post → c ∈ connectives → ∀ d ∈ pre, d = ' '
  quantifier (pre post : List Char) (c : Char) :
    l = pre ++ c :: post → c ∈ quantifiers → ∃ v : Variable, post = v.letters

theorem eq_of_map_char_append {text text' : List Char} {n : Nat} {after after' : List Cell}
    (hafter : AtBreak after)
    (h : text.map .char ++ after = text'.map .char ++ .gap n :: after') : text = text' := by
  induction text generalizing text' with
  | nil =>
    cases text' with
    | nil => rfl
    | cons c text' => rcases hafter with rfl | ⟨m, rest, rfl⟩ <;> simp at h
  | cons c text ih =>
    cases text' with
    | nil => simp at h
    | cons d text' =>
      obtain ⟨⟨⟩, htail⟩ := List.cons.inj h
      rw [ih htail]

theorem split_indentation {text pre post : List Char} {c : Char} {n : Nat} (hc : c ≠ ' ')
    (h : List.replicate n ' ' ++ text = pre ++ c :: post) :
    ∃ pre', pre = List.replicate n ' ' ++ pre' ∧ text = pre' ++ c :: post := by
  rcases List.append_eq_append_iff.1 h with ⟨mid, hpre, htext⟩ | ⟨mid, hspaces, hmid⟩
  . exact ⟨mid, hpre, htext⟩
  . cases mid with
    | nil => exact ⟨[], by simpa using hspaces.symm, hmid.symm⟩
    | cons d mid =>
      obtain ⟨rfl, -⟩ := List.cons.inj hmid
      have hmem : c ∈ List.replicate n ' ' := by simp [hspaces]
      exact absurd (List.mem_replicate.1 hmem).2 hc

theorem eq_nil_of_gap_before {before cells : List Cell} {text : List Char} {n : Nat}
    (h : before ++ text.map .char = cells ++ [.gap n]) : text = [] := by
  have hlast := congrArg List.getLast? h
  cases htext : text.getLast? with
  | none => exact List.getLast?_eq_none_iff.1 htext
  | some c => simp [htext] at hlast

theorem brokenThroughout (before : List Cell) {after : List Cell} {text : List Char}
    (h : Marked (before ++ (text.map .char ++ after)))
    (hafter : AtBreak after) (n : Nat) :
    BrokenThroughout (List.replicate n ' ' ++ text) := by
  have hplaced {pre post : List Char} {c : Char} (htext : text = pre ++ c :: post) :
      Placed (before ++ pre.map .char) c (post.map .char ++ after) := by
    apply h.placed
    simp [htext]
  constructor
  . intro pre post c hl hc
    obtain ⟨pre, rfl, htext⟩ := split_indentation (by rintro rfl; exact absurd hc (by decide)) hl
    rcases hplaced htext with hplain | ⟨-, cells, m, hgap⟩ | ⟨hquantifier, -⟩
    . exact absurd hc hplain.1
    . rw [eq_nil_of_gap_before hgap, List.append_nil]
      exact fun d hd => (List.mem_replicate.1 hd).2
    . exact absurd hquantifier (not_mem_quantifiers hc)
  . intro pre post c hl hc
    obtain ⟨pre, rfl, htext⟩ := split_indentation (by rintro rfl; exact absurd hc (by decide)) hl
    rcases hplaced htext with hplain | ⟨hconnective, -⟩ | ⟨-, v, m, cells, hletters⟩
    . exact absurd hc hplain.2.1
    . exact absurd hc (not_mem_quantifiers hconnective)
    . exact ⟨v, eq_of_map_char_append hafter hletters⟩

end Print

open Print

theorem Term.marked_cells (t : Term) : Marked t.cells := by
  induction t with
  | zero => exact .plain (by decide) .nil
  | var v =>
    rw [cells, text, ← List.append_nil (List.map _ _)]
    exact .letters v .nil
  | succ t ih =>
    rw [cells, text, List.map_cons, List.map_cons, List.map_append]
    exact .plain (by decide) (.plain (by decide) (ih.append (.plain (by decide) .nil)))
  | add l r ihl ihr | mul l r ihl ihr =>
    rw [cells, text, List.map_append, List.map_cons, List.map_cons, List.map_cons, map_bracketed,
      map_bracketed]
    exact .infixed_plain (by decide) (ihl.bracketed _) (ihr.bracketed _)

theorem Formula.marked_cells (f : Formula) (quantifiers : Nat) : Marked (f.cells quantifiers) := by
  induction f generalizing quantifiers with
  | equal l r | less l r => exact .infixed_plain (by decide) l.marked_cells r.marked_cells
  | not f ih => exact .plain (by decide) ((ih _).bracketed _)
  | and l r ihl ihr | or l r ihl ihr =>
    exact .infixed_connective (by decide) _ ((ihl _).bracketed _) ((ihr _).bracketed _)
  | all v f ih | ex v f ih => exact .quantifier (by decide) v _ (ih _)
  | proof p f =>
    have hclose : Marked (f.cells ++ [.char ')']) :=
      f.marked_cells.append (.plain (by decide) .nil)
    have hpair : Marked (p.cells ++ .char ',' :: .char ' ' :: (f.cells ++ [.char ')'])) :=
      p.marked_cells.append (.plain (by decide) (.plain (by decide) hclose))
    exact .plain (by decide) (.plain (by decide) (.plain (by decide) (.plain (by decide)
      (.plain (by decide) (.plain (by decide) hpair)))))

namespace Expression

theorem marked_cells (e : Expression) : Marked e.cells := by
  cases e with
  | term t => exact t.marked_cells
  | formula f => exact f.marked_cells 0

theorem brokenThroughout_of_mem_lines {e : Expression} {width : Nat} {l : List Char}
    (hl : l ∈ lines (e.print width).toList) (hlong : width < l.length) : BrokenThroughout l := by
  obtain ⟨first, rows, hcells, htext, _, hfirst, hrows⟩ := arranged_layout e.document width
  have hmarked := e.marked_cells
  rw [← cells_document, hcells] at hmarked
  rw [print, pieces, htext, lines_joinTexts hmarked.newline_not_mem] at hl
  rcases List.mem_cons.1 hl with rfl | hl
  . rw [List.length_map] at hlong
    rw [joinRows, hfirst.eq_map_char (by omega)] at hmarked
    exact brokenThroughout [] hmarked (atBreak_flatMap rows) 0
  . obtain ⟨r, hr, rfl⟩ := List.mem_map.1 hl
    obtain ⟨before, after, hjoin, hafter⟩ := joinRows_of_mem first hr
    rw [Row.length_text] at hlong
    rw [hjoin, (hrows r hr).eq_map_char hlong] at hmarked
    exact brokenThroughout before hmarked hafter r.indentation

theorem print_wastes_no_break (e : Expression) (width : Nat) :
    (e.line.length ≤ width → e.print width = e.line) ∧
      ∀ l ∈ lines (e.print width).toList, width < l.length → BrokenThroughout l :=
  ⟨print_of_length_le, fun _ => brokenThroughout_of_mem_lines⟩

theorem print_wastes_no_break_all_less :
    let e := formula (.all .x (.and (.equal (.var .x) .zero) (.less (.var .x) .zero)))
    (e.line.length ≤ 16 ∧ e.print 16 = e.line) ∧
      ("  ∧ x < 0".toList ∈ lines (e.print 8).toList ∧ 8 < "  ∧ x < 0".toList.length ∧
        BrokenThroughout "  ∧ x < 0".toList) := by
  intro e
  have hline : e.line.length ≤ 16 := by decide
  have hmem : "  ∧ x < 0".toList ∈ lines (e.print 8).toList := by decide
  have hlong : 8 < "  ∧ x < 0".toList.length := by decide
  exact ⟨⟨hline, (print_wastes_no_break e 16).1 hline⟩, hmem, hlong,
    (print_wastes_no_break e 8).2 _ hmem hlong⟩

end Expression

end Arithmetization
