import Arithmetization.Print.Expression
import Arithmetization.Proofs.Layout

/-!
This module contains what is printed of an expression, place by place. Formulas have a break before
each conjunction or disjunction sign and after the variable of each quantifier, and every quantifier
indents the breaks of its body, and its own, by two spaces; terms have no breaks.

The main statement says that this is printed at every width, and in one line if the width allows it.
-/

namespace Arithmetization

open Layout

namespace Print

def bracketed {α : Type} (inParens : Bool) (left right : α) (inner : List α) : List α :=
  if inParens then left :: (inner ++ [right]) else inner

theorem map_bracketed {α β : Type} (f : α → β) (inParens : Bool) (left right : α)
    (inner : List α) :
    (bracketed inParens left right inner).map f =
      bracketed inParens (f left) (f right) (inner.map f) := by
  cases inParens <;> simp [bracketed]

def infixed (before : Cell) (sign : Char) (l r : List Cell) : List Cell :=
  l ++ before :: .char sign :: .char ' ' :: r

def quantified (sign : Char) (v : Variable) (indentation : Nat) (body : List Cell) : List Cell :=
  .char sign :: (v.letters.map .char ++ .gap indentation :: body)

theorem map_flat_infixed (before : Cell) (sign : Char) (l r : List Cell) :
    (infixed before sign l r).map Cell.flat =
      l.map Cell.flat ++ before.flat :: sign :: ' ' :: r.map Cell.flat := by
  simp [infixed, Cell.flat]

theorem map_flat_quantified (sign : Char) (v : Variable) (indentation : Nat) (body : List Cell) :
    (quantified sign v indentation body).map Cell.flat =
      sign :: (v.letters ++ ' ' :: body.map Cell.flat) := by
  simp [quantified, Cell.flat]

end Print

open Print

namespace Term

def text : Term → List Char
  | .zero => ['0']
  | .var v => v.letters
  | .succ t => 'S' :: '(' :: (t.text ++ [')'])
  | .add l r =>
    bracketed (l.tightness < 1) '(' ')' l.text ++ ' ' :: '+' :: ' ' ::
      bracketed (r.tightness ≤ 1) '(' ')' r.text
  | .mul l r =>
    bracketed (l.tightness < 2) '(' ')' l.text ++ ' ' :: '×' :: ' ' ::
      bracketed (r.tightness ≤ 2) '(' ')' r.text

def cells (t : Term) : List Cell :=
  t.text.map .char

@[simp]
theorem map_flat_cells (t : Term) : t.cells.map Cell.flat = t.text := by
  simp [cells]

end Term

def Formula.cells : Formula → (quantifiers : Nat) → List Cell
  | .equal l r, _ => infixed (.char ' ') '=' l.cells r.cells
  | .less l r, _ => infixed (.char ' ') '<' l.cells r.cells
  | .not f, quantifiers =>
    .char '¬' :: bracketed f.looseUnderNot (.char '(') (.char ')') (f.cells quantifiers)
  | .and l r, quantifiers =>
    infixed (.gap (2 * quantifiers)) '∧'
      (bracketed l.looseLeftOfAnd (.char '(') (.char ')') (l.cells quantifiers))
      (bracketed r.looseOnRight (.char '(') (.char ')') (r.cells quantifiers))
  | .or l r, quantifiers =>
    infixed (.gap (2 * quantifiers)) '∨'
      (bracketed l.looseLeftOfOr (.char '(') (.char ')') (l.cells quantifiers))
      (bracketed r.looseOnRight (.char '(') (.char ')') (r.cells quantifiers))
  | .all v f, quantifiers =>
    quantified '∀' v (2 * (quantifiers + 1)) (f.cells (quantifiers + 1))
  | .ex v f, quantifiers =>
    quantified '∃' v (2 * (quantifiers + 1)) (f.cells (quantifiers + 1))
  | .proof p f, _ =>
    ['P', 'r', 'o', 'o', 'f', '('].map .char ++
      (p.cells ++ .char ',' :: .char ' ' :: (f.cells ++ [.char ')']))

namespace Expression

def cells : Expression → List Cell
  | .term t => t.cells
  | .formula f => f.cells 0

def line (e : Expression) : String :=
  String.ofList (e.cells.map Cell.flat)

end Expression

namespace Print

structure Writes (doc : UInt8 → Doc → Doc) (indentation : Nat) (cs : List Cell) : Prop where
  cells (depth : UInt8) (rest : Doc) :
    Layout.cells (doc depth rest) indentation = cs ++ Layout.cells rest indentation
  guarded (depth : UInt8) (rest : Doc) (groups : Nat) :
    Layout.guarded (doc depth rest) groups = Layout.guarded rest groups

section

variable {l r body : UInt8 → Doc → Doc} {indentation : Nat} {cl cr cs : List Cell}

theorem cells_styled (style : Style) (s : String) (rest : Doc) :
    Layout.cells (styled style s :: rest) indentation =
      s.toList.map .char ++ Layout.cells rest indentation := rfl

theorem cells_blank (rest : Doc) :
    Layout.cells (blank :: rest) indentation = .char ' ' :: Layout.cells rest indentation := by
  simp [blank, Layout.cells]

theorem writes_argument (h : Writes body indentation cs) (inParens : Bool) :
    Writes (argument inParens body) indentation
      (bracketed inParens (.char '(') (.char ')') cs) := by
  cases inParens with
  | false => exact h
  | true =>
    constructor
    . intro depth rest
      simp [argument, bracketed, Layout.cells, leftParen, rightParen, cells_styled, h.cells]
    . intro depth rest groups
      simp [argument, Layout.guarded, leftParen, rightParen, styled, h.guarded]

theorem writes_infixed_blank {sign : Char} {s : String} (hl : Writes l indentation cl)
    (hr : Writes r indentation cr) (hs : s.toList = [sign]) :
    Writes (fun depth rest => .openGroup :: l depth (blank :: styled .operator s :: blank ::
      r depth (.closeGroup :: rest))) indentation (infixed (.char ' ') sign cl cr) := by
  constructor
  . intro depth rest
    simp [Layout.cells, hl.cells, cells_blank, cells_styled, hs, hr.cells, infixed]
  . intro depth rest groups
    simp [Layout.guarded, hl.guarded, blank, styled, hr.guarded]

theorem writes_infixed_line {sign : Char} {s : String} (hl : Writes l indentation cl)
    (hr : Writes r indentation cr) (hs : s.toList = [sign]) :
    Writes (fun depth rest => .openGroup :: l depth (.line :: styled .operator s :: blank ::
      r depth (.closeGroup :: rest))) indentation (infixed (.gap indentation) sign cl cr) := by
  constructor
  . intro depth rest
    simp [Layout.cells, hl.cells, cells_blank, cells_styled, hs, hr.cells, infixed]
  . intro depth rest groups
    simp [Layout.guarded, hl.guarded, blank, styled, hr.guarded]

theorem writes_quantified {sign : Char} {s : String} (h : Writes body (indentation + 2) cs)
    (hs : s.toList = [sign]) (v : Variable) :
    Writes (fun depth rest => .openGroup :: styled .keyword s :: styled .variableName v.name ::
      .indent 2 :: .line :: body depth (.dedent 2 :: .closeGroup :: rest)) indentation
      (quantified sign v (indentation + 2) cs) := by
  constructor
  . intro depth rest
    simp [Layout.cells, cells_styled, hs, h.cells, quantified]
  . intro depth rest groups
    simp [Layout.guarded, styled, h.guarded]

end

end Print

theorem Term.writes_doc (t : Term) (indentation : Nat) : Writes t.doc indentation t.cells := by
  induction t with
  | zero => constructor <;> intros <;> rfl
  | var v =>
    constructor
    . intro depth rest
      rw [doc, cells_styled, Variable.toList_name]
      rfl
    . intro depth rest groups
      rfl
  | succ t ih =>
    constructor
    . intro depth rest
      simp [doc, Layout.cells, cells_styled, leftParen, rightParen, ih.cells, cells, text]
    . intro depth rest groups
      simp [doc, Layout.guarded, styled, leftParen, rightParen, ih.guarded]
  | add l r ihl ihr =>
    rw [cells, text, List.map_append, List.map_cons, List.map_cons, List.map_cons, map_bracketed,
      map_bracketed]
    exact writes_infixed_blank (writes_argument ihl _) (writes_argument ihr _) rfl
  | mul l r ihl ihr =>
    rw [cells, text, List.map_append, List.map_cons, List.map_cons, List.map_cons, map_bracketed,
      map_bracketed]
    exact writes_infixed_blank (writes_argument ihl _) (writes_argument ihr _) rfl

theorem Formula.writes_doc (f : Formula) (quantifiers : Nat) :
    Writes f.doc (2 * quantifiers) (f.cells quantifiers) := by
  induction f generalizing quantifiers with
  | equal l r | less l r => exact writes_infixed_blank (l.writes_doc _) (r.writes_doc _) rfl
  | not f ih =>
    have h := writes_argument (ih quantifiers) f.looseUnderNot
    constructor
    . intro depth rest
      simp [doc, Layout.cells, cells_styled, h.cells, cells]
    . intro depth rest groups
      simp [doc, Layout.guarded, styled, h.guarded]
  | and l r ihl ihr | or l r ihl ihr =>
    exact writes_infixed_line (writes_argument (ihl _) _) (writes_argument (ihr _) _) rfl
  | all v f ih | ex v f ih => exact writes_quantified (ih (quantifiers + 1)) rfl v
  | proof l r =>
    have hl := l.writes_doc (2 * quantifiers)
    have hr := r.writes_doc (2 * quantifiers)
    constructor
    . intro depth rest
      simp [doc, Layout.cells, cells_styled, cells_blank, leftParen, rightParen, hl.cells, hr.cells,
        cells]
    . intro depth rest groups
      simp [doc, Layout.guarded, styled, blank, leftParen, rightParen, hl.guarded, hr.guarded]

namespace Expression

theorem cells_document (e : Expression) : Layout.cells e.document 0 = e.cells := by
  cases e with
  | term t =>
    rw [document, (t.writes_doc 0).cells, Layout.cells, List.append_nil]
    rfl
  | formula f =>
    rw [document, (f.writes_doc 0).cells, Layout.cells, List.append_nil]
    rfl

theorem guarded_document (e : Expression) : guarded e.document 0 = true := by
  cases e with
  | term t =>
    rw [document, (t.writes_doc 0).guarded]
    rfl
  | formula f =>
    rw [document, (f.writes_doc 0).guarded]
    rfl

theorem typeset_print (e : Expression) (width : Nat) :
    Typeset e.cells (e.print width).toList := by
  rw [← cells_document, print, pieces]
  apply typeset_layout

theorem print_of_length_le {e : Expression} {width : Nat} (h : e.line.length ≤ width) :
    e.print width = e.line := by
  rw [line, ← String.length_toList, String.toList_ofList, List.length_map, ← cells_document] at h
  rw [← String.toList_inj, print, pieces, layout_of_length_le e.guarded_document h, cells_document,
    line, String.toList_ofList]

theorem line_term (t : Term) : (term t).line = String.ofList t.text := by
  rw [line, cells, Term.map_flat_cells]

theorem print_term (t : Term) (width : Nat) : (term t).print width = (term t).line := by
  rw [← String.toList_inj, line_term, String.toList_ofList]
  apply Typeset.eq_of_map_char
  exact typeset_print (.term t) width

theorem print_breaks_line :
    (∀ (e : Expression) (width : Nat), Typeset e.cells (e.print width).toList) ∧
      (∀ (e : Expression) (extra : Nat), e.print (e.line.length + extra) = e.line) ∧
      ∀ (t : Term) (width : Nat), (term t).print width = (term t).line :=
  ⟨typeset_print, fun _ _ => print_of_length_le (Nat.le_add_right ..), print_term⟩

end Expression

end Arithmetization
