import Arithmetization.Proofs.Printing
import Arithmetization.Proofs.Terminal
import Arithmetization.Proofs.Words

/-!
This module contains what color adds to a printed text. Its escape sequences are all that is added:
the text comes out again where they are deleted. They stand around the words and signs of the text,
each of which is a piece of its own with the sequences of its kind, and none is around a blank. So a
terminal shows blanks in the appearance that it begins with, and all else in another one.
-/

namespace Arithmetization

open Layout

namespace Ansi

def strip : (inside : Bool) → List Char → List Char
  | _, [] => []
  | false, '\x1b' :: '[' :: cs => strip true cs
  | false, c :: cs => c :: strip false cs
  | true, c :: cs => strip (!isFinal c) cs

theorem map_fst_shown (sequence? : Option (List Char)) (a : Appearance) (cs : List Char) :
    (shown sequence? a cs).map Prod.fst = strip sequence?.isSome cs := by
  fun_induction shown sequence? a cs with
  | case1 sequence? => cases sequence? <;> rfl
  | case2 a cs ih => exact ih
  | case3 a c cs hescape ih =>
    rw [List.map_cons, ih, Option.isSome_none, strip]
    exact hescape
  | case4 a parameters c cs hfinal ih =>
    rw [ih, Option.isSome_some, strip, hfinal]
    rfl
  | case5 a parameters c cs hfinal ih =>
    rw [Bool.not_eq_true] at hfinal
    rw [ih, Option.isSome_some, Option.isSome_some, strip, hfinal]
    rfl

variable {σ : Type} (appearance : σ → Appearance)

theorem toList_colored (pieces : List (Piece σ)) :
    (colored appearance pieces).toList =
      pieces.flatMap fun p => (paintPiece appearance p).toList := by
  have h (s : String) :
      (pieces.foldl (fun s p => s ++ paintPiece appearance p) s).toList =
        s.toList ++ pieces.flatMap fun p => (paintPiece appearance p).toList := by
    induction pieces generalizing s with
    | nil => simp
    | cons p pieces ih => simp [ih]
  rw [colored, h]
  simp

end Ansi

namespace Layout

variable {σ : Type} {width : Nat}

theorem mem_of_mem_lay {doc : Document σ} {column indentation depth : Nat} {style : Option σ}
    {s : String} (h : .text style s ∈ lay width doc column indentation depth) :
    .text style s ∈ doc := by
  induction doc generalizing column indentation depth with
  | nil => contradiction
  | cons item rest ih =>
    rw [List.mem_cons]
    cases item with
    | text style' s' =>
      rw [lay, List.mem_cons] at h
      rcases h with h | h
      . obtain ⟨rfl, rfl⟩ := Piece.text.inj h
        exact .inl rfl
      . exact .inr (ih h)
    | line =>
      right
      cases depth with
      | zero | succ _ =>
        rw [lay, List.mem_cons] at h
        exact ih (h.resolve_left (by simp))
    | openGroup =>
      right
      cases depth with
      | zero | succ _ => exact ih h
    | closeGroup => exact .inr (ih h)
    | indent n => exact .inr (ih h)
    | dedent n => exact .inr (ih h)

theorem mem_of_mem_layout {doc : Document σ} {style : Option σ} {s : String}
    (h : .text style s ∈ layout width doc) : .text style s ∈ doc := by
  rw [layout_eq_lay] at h
  exact mem_of_mem_lay h

end Layout

theorem Style.intense_appearance (style : Style) : style.appearance.intense = false := by
  cases style <;> rfl

theorem Style.parenthesisColor_ne_cyan (depth : UInt8) : parenthesisColor depth ≠ .cyan := by
  unfold parenthesisColor
  split <;> decide

namespace Print

inductive Opens : (opening piece : List Char) → Prop where
  -- What was selected before is cleared; then come bold or dimmed characters, and a color.
  | comma : Opens "\x1b[0m\x1b[2m".toList [',']
  | parenthesis {color c : Char} (hcolor : color ∈ ['4', '2', '7', '3', '1', '5'])
    (hc : c = '(' ∨ c = ')') : Opens ("\x1b[0m\x1b[2m\x1b[3".toList ++ [color, 'm']) [c]
  | keyword {s : String} (hs : s ∈ ["∀", "∃", "Proof"]) :
    Opens "\x1b[0m\x1b[1m\x1b[36m".toList s.toList
  | operator {s : String} (hs : s ∈ ["+", "×", "=", "<", "¬", "∧", "∨"]) :
    Opens "\x1b[0m\x1b[1m\x1b[33m".toList s.toList
  | variableName (stars : Nat) :
    Opens "\x1b[0m\x1b[1m\x1b[32m".toList ('x' :: List.replicate stars '*')
  | constant {s : String} (hs : s ∈ ["0", "S"]) : Opens "\x1b[0m\x1b[35m".toList s.toList

/--
A plain text and the same text in color. Each piece stands between the escape sequences that open it
and one that clears the selection again, and blanks stand by themselves.
-/
inductive Painted : (plain colored : List Char) → Prop where
  | nil : Painted [] []
  | blank {cs ds : List Char} {c : Char} (hc : c = ' ' ∨ c = '\n') (h : Painted cs ds) :
    Painted (c :: cs) (c :: ds)
  | piece {cs ds opening text : List Char} (hopens : Opens opening text) (h : Painted cs ds) :
    Painted (text ++ cs) (opening ++ (text ++ ("\x1b[0m".toList ++ ds)))

def isVisible (c : Char) : Bool :=
  !isBlank c && c ≠ '\x1b'

section

variable {cs ds opening text : List Char}

theorem Opens.visible (h : Opens opening text) : ∀ c ∈ text, isVisible c = true := by
  rw [← List.all_eq_true]
  have hall {ss : List String} (hss : ss.all (·.toList.all isVisible) = true) {s : String}
      (hs : s ∈ ss) : s.toList.all isVisible = true :=
    List.all_eq_true.1 hss s hs
  cases h with
  | comma => decide
  | parenthesis _ hc =>
    rcases hc with rfl | rfl
    . decide
    . decide
  | keyword hs | operator hs | constant hs => exact hall (by decide) hs
  | variableName stars =>
    have hstar : isVisible '*' = true := by decide
    rw [List.all_cons, List.all_replicate, hstar, ite_self]
    decide

theorem Opens.isBlank_eq_false (h : Opens opening text) {c : Char} (hc : c ∈ text) :
    isBlank c = false := by
  have := h.visible c hc
  rw [isVisible, Bool.and_eq_true, Bool.not_eq_true'] at this
  exact this.1

theorem Opens.escape_not_mem (h : Opens opening text) : ¬ '\x1b' ∈ text :=
  fun hc => absurd (h.visible _ hc) (by decide)

open Ansi in
theorem Opens.exists_appearance (h : Opens opening text) :
    ∃ b : Appearance, b ≠ {} ∧ ∀ a cs, shown none a (opening ++ cs) = shown none b cs := by
  cases h with
  | comma => exact ⟨{ dimmed := true }, by decide, fun _ _ => rfl⟩
  | @parenthesis color _ hcolor _ =>
    refine ⟨{ color := Color.ofDigit? color, dimmed := true }, by simp, ?_⟩
    intro a cs
    simp only [List.mem_cons, List.not_mem_nil, or_false] at hcolor
    rcases hcolor with rfl | rfl | rfl | rfl | rfl | rfl <;> rfl
  | keyword => exact ⟨{ color := some .cyan, bold := true }, by decide, fun _ _ => rfl⟩
  | operator => exact ⟨{ color := some .yellow, bold := true }, by decide, fun _ _ => rfl⟩
  | variableName => exact ⟨{ color := some .green, bold := true }, by decide, fun _ _ => rfl⟩
  | constant => exact ⟨{ color := some .magenta }, by decide, fun _ _ => rfl⟩

theorem Opens.exists_shown (h : Opens opening text) :
    ∃ b : Ansi.Appearance, b ≠ {} ∧ ∀ ds,
      Ansi.shown none {} (opening ++ (text ++ ("\x1b[0m".toList ++ ds))) =
        text.map (·, b) ++ Ansi.shown none {} ds := by
  obtain ⟨b, hb, hshown⟩ := h.exists_appearance
  refine ⟨b, hb, ?_⟩
  intro ds
  rw [hshown, Ansi.shown_append h.escape_not_mem]
  rfl

namespace Painted

theorem spaces (n : Nat) (h : Painted cs ds) :
    Painted (List.replicate n ' ' ++ cs) (List.replicate n ' ' ++ ds) := by
  induction n with
  | zero => exact h
  | succ n ih => exact .blank (.inl rfl) ih

theorem map_fst_shown (h : Painted cs ds) : (Ansi.shown none {} ds).map Prod.fst = cs := by
  induction h with
  | nil => rfl
  | blank hc h ih =>
    rw [Ansi.shown_cons, List.map_cons, ih]
    rcases hc with rfl | rfl
    . decide
    . decide
  | piece hopens h ih =>
    obtain ⟨b, _, hshown⟩ := hopens.exists_shown
    rw [hshown, List.map_append, ih, List.map_map]
    simp [Function.comp_def]

theorem appearance_eq_iff (h : Painted cs ds) :
    ∀ g ∈ Ansi.shown none {} ds, g.2 = {} ↔ isBlank g.1 = true := by
  induction h with
  | nil => simp [Ansi.shown]
  | @blank cs ds c hc h ih =>
    rw [Ansi.shown_cons, List.forall_mem_cons]
    . refine ⟨?_, ih⟩
      rcases hc with rfl | rfl
      . decide
      . decide
    . rcases hc with rfl | rfl
      . decide
      . decide
  | piece hopens h ih =>
    obtain ⟨b, hb, hshown⟩ := hopens.exists_shown
    rw [hshown, List.forall_mem_append, List.forall_mem_map]
    refine ⟨?_, ih⟩
    intro c hc
    simp [hb, hopens.isBlank_eq_false hc]

end Painted

end

def Presentable : Item Style → Prop
  | .text none s => s = " "
  | .text (some style) s => Opens style.appearance.select.toList s.toList
  | _ => True

theorem painted_pieces {pieces : List (Piece Style)}
    (h : ∀ style s, .text style s ∈ pieces → Presentable (.text style s)) :
    Painted (chars pieces) (Ansi.colored Style.appearance pieces).toList := by
  rw [Ansi.toList_colored]
  induction pieces with
  | nil => exact .nil
  | cons p pieces ih =>
    have hrest := ih fun style s hmem => h style s (List.mem_cons_of_mem _ hmem)
    rw [List.flatMap_cons]
    cases p with
    | text style s =>
      have hs := h style s (List.mem_cons_self ..)
      rw [chars_text]
      cases style with
      | none =>
        obtain rfl : s = " " := hs
        exact .blank (.inl rfl) hrest
      | some style =>
        rw [Ansi.paintPiece, Ansi.paint, String.toList_append, String.toList_append,
          List.append_assoc, List.append_assoc]
        exact .piece hs hrest
    | space =>
      rw [chars_space]
      exact .blank (.inl rfl) hrest
    | newline n =>
      have hnewline : (Ansi.paintPiece Style.appearance (.newline n)).toList =
          '\n' :: List.replicate n ' ' := by
        simp [Ansi.paintPiece, Piece.toString, toList_pushn]
      rw [chars_newline, hnewline]
      exact .blank (.inr rfl) (hrest.spaces n)

def Presented (doc : Doc) : Prop :=
  ∀ item ∈ doc, Presentable item

namespace Presented

variable {rest : Doc}

theorem nil : Presented [] := fun _ h => by contradiction

theorem cons (h : Presented rest) {item : Item Style} (hitem : Presentable item) :
    Presented (item :: rest) :=
  List.forall_mem_cons.2 ⟨hitem, h⟩

theorem blank (h : Presented rest) : Presented (blank :: rest) := h.cons rfl

theorem line (h : Presented rest) : Presented (.line :: rest) := h.cons trivial

theorem openGroup (h : Presented rest) : Presented (.openGroup :: rest) := h.cons trivial

theorem closeGroup (h : Presented rest) : Presented (.closeGroup :: rest) := h.cons trivial

theorem indent (h : Presented rest) (n : Nat) : Presented (.indent n :: rest) := h.cons trivial

theorem dedent (h : Presented rest) (n : Nat) : Presented (.dedent n :: rest) := h.cons trivial

theorem keyword (h : Presented rest) {s : String} (hs : s ∈ ["∀", "∃", "Proof"]) :
    Presented (styled .keyword s :: rest) :=
  h.cons (.keyword hs)

theorem operator (h : Presented rest) {s : String} (hs : s ∈ ["+", "×", "=", "<", "¬", "∧", "∨"]) :
    Presented (styled .operator s :: rest) :=
  h.cons (.operator hs)

theorem constant (h : Presented rest) {s : String} (hs : s ∈ ["0", "S"]) :
    Presented (styled .constant s :: rest) :=
  h.cons (.constant hs)

theorem name (h : Presented rest) (v : Variable) :
    Presented (styled .variableName v.name :: rest) := by
  apply h.cons
  rw [styled, Presentable, Variable.toList_name]
  exact .variableName v.stars.toNat

theorem parenthesis (h : Presented rest) (depth : UInt8) {s : String} (hs : s = "(" ∨ s = ")") :
    Presented (styled (.parenthesis depth) s :: rest) := by
  apply h.cons
  have hc : ∃ c, s.toList = [c] ∧ (c = '(' ∨ c = ')') := by
    rcases hs with rfl | rfl
    . exact ⟨'(', rfl, .inl rfl⟩
    . exact ⟨')', rfl, .inr rfl⟩
  obtain ⟨c, htext, hc⟩ := hc
  have hcyan := Style.parenthesisColor_ne_cyan depth
  rw [styled, Presentable, htext, Style.appearance]
  generalize Style.parenthesisColor depth = color at hcyan
  cases color with
  | cyan => contradiction
  | blue => exact @Opens.parenthesis '4' c (by decide) hc
  | green => exact @Opens.parenthesis '2' c (by decide) hc
  | white => exact @Opens.parenthesis '7' c (by decide) hc
  | yellow => exact @Opens.parenthesis '3' c (by decide) hc
  | red => exact @Opens.parenthesis '1' c (by decide) hc
  | magenta => exact @Opens.parenthesis '5' c (by decide) hc

end Presented

def Presents (doc : UInt8 → Doc → Doc) : Prop :=
  ∀ depth rest, Presented rest → Presented (doc depth rest)

variable {l r body : UInt8 → Doc → Doc}

theorem Presented.enclosed {rest : Doc} (h : Presented rest) (hbody : Presents body)
    (depth : UInt8) :
    Presented (leftParen depth :: body (depth + 1) (rightParen depth :: .closeGroup :: rest)) :=
  (hbody _ _ (h.closeGroup.parenthesis depth (.inr rfl))).parenthesis depth (.inl rfl)

theorem presents_argument (h : Presents body) (inParens : Bool) :
    Presents (argument inParens body) := by
  cases inParens with
  | false => exact h
  | true => exact fun depth rest hrest => (hrest.enclosed h depth).openGroup

theorem presents_infixed (hl : Presents l) (hr : Presents r) {before : Item Style} {s : String}
    (hbefore : Presentable before) (hs : s ∈ ["+", "×", "=", "<", "¬", "∧", "∨"]) :
    Presents fun depth rest => .openGroup :: l depth (before :: styled .operator s :: blank ::
      r depth (.closeGroup :: rest)) := by
  intro depth rest hrest
  have hright := hr depth _ hrest.closeGroup
  exact (hl depth _ ((hright.blank.operator hs).cons hbefore)).openGroup

theorem presents_quantified (h : Presents body) {s : String} (hs : s ∈ ["∀", "∃", "Proof"])
    (v : Variable) :
    Presents fun depth rest => .openGroup :: styled .keyword s :: styled .variableName v.name ::
      .indent 2 :: .line :: body depth (.dedent 2 :: .closeGroup :: rest) := by
  intro depth rest hrest
  have hbody := h depth _ (hrest.closeGroup.dedent 2)
  exact (((hbody.line.indent 2).name v).keyword hs).openGroup

end Print

open Print

theorem Term.presents_doc (t : Term) : Presents t.doc := by
  induction t with
  | zero => exact fun _ _ hrest => hrest.constant (by decide)
  | var v => exact fun _ _ hrest => hrest.name v
  | succ t ih =>
    intro depth _ hrest
    exact ((hrest.enclosed ih depth).constant (by decide)).openGroup
  | add l r ihl ihr | mul l r ihl ihr =>
    exact presents_infixed (presents_argument ihl _) (presents_argument ihr _) rfl (by decide)

theorem Formula.presents_doc (f : Formula) : Presents f.doc := by
  induction f with
  | equal l r | less l r => exact presents_infixed l.presents_doc r.presents_doc rfl (by decide)
  | not f ih =>
    intro depth rest hrest
    have hargument := presents_argument ih f.looseUnderNot depth _ hrest.closeGroup
    exact (hargument.operator (by decide)).openGroup
  | and l r ihl ihr | or l r ihl ihr =>
    exact presents_infixed (presents_argument ihl _) (presents_argument ihr _) trivial (by decide)
  | all v f ih | ex v f ih => exact presents_quantified ih (by decide) v
  | proof p f =>
    intro depth rest hrest
    have harguments : Presents fun depth rest =>
        p.doc depth (styled .punctuation "," :: blank :: f.doc depth rest) :=
      fun depth _ hrest => p.presents_doc depth _ ((f.presents_doc depth _ hrest).blank.cons .comma)
    exact ((hrest.enclosed harguments depth).keyword (by decide)).openGroup

namespace Expression

theorem presented_document (e : Expression) : Presented e.document := by
  cases e with
  | term t => exact t.presents_doc 0 [] .nil
  | formula f => exact f.presents_doc 0 [] .nil

theorem presentable_of_mem_pieces {e : Expression} {width : Nat} {style : Option Style}
    {s : String} (h : .text style s ∈ e.pieces width) : Presentable (.text style s) :=
  e.presented_document _ (mem_of_mem_layout h)

theorem painted_print (e : Expression) (width : Nat) :
    Painted (e.print width).toList (e.printColored width).toList := by
  rw [print, toList_plain]
  apply painted_pieces
  intro style s
  exact presentable_of_mem_pieces

theorem printColored_paints_print (e : Expression) (width : Nat) :
    Ansi.strip false (e.printColored width).toList = (e.print width).toList ∧
      Painted (e.print width).toList (e.printColored width).toList ∧
      (Ansi.screen (e.printColored width)).map Prod.fst = (e.print width).toList ∧
      ∀ g ∈ Ansi.screen (e.printColored width), g.2 = {} ↔ isBlank g.1 = true := by
  have h := e.painted_print width
  have hshown := h.map_fst_shown
  refine ⟨?_, h, hshown, h.appearance_eq_iff⟩
  rw [← hshown, Ansi.map_fst_shown]
  rfl

theorem printColored_paints_print_equal :
    ∃ e, e = Expression.formula (.equal .zero .zero) ∧ e.print 80 = "0 = 0" ∧
      e.printColored 80 =
        "\x1b[0m\x1b[35m0\x1b[0m \x1b[0m\x1b[1m\x1b[33m=\x1b[0m \x1b[0m\x1b[35m0\x1b[0m" ∧
      Ansi.strip false (e.printColored 80).toList = (e.print 80).toList ∧
      ('0', { color := some .magenta }) ∈ Ansi.screen (e.printColored 80) ∧
      (({ color := some .magenta } : Ansi.Appearance) = {} ↔ isBlank '0' = true) := by
  obtain ⟨hstrip, _, _, hblank⟩ := printColored_paints_print (.formula (.equal .zero .zero)) 80
  have hprint : (formula (.equal .zero .zero)).print 80 = "0 = 0" := rfl
  have hcolored : (formula (.equal .zero .zero)).printColored 80 =
      "\x1b[0m\x1b[35m0\x1b[0m \x1b[0m\x1b[1m\x1b[33m=\x1b[0m \x1b[0m\x1b[35m0\x1b[0m" :=
    rfl
  have hmem : ('0', { color := some .magenta }) ∈
      Ansi.screen ((formula (.equal .zero .zero)).printColored 80) := by
    rw [hcolored]
    decide
  exact ⟨_, rfl, hprint, hcolored, hstrip, hmem, hblank _ hmem⟩

end Expression

namespace Print

def pieceAppearance : Piece Style → Ansi.Appearance
  | .text (some style) _ => style.appearance
  | _ => {}

def glyphs (pieces : List (Piece Style)) : List (Char × Ansi.Appearance) :=
  pieces.flatMap fun p => p.toString.toList.map (·, pieceAppearance p)

theorem glyphs_cons (p : Piece Style) (pieces : List (Piece Style)) :
    glyphs (p :: pieces) = p.toString.toList.map (·, pieceAppearance p) ++ glyphs pieces :=
  List.flatMap_cons

theorem map_fst_glyphs (pieces : List (Piece Style)) :
    (glyphs pieces).map Prod.fst = chars pieces := by
  rw [glyphs, chars, List.map_flatMap]
  simp [Function.comp_def]

theorem escape_not_mem_newline (n : Nat) :
    ¬ '\x1b' ∈ (Piece.newline n : Piece Style).toString.toList := by
  rw [Piece.toString, String.toList_append, toList_pushn, List.mem_append, List.mem_replicate]
  simp

theorem screen_colored {pieces : List (Piece Style)}
    (h : ∀ style s, .text style s ∈ pieces → ¬ '\x1b' ∈ s.toList) :
    Ansi.screen (Ansi.colored Style.appearance pieces) = glyphs pieces := by
  rw [Ansi.screen, Ansi.toList_colored]
  induction pieces with
  | nil => rfl
  | cons p pieces ih =>
    have hrest := ih fun style s hmem => h style s (List.mem_cons_of_mem _ hmem)
    rw [List.flatMap_cons, glyphs_cons, ← hrest]
    cases p with
    | text style s =>
      have hs := h style s (List.mem_cons_self ..)
      cases style with
      | none => exact Ansi.shown_append hs _
      | some style => exact Ansi.shown_paint style.intense_appearance hs _
    | space => rfl
    | newline n => exact Ansi.shown_append (escape_not_mem_newline n) _

end Print

theorem Expression.screen_printColored (e : Expression) (width : Nat) :
    Ansi.screen (e.printColored width) = glyphs (e.pieces width) := by
  apply screen_colored
  intro style s hmem
  have hpresentable := presentable_of_mem_pieces hmem
  cases style with
  | none =>
    obtain rfl : s = " " := hpresentable
    decide
  | some style => exact Opens.escape_not_mem hpresentable

end Arithmetization
