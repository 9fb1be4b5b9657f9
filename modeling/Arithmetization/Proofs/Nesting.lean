import Arithmetization.Proofs.Coloring

/-!
This module contains the nesting of parentheses in printed expressions. The pairs of matching
parentheses are found in the text alone, as are the pairs around each of them. The main statement
says that the number of these determines the color of the pair.

A document that begins inside of `n` parentheses shows, at every width, each parenthesis in the
appearance of its level. This is shown by induction on the expression; what it says about the pairs
is shown by induction on the text, with the open parentheses on a stack.
-/

namespace Arithmetization

open Layout

namespace Print

/--
The pairs of matching parentheses in a text that begins at a position, each given by the positions
of its two parentheses. Before the text the parentheses at the positions `opened` have been opened
and not been closed yet, where the last of them is the first in the list.
-/
def pairs : List Char → (position : Nat) → (opened : List Nat) → List (Nat × Nat)
  | [], _, _ => []
  | '(' :: cs, position, opened => pairs cs (position + 1) (position :: opened)
  | ')' :: cs, position, i :: opened => (i, position) :: pairs cs (position + 1) opened
  | _ :: cs, position, opened => pairs cs (position + 1) opened

def matchingPairs (text : List Char) : List (Nat × Nat) :=
  pairs text 0 []

def enclosing (ps : List (Nat × Nat)) (p : Nat × Nat) : Nat :=
  ps.countP fun q => q.1 < p.1 ∧ p.2 < q.2

def palette : List Ansi.Color :=
  [.blue, .green, .white, .yellow, .red, .magenta]

def levelAppearance (level : Nat) : Ansi.Appearance :=
  { color := palette[level % 256 % 6]?, dimmed := true }

theorem appearance_parenthesis (level : Nat) :
    (Style.parenthesis (UInt8.ofNat level)).appearance = levelAppearance level := by
  have hlt : level % 256 % 6 < 6 := Nat.mod_lt _ (by decide)
  rw [Style.appearance, Style.parenthesisColor, UInt8.toNat_ofNat', levelAppearance]
  generalize level % 256 % 6 = k at hlt ⊢
  rcases k with _ | _ | _ | _ | _ | _ | k
  case succ.succ.succ.succ.succ.succ => omega
  all_goals rfl

def isParenthesis (c : Char) : Bool :=
  c = '(' || c = ')'

/--
Shown characters, the first of which is inside of as many parentheses as given. Each parenthesis
among them has the appearance of its level, and all parentheses are closed in the end.
-/
inductive Leveled : Nat → List (Char × Ansi.Appearance) → Prop where
  | nil : Leveled 0 []
  | opening {level : Nat} {gs : List (Char × Ansi.Appearance)} (h : Leveled (level + 1) gs) :
    Leveled level (('(', levelAppearance level) :: gs)
  | closing {level : Nat} {gs : List (Char × Ansi.Appearance)} (h : Leveled level gs) :
    Leveled (level + 1) ((')', levelAppearance level) :: gs)
  | other {level : Nat} {gs : List (Char × Ansi.Appearance)} {c : Char} (a : Ansi.Appearance)
    (hc : isParenthesis c = false) (h : Leveled level gs) : Leveled level ((c, a) :: gs)

section

variable {cs : List Char} {c : Char} {gs full : List (Char × Ansi.Appearance)}
  {g : Char × Ansi.Appearance} {position level : Nat} {opened : List Nat} {p q : Nat × Nat}
  {ps : List (Nat × Nat)}

theorem pairs_cons_of_isParenthesis_eq_false (hc : isParenthesis c = false) :
    pairs (c :: cs) position opened = pairs cs (position + 1) opened := by
  rw [isParenthesis, Bool.or_eq_false_iff, decide_eq_false_iff_not, decide_eq_false_iff_not] at hc
  rw [pairs]
  . exact hc.1
  . intro _ _ _
    exact hc.2

theorem le_of_mem_pairs (h : q ∈ pairs cs position opened) : position ≤ q.2 := by
  fun_induction pairs cs position opened with
  | case1 => contradiction
  | case2 cs position opened ih =>
    have := ih h
    omega
  | case3 cs position i opened ih =>
    rw [List.mem_cons] at h
    rcases h with rfl | h
    . exact Nat.le_refl _
    . have := ih h
      omega
  | case4 _ cs position opened _ _ ih =>
    have := ih h
    omega

theorem countP_pairs (h : Leveled opened.length gs) {m : Nat} (hm : m ≤ position) :
    (pairs (gs.map Prod.fst) position opened).countP (·.1 < m) = opened.countP (· < m) := by
  generalize hlevel : opened.length = level at h
  induction h generalizing position opened with
  | nil =>
    rw [List.length_eq_zero_iff.1 hlevel]
    rfl
  | @opening level gs _ ih =>
    have hposition : ¬ position < m := by omega
    rw [List.map_cons, pairs, ih (by omega) (congrArg (· + 1) hlevel), List.countP_cons]
    simp [hposition]
  | @closing level gs _ ih =>
    obtain ⟨i, opened, rfl⟩ := List.exists_cons_of_length_eq_add_one hlevel
    rw [List.map_cons, pairs, List.countP_cons, List.countP_cons,
      ih (by omega) (Nat.add_right_cancel hlevel)]
  | other a hc _ ih =>
    rw [List.map_cons, pairs_cons_of_isParenthesis_eq_false hc, ih (by omega) hlevel]

theorem getElem?_of_drop_eq_cons (h : full.drop position = g :: gs) :
    full[position]? = some g := by
  rw [← List.head?_drop, h]
  rfl

theorem drop_succ_of_drop_eq_cons (h : full.drop position = g :: gs) :
    full.drop (position + 1) = gs := by
  rw [← List.tail_drop, h]
  rfl

theorem enclosing_cons (hq : q.2 ≤ p.2) : enclosing (q :: ps) p = enclosing ps p := by
  rw [enclosing, List.countP_cons, enclosing]
  simp [Nat.not_lt.2 hq]

theorem enclosing_of_lt (h : ∀ q ∈ ps, p.2 < q.2) : enclosing ps p = ps.countP (·.1 < p.1) := by
  apply List.countP_congr
  intro q hq
  simp [h q hq]

inductive Opened (full : List (Char × Ansi.Appearance)) : List Nat → Prop where
  | nil : Opened full []
  | cons {i : Nat} {opened : List Nat} (hi : full[i]? = some ('(', levelAppearance opened.length))
    (hlt : ∀ k ∈ opened, k < i) (h : Opened full opened) : Opened full (i :: opened)

def Matched (full : List (Char × Ansi.Appearance)) (ps : List (Nat × Nat)) (p : Nat × Nat) : Prop :=
  full[p.1]? = some ('(', levelAppearance (enclosing ps p)) ∧
    full[p.2]? = some (')', levelAppearance (enclosing ps p))

theorem matched_closing (h : Leveled opened.length gs) {i : Nat}
    (hopened : Opened full (i :: opened)) (hlt : i < position)
    (hposition : full[position]? = some (')', levelAppearance opened.length)) :
    Matched full (pairs (gs.map Prod.fst) (position + 1) opened) (i, position) := by
  cases hopened with
  | cons hi hi_lt _ =>
    have hcount : enclosing (pairs (gs.map Prod.fst) (position + 1) opened) (i, position) =
        opened.length := by
      have hlate : ∀ q ∈ pairs (gs.map Prod.fst) (position + 1) opened, position < q.2 :=
        fun _ hq => le_of_mem_pairs hq
      rw [enclosing_of_lt hlate, countP_pairs h (Nat.le_succ_of_le (Nat.le_of_lt hlt)),
        List.countP_eq_length]
      simpa using hi_lt
    rw [Matched, hcount]
    exact ⟨hi, hposition⟩

theorem matched_of_leveled (h : Leveled opened.length gs) (hopened : Opened full opened)
    (hlt : ∀ i ∈ opened, i < position) (hfull : full.drop position = gs) :
    ∀ p ∈ pairs (gs.map Prod.fst) position opened,
      Matched full (pairs (gs.map Prod.fst) position opened) p := by
  generalize hlevel : opened.length = level at h
  induction h generalizing position opened with
  | nil =>
    intro p hp
    contradiction
  | @opening level gs _ ih =>
    have hposition := getElem?_of_drop_eq_cons hfull
    rw [← hlevel] at hposition
    apply ih (.cons hposition hlt hopened)
    . intro i hi
      rw [List.mem_cons] at hi
      rcases hi with rfl | hi
      . omega
      . have := hlt i hi
        omega
    . exact drop_succ_of_drop_eq_cons hfull
    . exact congrArg (· + 1) hlevel
  | @closing level gs hleveled ih =>
    obtain ⟨i, opened, rfl⟩ := List.exists_cons_of_length_eq_add_one hlevel
    obtain rfl : opened.length = level := Nat.add_right_cancel hlevel
    have hposition := getElem?_of_drop_eq_cons hfull
    have hi := hlt i (List.mem_cons_self ..)
    intro p hp
    rw [List.map_cons, pairs, List.mem_cons] at hp
    rw [List.map_cons, pairs, Matched]
    rcases hp with rfl | hp
    . rw [enclosing_cons (Nat.le_refl _)]
      exact matched_closing hleveled hopened hi hposition
    . have hle := le_of_mem_pairs hp
      rw [enclosing_cons (Nat.le_of_succ_le hle)]
      cases hopened with
      | cons _ _ hopened =>
        refine ih hopened ?_ (drop_succ_of_drop_eq_cons hfull) rfl p hp
        intro k hk
        have := hlt k (List.mem_cons_of_mem _ hk)
        omega
  | other a hc _ ih =>
    rw [List.map_cons, pairs_cons_of_isParenthesis_eq_false hc]
    apply ih hopened
    . intro i hi
      have := hlt i hi
      omega
    . exact drop_succ_of_drop_eq_cons hfull
    . exact hlevel

theorem matched_of_leveled_zero (h : Leveled 0 gs) :
    ∀ p ∈ matchingPairs (gs.map Prod.fst), Matched gs (matchingPairs (gs.map Prod.fst)) p :=
  matched_of_leveled h .nil (fun _ hi => by contradiction) rfl

end

theorem Leveled.others {level : Nat} {gs : List (Char × Ansi.Appearance)} (h : Leveled level gs)
    {text : List Char} (htext : text.any isParenthesis = false) (a : Ansi.Appearance) :
    Leveled level (text.map (·, a) ++ gs) := by
  induction text with
  | nil => exact h
  | cons c text ih =>
    rw [List.any_cons, Bool.or_eq_false_iff] at htext
    exact .other a htext.1 (ih htext.2)

theorem any_isParenthesis_replicate {c : Char} (hc : isParenthesis c = false) (n : Nat) :
    (List.replicate n c).any isParenthesis = false := by
  rw [List.any_replicate, hc, ite_self]

theorem any_isParenthesis_newline (n : Nat) :
    (Piece.newline n : Piece Style).toString.toList.any isParenthesis = false := by
  rw [Piece.toString, String.toList_append, toList_pushn, List.any_append,
    any_isParenthesis_replicate (by decide)]
  decide

theorem any_isParenthesis_name (v : Variable) : v.name.toList.any isParenthesis = false := by
  rw [Variable.toList_name, Variable.letters, List.any_cons,
    any_isParenthesis_replicate (by decide)]
  decide

def LeveledDoc (level : Nat) (doc : Doc) : Prop :=
  ∀ width column indentation groups,
    Leveled level (glyphs (lay width doc column indentation groups))

namespace LeveledDoc

variable {level : Nat} {rest : Doc}

theorem nil : LeveledDoc 0 [] :=
  fun _ _ _ _ => .nil

theorem text (h : LeveledDoc level rest) {s : String} (hs : s.toList.any isParenthesis = false)
    (style : Option Style) : LeveledDoc level (.text style s :: rest) := by
  intro width column indentation groups
  rw [lay, glyphs_cons]
  exact (h ..).others hs _

theorem line (h : LeveledDoc level rest) : LeveledDoc level (.line :: rest) := by
  intro width column indentation groups
  cases groups with
  | zero =>
    rw [lay, glyphs_cons]
    exact (h ..).others (any_isParenthesis_newline _) _
  | succ groups =>
    rw [lay, glyphs_cons]
    exact (h ..).others (by decide) _

theorem openGroup (h : LeveledDoc level rest) : LeveledDoc level (.openGroup :: rest) := by
  intro width column indentation groups
  cases groups with
  | zero | succ _ => exact h ..

theorem closeGroup (h : LeveledDoc level rest) : LeveledDoc level (.closeGroup :: rest) :=
  fun _ _ _ _ => h ..

theorem indent (h : LeveledDoc level rest) (n : Nat) : LeveledDoc level (.indent n :: rest) :=
  fun _ _ _ _ => h ..

theorem dedent (h : LeveledDoc level rest) (n : Nat) : LeveledDoc level (.dedent n :: rest) :=
  fun _ _ _ _ => h ..

theorem leftParen (h : LeveledDoc (level + 1) rest) :
    LeveledDoc level (leftParen (UInt8.ofNat level) :: rest) := by
  intro width column indentation groups
  have hsign : "(".toList = ['('] := rfl
  rw [Print.leftParen, styled, lay, glyphs_cons, pieceAppearance, appearance_parenthesis,
    Piece.toString, hsign]
  exact .opening (h ..)

theorem rightParen (h : LeveledDoc level rest) :
    LeveledDoc (level + 1) (rightParen (UInt8.ofNat level) :: rest) := by
  intro width column indentation groups
  have hsign : ")".toList = [')'] := rfl
  rw [Print.rightParen, styled, lay, glyphs_cons, pieceAppearance, appearance_parenthesis,
    Piece.toString, hsign]
  exact .closing (h ..)

end LeveledDoc

def Levels (doc : UInt8 → Doc → Doc) : Prop :=
  ∀ level rest, LeveledDoc level rest → LeveledDoc level (doc (UInt8.ofNat level) rest)

variable {l r body : UInt8 → Doc → Doc}

theorem LeveledDoc.enclosed {level : Nat} {rest : Doc} (h : LeveledDoc level rest)
    (hbody : Levels body) :
    LeveledDoc level (Print.leftParen (UInt8.ofNat level) ::
      body (UInt8.ofNat level + 1) (Print.rightParen (UInt8.ofNat level) :: rest)) := by
  have hinner := hbody (level + 1) _ h.rightParen
  rw [UInt8.ofNat_add] at hinner
  exact hinner.leftParen

theorem levels_argument (h : Levels body) (inParens : Bool) : Levels (argument inParens body) := by
  cases inParens with
  | false => exact h
  | true => exact fun _ _ hrest => (hrest.closeGroup.enclosed h).openGroup

theorem levels_infixed {before : Item Style} {s : String} (hl : Levels l) (hr : Levels r)
    (hbefore : ∀ level rest, LeveledDoc level rest → LeveledDoc level (before :: rest))
    (hs : s.toList.any isParenthesis = false) :
    Levels fun depth rest => .openGroup :: l depth (before :: styled .operator s :: blank ::
      r depth (.closeGroup :: rest)) := by
  intro level rest hrest
  have hblank : LeveledDoc level (blank :: r (UInt8.ofNat level) (.closeGroup :: rest)) :=
    (hr level _ hrest.closeGroup).text (by decide) none
  exact (hl level _ (hbefore level _ (hblank.text hs _))).openGroup

theorem levels_quantified (h : Levels body) {s : String} (hs : s.toList.any isParenthesis = false)
    (v : Variable) :
    Levels fun depth rest => .openGroup :: styled .keyword s :: styled .variableName v.name ::
      .indent 2 :: .line :: body depth (.dedent 2 :: .closeGroup :: rest) := by
  intro level rest hrest
  have hbody := h level _ (hrest.closeGroup.dedent 2)
  exact (((hbody.line.indent 2).text (any_isParenthesis_name v) _).text hs _).openGroup

end Print

open Print

theorem Term.levels_doc (t : Term) : Levels t.doc := by
  induction t with
  | zero => exact fun _ _ hrest => hrest.text (by decide) _
  | var v => exact fun _ _ hrest => hrest.text (any_isParenthesis_name v) _
  | succ t ih =>
    intro level rest hrest
    exact ((hrest.closeGroup.enclosed ih).text (by decide) _).openGroup
  | add l r ihl ihr | mul l r ihl ihr =>
    apply levels_infixed (levels_argument ihl _) (levels_argument ihr _)
    . exact fun _ _ hrest => hrest.text (by decide) none
    . decide

theorem Formula.levels_doc (f : Formula) : Levels f.doc := by
  induction f with
  | equal l r | less l r =>
    apply levels_infixed l.levels_doc r.levels_doc
    . exact fun _ _ hrest => hrest.text (by decide) none
    . decide
  | not f ih =>
    intro level rest hrest
    have hargument := levels_argument ih f.looseUnderNot level _ hrest.closeGroup
    exact (hargument.text (by decide) _).openGroup
  | and l r ihl ihr | or l r ihl ihr =>
    apply levels_infixed (levels_argument ihl _) (levels_argument ihr _)
    . exact fun _ _ hrest => hrest.line
    . decide
  | all v f ih | ex v f ih => exact levels_quantified ih (by decide) v
  | proof p f =>
    intro level rest hrest
    have harguments : Levels fun depth rest =>
        p.doc depth (styled .punctuation "," :: blank :: f.doc depth rest) := by
      intro level rest hrest
      have hright := f.levels_doc level _ hrest
      have hblank : LeveledDoc level (blank :: f.doc (UInt8.ofNat level) rest) :=
        hright.text (by decide) none
      exact p.levels_doc level _ (hblank.text (by decide) _)
    exact ((hrest.closeGroup.enclosed harguments).text (by decide) _).openGroup

namespace Expression

theorem leveled_glyphs_pieces (e : Expression) (width : Nat) :
    Leveled 0 (glyphs (e.pieces width)) := by
  have hdocument : LeveledDoc 0 e.document := by
    cases e with
    | term t => exact t.levels_doc 0 [] .nil
    | formula f => exact f.levels_doc 0 [] .nil
  rw [pieces, layout_eq_lay]
  exact hdocument ..

theorem printColored_parentheses (e : Expression) (width : Nat) :
    (Ansi.screen (e.printColored width)).map Prod.fst = (e.print width).toList ∧
      ∀ p ∈ matchingPairs (e.print width).toList,
        (Ansi.screen (e.printColored width))[p.1]? =
            some ('(', levelAppearance (enclosing (matchingPairs (e.print width).toList) p)) ∧
          (Ansi.screen (e.printColored width))[p.2]? =
            some (')', levelAppearance (enclosing (matchingPairs (e.print width).toList) p)) := by
  have htext : (glyphs (e.pieces width)).map Prod.fst = (e.print width).toList := by
    rw [map_fst_glyphs, print, toList_plain]
  rw [screen_printColored, ← htext]
  refine ⟨rfl, ?_⟩
  exact matched_of_leveled_zero (e.leveled_glyphs_pieces width)

theorem printColored_parentheses_add :
    ∃ e, e = Expression.term (.add .zero (.add .zero (.succ .zero))) ∧
      e.print 80 = "0 + (0 + S(0))" ∧
      (10, 12) ∈ matchingPairs (e.print 80).toList ∧
      (Ansi.screen (e.printColored 80))[10]? =
        some ('(', { color := some .green, dimmed := true }) ∧
      (Ansi.screen (e.printColored 80))[12]? =
        some (')', { color := some .green, dimmed := true }) := by
  have hprint : (term (.add .zero (.add .zero (.succ .zero)))).print 80 = "0 + (0 + S(0))" := by
    rw [print_term, line_term]
    decide
  have hpair : (10, 12) ∈ matchingPairs "0 + (0 + S(0))".toList := by decide
  have hlevel : levelAppearance (enclosing (matchingPairs "0 + (0 + S(0))".toList) (10, 12)) =
      { color := some .green, dimmed := true } := by decide
  obtain ⟨_, hpairs⟩ := printColored_parentheses (.term (.add .zero (.add .zero (.succ .zero)))) 80
  rw [hprint] at hpairs
  obtain ⟨hleft, hright⟩ := hpairs _ hpair
  rw [hlevel] at hleft hright
  exact ⟨_, rfl, hprint, hprint ▸ hpair, hleft, hright⟩

end Expression

end Arithmetization
