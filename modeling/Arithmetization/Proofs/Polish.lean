import Arithmetization.Language.Polish
import Arithmetization.Proofs.Decimal

/-!
This module contains the reading of Polish notation. The end is read first, so that the tokens of an
expression put it in front of the expressions that follow; and an expression is read back from what
is written for it. A token with a number stands for as many of them.
-/

namespace Arithmetization

namespace Polish

open Decimal

variable {token : Token} {cs : List Char} {tokens : List (List Char)}

theorem expressions?_cons :
    expressions? (cs :: tokens) =
      (repeated? cs).bind fun (token, times) =>
        Nat.repeat (·.bind token.apply) times (expressions? tokens) := rfl

theorem expressions?_cons_of_read (hcaret : ¬ '^' ∈ cs) (hread : Token.read? cs = some token) :
    expressions? (cs :: tokens) = (expressions? tokens).bind token.apply := by
  have hrepeated : repeated? cs = some (token, 1) := by
    rw [repeated?, List.splitOn_eq_singleton hcaret]
    simp only [hread, Option.map_some]
  rw [expressions?_cons, hrepeated]
  rfl

theorem not_mem_digits {c : Char} (h : c.isDigit = false) (n : Nat) : ¬ c ∈ digits n := by
  intro hmem
  rw [isDigit_of_mem_digits hmem] at h
  contradiction

theorem repeated?_append_digits (hcaret : ¬ '^' ∈ cs) (hread : Token.read? cs = some token)
    (n : Nat) : repeated? (cs ++ '^' :: digits n) = some (token, n) := by
  have hdigits : ¬ '^' ∈ digits n := not_mem_digits rfl n
  rw [repeated?, List.splitOn_append_cons_self, List.splitOn_eq_singleton hcaret,
    List.splitOn_eq_singleton hdigits]
  simp only [List.singleton_append, isDigits_digits, if_true, hread, value_digits, Option.map_some]

theorem expressions?_repeated (hcaret : ¬ '^' ∈ cs) (hread : Token.read? cs = some token)
    (n : Nat) :
    expressions? ((cs ++ '^' :: digits n) :: tokens) =
      expressions? (List.replicate n cs ++ tokens) := by
  rw [expressions?_cons, repeated?_append_digits hcaret hread, Option.bind_some]
  induction n with
  | zero => rfl
  | succ n ih =>
    rw [List.replicate_succ, List.cons_append, expressions?_cons_of_read hcaret hread, ← ih]
    rfl

structure Denotes (s : String) (token : Token) : Prop where
  read?_eq : Token.read? s.toList = some token
  not_mem_caret : ¬ '^' ∈ s.toList
  not_mem_blank : ¬ ' ' ∈ s.toList

theorem toList_variableToken (letter : String) (v : Variable) :
    (variableToken letter v).toList = letter.toList ++ digits v.stars.toNat := by
  rw [variableToken, String.toList_append, ← toList_repr]
  rfl

theorem starred?_digits (v : Variable) : starred? (digits v.stars.toNat) = some v := by
  have hlt : v.stars.toNat < UInt32.size := v.stars.toNat_lt
  rw [starred?, value_digits, if_pos ⟨isDigits_digits _, hlt⟩, UInt32.ofNat_toNat]

theorem denotes_variableToken {letter : String} {mark : Variable → Token}
    (hread : ∀ ds, Token.read? (letter.toList ++ ds) = (starred? ds).map mark)
    (hcaret : ¬ '^' ∈ letter.toList) (hblank : ¬ ' ' ∈ letter.toList) (v : Variable) :
    Denotes (variableToken letter v) (mark v) where
  read?_eq := by rw [toList_variableToken, hread, starred?_digits, Option.map_some]
  not_mem_caret := by
    rw [toList_variableToken, List.mem_append, not_or]
    exact ⟨hcaret, not_mem_digits rfl _⟩
  not_mem_blank := by
    rw [toList_variableToken, List.mem_append, not_or]
    exact ⟨hblank, not_mem_digits rfl _⟩

structure Reads (ss : List String) (es : List Expression) : Prop where
  expressions?_eq : expressions? (ss.map String.toList) = some es
  not_mem_blank : ∀ s ∈ ss, ¬ ' ' ∈ s.toList

variable {s : String} {ss : List String} {es es' : List Expression}

theorem reads_nil : Reads [] [] := ⟨rfl, by simp⟩

theorem Reads.cons (hs : Denotes s token) (h : Reads ss es) (happly : token.apply es = some es') :
    Reads (s :: ss) es' where
  expressions?_eq := by
    rw [List.map_cons, expressions?_cons_of_read hs.not_mem_caret hs.read?_eq, h.expressions?_eq,
      Option.bind_some, happly]
  not_mem_blank := List.forall_mem_cons.2 ⟨hs.not_mem_blank, h.not_mem_blank⟩

theorem read?_of_reads {e : Expression} (h : Reads ss [e]) :
    read? (" ".intercalate ss) = some e := by
  have hne : ss.map String.toList ≠ [] := by
    intro hnil
    have heq := h.expressions?_eq
    rw [hnil] at heq
    cases heq
  have hblank : ∀ cs ∈ ss.map String.toList, ¬ ' ' ∈ cs := by
    simpa using h.not_mem_blank
  have htoList : (" ".intercalate ss).toList = [' '].intercalate (ss.map String.toList) :=
    String.toList_intercalate
  rw [read?, htoList, List.splitOn_intercalate _ hblank hne, h.expressions?_eq]

end Polish

open Polish

variable {ss : List String} {es : List Expression}

theorem Term.reads_tokens (t : Term) (h : Reads ss es) : Reads (t.tokens ss) (.term t :: es) := by
  induction t generalizing ss es with
  | zero => exact h.cons ⟨rfl, by decide, by decide⟩ rfl
  | var v => exact h.cons (denotes_variableToken (fun _ => rfl) (by decide) (by decide) v) rfl
  | succ t ih => exact (ih h).cons ⟨rfl, by decide, by decide⟩ rfl
  | add l r ihl ihr | mul l r ihl ihr =>
    exact (ihl (ihr h)).cons ⟨rfl, by decide, by decide⟩ rfl

theorem Formula.reads_tokens (f : Formula) (h : Reads ss es) :
    Reads (f.tokens ss) (.formula f :: es) := by
  induction f generalizing ss es with
  | equal l r | less l r | proof l r =>
    exact (l.reads_tokens (r.reads_tokens h)).cons ⟨rfl, by decide, by decide⟩ rfl
  | not f ih => exact (ih h).cons ⟨rfl, by decide, by decide⟩ rfl
  | and l r ihl ihr | or l r ihl ihr =>
    exact (ihl (ihr h)).cons ⟨rfl, by decide, by decide⟩ rfl
  | all v f ih | ex v f ih =>
    exact (ih h).cons (denotes_variableToken (fun _ => rfl) (by decide) (by decide) v) rfl

theorem Polish.read?_toPolish (e : Expression) : read? e.toPolish = some e := by
  cases e with
  | term t => exact read?_of_reads (t.reads_tokens reads_nil)
  | formula f => exact read?_of_reads (f.reads_tokens reads_nil)

end Arithmetization
