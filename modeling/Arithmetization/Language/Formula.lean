import Arithmetization.Language.Term

/-!
This module contains the formulas of the language of arithmetic. Atoms are equations, inequalities
and the proof relation, which relates two terms and has no further meaning here. Substitution does
not rename bound variables, so a variable of the replacement may be captured.
-/

namespace Arithmetization

inductive Formula where
  | equal (l r : Term)
  | less (l r : Term)
  | not (f : Formula)
  | and (l r : Formula)
  | or (l r : Formula)
  | all (v : Variable) (f : Formula)
  | ex (v : Variable) (f : Formula)
  | proof (p f : Term)
deriving DecidableEq, Ord

namespace Formula

def implies (l r : Formula) : Formula :=
  .or (.not l) r

def size : Formula → Nat
  | .equal l r => 1 + l.size + r.size
  | .less l r => 1 + l.size + r.size
  | .not f => 1 + f.size
  | .and l r => 1 + l.size + r.size
  | .or l r => 1 + l.size + r.size
  | .all _ f => 2 + f.size
  | .ex _ f => 2 + f.size
  | .proof p f => 1 + p.size + f.size

theorem size_pos (f : Formula) : 0 < f.size := by
  cases f <;> simp only [size] <;> omega

def occursFree (f : Formula) (v : Variable) : Bool :=
  match f with
  | .equal l r => l.occurs v || r.occurs v
  | .less l r => l.occurs v || r.occurs v
  | .not f => f.occursFree v
  | .and l r => l.occursFree v || r.occursFree v
  | .or l r => l.occursFree v || r.occursFree v
  | .all w f => w ≠ v && f.occursFree v
  | .ex w f => w ≠ v && f.occursFree v
  | .proof p f => p.occurs v || f.occurs v

def collectFree : Formula → (bound : List Variable) → (out : VariableSet) → VariableSet
  | .equal l r, bound, out => ofTerms l r bound out
  | .less l r, bound, out => ofTerms l r bound out
  | .not f, bound, out => f.collectFree bound out
  | .and l r, bound, out => r.collectFree bound (l.collectFree bound out)
  | .or l r, bound, out => r.collectFree bound (l.collectFree bound out)
  | .all v f, bound, out => f.collectFree (v :: bound) out
  | .ex v f, bound, out => f.collectFree (v :: bound) out
  | .proof p f, bound, out => ofTerms p f bound out
where
  ofTerms (l r : Term) (bound : List Variable) (out : VariableSet) : VariableSet :=
    (r.collect (l.collect ∅)).filter (¬ · ∈ bound) ∪ out

theorem mem_collectFree {v : Variable} (f : Formula) (bound : List Variable) (out : VariableSet) :
    v ∈ f.collectFree bound out ↔ (f.occursFree v = true ∧ ¬ v ∈ bound) ∨ v ∈ out := by
  induction f generalizing bound out with
  | not f ih => exact ih bound out
  | and l r ihl ihr =>
    rw [collectFree, ihr, ihl, occursFree, Bool.or_eq_true]
    grind
  | or l r ihl ihr =>
    rw [collectFree, ihr, ihl, occursFree, Bool.or_eq_true]
    grind
  | all w f ih =>
    rw [collectFree, ih, occursFree, List.mem_cons, Bool.and_eq_true, decide_eq_true_eq]
    grind
  | ex w f ih =>
    rw [collectFree, ih, occursFree, List.mem_cons, Bool.and_eq_true, decide_eq_true_eq]
    grind
  | equal l r | less l r | proof l r =>
    simp [collectFree, collectFree.ofTerms, occursFree, Term.mem_collect, or_comm]

def freeVariables (f : Formula) : VariableSet :=
  f.collectFree [] ∅

@[simp]
theorem mem_freeVariables {v : Variable} {f : Formula} :
    v ∈ f.freeVariables ↔ f.occursFree v = true := by
  simp [freeVariables, mem_collectFree]

def collectBound : Formula → (out : VariableSet) → VariableSet
  | .equal _ _, out => out
  | .less _ _, out => out
  | .not f, out => f.collectBound out
  | .and l r, out => r.collectBound (l.collectBound out)
  | .or l r, out => r.collectBound (l.collectBound out)
  | .all v f, out => f.collectBound (out.insert v)
  | .ex v f, out => f.collectBound (out.insert v)
  | .proof _ _, out => out

def boundVariables (f : Formula) : VariableSet :=
  f.collectBound ∅

theorem mem_collectBound {v : Variable} (f : Formula) (out : VariableSet) :
    v ∈ f.collectBound out ↔ v ∈ f.boundVariables ∨ v ∈ out := by
  unfold boundVariables
  induction f generalizing out with
  | equal l r | less l r | proof l r => simp [collectBound]
  | not f ih => exact ih out
  | and l r ihl ihr | or l r ihl ihr =>
    rw [collectBound, collectBound, ihr, ihl, ihr (l.collectBound ∅), or_assoc]
  | all w f ih | ex w f ih =>
    rw [collectBound, collectBound, ih, ih (VariableSet.insert ∅ w)]
    simp [or_assoc]

section

variable {v w : Variable} {f l r : Formula} {t u : Term}

@[simp]
theorem not_mem_boundVariables_equal : ¬ v ∈ (equal t u).boundVariables := by
  simp [boundVariables, collectBound]

@[simp]
theorem not_mem_boundVariables_less : ¬ v ∈ (less t u).boundVariables := by
  simp [boundVariables, collectBound]

@[simp]
theorem not_mem_boundVariables_proof : ¬ v ∈ (proof t u).boundVariables := by
  simp [boundVariables, collectBound]

@[simp]
theorem mem_boundVariables_not : v ∈ (not f).boundVariables ↔ v ∈ f.boundVariables := by
  rfl

@[simp]
theorem mem_boundVariables_and :
    v ∈ (and l r).boundVariables ↔ v ∈ l.boundVariables ∨ v ∈ r.boundVariables := by
  rw [boundVariables, collectBound, mem_collectBound, or_comm]
  rfl

@[simp]
theorem mem_boundVariables_or :
    v ∈ (or l r).boundVariables ↔ v ∈ l.boundVariables ∨ v ∈ r.boundVariables := by
  rw [boundVariables, collectBound, mem_collectBound, or_comm]
  rfl

@[simp]
theorem mem_boundVariables_all :
    v ∈ (all w f).boundVariables ↔ v = w ∨ v ∈ f.boundVariables := by
  rw [boundVariables, collectBound, mem_collectBound, or_comm]
  simp

@[simp]
theorem mem_boundVariables_ex :
    v ∈ (ex w f).boundVariables ↔ v = w ∨ v ∈ f.boundVariables := by
  rw [boundVariables, collectBound, mem_collectBound, or_comm]
  simp

end

def isSentence (f : Formula) : Bool :=
  f.freeVariables.isEmpty

theorem isSentence_iff {f : Formula} : f.isSentence = true ↔ ∀ v, f.occursFree v = false := by
  simp [isSentence, VariableSet.isEmpty_iff]

def subst (f : Formula) (v : Variable) (r : Term) : Formula :=
  match f with
  | .equal l m => .equal (l.subst v r) (m.subst v r)
  | .less l m => .less (l.subst v r) (m.subst v r)
  | .not f => .not (f.subst v r)
  | .and f g => .and (f.subst v r) (g.subst v r)
  | .or f g => .or (f.subst v r) (g.subst v r)
  | .all w f => if w = v then .all w f else .all w (f.subst v r)
  | .ex w f => if w = v then .ex w f else .ex w (f.subst v r)
  | .proof p f => .proof (p.subst v r) (f.subst v r)

end Formula

end Arithmetization
