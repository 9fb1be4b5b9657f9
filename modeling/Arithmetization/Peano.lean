import Arithmetization.Language.Formula

/-!
This module contains axioms of Peano arithmetic on zero, the successor and addition. The axioms on
multiplication and the induction scheme are not among them.
-/

namespace Arithmetization

namespace Peano

def successorNotZero : Formula :=
  .all .x (.not (.equal (.succ (.var .x)) .zero))

def successorInjective : Formula :=
  let x := Variable.x
  let y := Variable.x.next
  .all x (.all y
    (.implies (.equal (.succ (.var x)) (.succ (.var y))) (.equal (.var x) (.var y))))

def addZero : Formula :=
  .all .x (.equal (.add (.var .x) .zero) (.var .x))

def addSuccessor : Formula :=
  let x := Variable.x
  let y := Variable.x.next
  .all x (.all y
    (.equal (.add (.var x) (.succ (.var y))) (.succ (.add (.var x) (.var y)))))

def axioms : List Formula :=
  [successorNotZero, successorInjective, addZero, addSuccessor]

end Peano

end Arithmetization
