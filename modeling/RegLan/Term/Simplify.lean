import RegLan.Term.Order

/-! The normal form of a term, computed from the leaves up. Each `norm…` function takes
operands that are normal forms and returns the normal form of its constructor applied to them,
so nothing is simplified twice. Concatenations, unions and intersections are flat and have
at least two operands; those of a union or an intersection ascend; the literals of a
concatenation are nonempty and never adjacent. -/

namespace RegLan

namespace Term

/-- What a term contributes to a concatenation around it. -/
def concatOperands : Term → List Term
  | .concat ts => ts
  | t => [t]

/-- What a term contributes to a union around it. -/
def unionOperands : Term → List Term
  | .none => []
  | .union ts => ts
  | t => [t]

/-- What a term contributes to an intersection around it. -/
def interOperands : Term → List Term
  | .inter ts => ts
  | t => [t]

/-- Puts an operand in front of a concatenation, joined to a literal at its head. -/
def joinOperand : Term → List Term → List Term
  | .literal [], ts => ts
  | .literal v, .literal w :: ts => .literal (v ++ w) :: ts
  | t, ts => t :: ts

def concatOf : List Term → Term
  | [] => epsilon
  | [t] => t
  | ts => .concat ts

def unionOf : List Term → Term
  | [] => .none
  | [t] => t
  | ts => .union ts

def interOf : List Term → Term
  | [] => .compl .none
  | [t] => t
  | ts => .inter ts

def normRange (lo hi : Char) : Term := if lo ≤ hi then .range lo hi else .none

def normConcat (ts : List Term) : Term :=
  let operands := ts.flatMap concatOperands
  if operands.any isNone then .none else concatOf (operands.foldr joinOperand [])

def normUnion (ts : List Term) : Term := unionOf (toSet (ts.flatMap unionOperands))

def normInter (ts : List Term) : Term :=
  if ts.any isNone then .none else interOf (toSet (ts.flatMap interOperands))

def normCompl : Term → Term
  | .compl t => t
  | t => .compl t

def normStar : Term → Term
  | .none => epsilon
  | .literal [] => epsilon
  | .star t => .star t
  | .plus t => .star t
  | .opt t => .star t
  | t => .star t

def normPlus : Term → Term
  | .none => .none
  | .literal [] => epsilon
  | .star t => .star t
  | .plus t => .plus t
  | .opt t => .star t
  | t => .plus t

def normOpt : Term → Term
  | .none => epsilon
  | .literal [] => epsilon
  | .star t => .star t
  | .plus t => .star t
  | .opt t => .opt t
  | t => .opt t

def normLoop (t : Term) (min max : Nat) : Term :=
  if max < min then .none
  else if max = 0 ∨ t.isEpsilon then epsilon
  else if t.isNone then if min = 0 then epsilon else .none
  else if min = 1 ∧ max = 1 then t
  else .loop t min max

mutual

def simplify : Term → Term
  | .none => .none
  | .literal w => .literal w
  | .range lo hi => normRange lo hi
  | .concat ts => normConcat (simplifyAll ts)
  | .union ts => normUnion (simplifyAll ts)
  | .inter ts => normInter (simplifyAll ts)
  | .compl t => normCompl (simplify t)
  | .star t => normStar (simplify t)
  | .plus t => normPlus (simplify t)
  | .opt t => normOpt (simplify t)
  | .loop t min max => normLoop (simplify t) min max

def simplifyAll : List Term → List Term
  | [] => []
  | t :: ts => simplify t :: simplifyAll ts

end

theorem simplifyAll_eq_map (ts : List Term) : simplifyAll ts = ts.map simplify := by
  induction ts with
  | nil => rfl
  | cons t ts ih => rw [simplifyAll, ih, List.map_cons]

theorem simplify_concat (ts : List Term) :
    (concat ts).simplify = normConcat (ts.map simplify) := by
  rw [simplify, simplifyAll_eq_map]

theorem simplify_union (ts : List Term) : (union ts).simplify = normUnion (ts.map simplify) := by
  rw [simplify, simplifyAll_eq_map]

theorem simplify_inter (ts : List Term) : (inter ts).simplify = normInter (ts.map simplify) := by
  rw [simplify, simplifyAll_eq_map]

end Term

end RegLan
