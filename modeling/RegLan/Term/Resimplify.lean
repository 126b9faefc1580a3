import RegLan.Term.Simplify

/-! Simplifying twice. A concatenation that finds another among its simplified operands may put the
operands of that one through simplification again before it takes them over. This recursion runs
on results, and a result can be larger than the term it came from: an intersection of nothing
becomes the complement of `none`. Nothing here says that it comes to an end; the depth to which
calls may nest is given, and may be too small. -/

namespace RegLan

namespace Term

/-- Puts an operand behind those kept so far, of which the last comes first. A literal is joined to
a literal before it. -/
def pushOperand : List Term → Term → List Term
  | kept, .literal [] => kept
  | .literal v :: kept, .literal w => .literal (v ++ w) :: kept
  | kept, t => t :: kept

mutual

/-- Simplification in which the operands of a concatenation within a concatenation are simplified
twice. The number says how deep calls may nest, a loop being a call for each turn; the value is
`none` if that is not deep enough. -/
def resimplify : Nat → Term → Option Term
  | 0, _ => .none
  | _ + 1, .none => return .none
  | _ + 1, .literal w => return .literal w
  | _ + 1, .range lo hi => return normRange lo hi
  | n + 1, .concat ts => do
    match ← gatherFactors n [] ts with
    | some kept => return concatOf kept.reverse
    | .none => return .none
  | n + 1, .union ts => do return unionOf (toSet (← gatherAlternatives n [] ts))
  | n + 1, .inter ts => do
    match ← gatherConjuncts n [] ts with
    | some kept => return interOf (toSet kept)
    | .none => return .none
  | n + 1, .compl t => do return normCompl (← resimplify n t)
  | n + 1, .star t => do return normStar (← resimplify n t)
  | n + 1, .plus t => do return normPlus (← resimplify n t)
  | n + 1, .opt t => do return normOpt (← resimplify n t)
  | n + 1, .loop t min max => do return normLoop (← resimplify n t) min max

/-- The operands of a concatenation, behind those kept so far. One that comes to `none` ends the
search at once, without a list. -/
def gatherFactors : Nat → List Term → List Term → Option (Option (List Term))
  | _, kept, [] => return some kept
  | 0, _, _ :: _ => .none
  | n + 1, kept, t :: ts => do
    match ← resimplify n t with
    | .none => return .none
    | .concat us =>
      match ← gatherFactors n kept us with
      | some kept => gatherFactors n kept ts
      | .none => return .none
    | u => gatherFactors n (pushOperand kept u) ts

def gatherAlternatives : Nat → List Term → List Term → Option (List Term)
  | _, kept, [] => return kept
  | 0, _, _ :: _ => .none
  | n + 1, kept, t :: ts => do
    gatherAlternatives n (kept ++ unionOperands (← resimplify n t)) ts

def gatherConjuncts : Nat → List Term → List Term → Option (Option (List Term))
  | _, kept, [] => return some kept
  | 0, _, _ :: _ => .none
  | n + 1, kept, t :: ts => do
    match ← resimplify n t with
    | .none => return .none
    | u => gatherConjuncts n (kept ++ interOperands u) ts

end

mutual

/-- What bounds the depth of the calls. An intersection weighs one more than a union of the same
operands, since an empty one becomes the complement of `none`. -/
@[simp] def weight : Term → Nat
  | .none => 1
  | .literal _ => 1
  | .range _ _ => 1
  | .concat ts => weightAll ts + 1
  | .union ts => weightAll ts + 1
  | .inter ts => weightAll ts + 2
  | .compl t => weight t + 1
  | .star t => weight t + 1
  | .plus t => weight t + 1
  | .opt t => weight t + 1
  | .loop t _ _ => weight t + 1

@[simp] def weightAll : List Term → Nat
  | [] => 0
  | t :: ts => weight t + weightAll ts + 1

end

end Term

end RegLan
