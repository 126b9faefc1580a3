import RegLan.Plain.Choice
import RegLan.Term.Smtlib

/-! Terms as plain expressions. A term that only describes single characters becomes a set of them,
and with that the complements and intersections in it are gone. Any other complement or
intersection has no plain form. -/

namespace RegLan

namespace Term

mutual

/-- The characters that a term describes, if single characters are all it describes. A complement
counts only within an intersection, and only next to an operand that is none. -/
def charSet? : Term → Option CharSet
  | .range lo hi => some (.range lo hi)
  | .literal [c] => some (.singleton c)
  | .union ts => do return (← charSets? ts).foldl CharSet.union .empty
  | .inter ts => do
    match ← interSets? ts with
    | (a :: included, excluded) =>
      return (included.foldl CharSet.inter a).diff (excluded.foldl CharSet.union .empty)
    | ([], _) => .none
  | _ => .none

def charSets? : List Term → Option (List CharSet)
  | [] => some []
  | t :: ts => do return (← charSet? t) :: (← charSets? ts)

/-- The sets that an intersection keeps to, and those that its complements exclude. -/
def interSets? : List Term → Option (List CharSet × List CharSet)
  | [] => some ([], [])
  | .compl t :: ts => do
    let a ← charSet? t
    let (included, excluded) ← interSets? ts
    return (included, a :: excluded)
  | t :: ts => do
    let a ← charSet? t
    let (included, excluded) ← interSets? ts
    return (a :: included, excluded)

end

end Term

/-- The part of a term because of which it has no plain form. -/
inductive NoPlainForm where
  | complement (t : Term)
  | intersection (t : Term)

def NoPlainForm.message : NoPlainForm → String
  | .complement t =>
    "complement of a multi-character language cannot be lowered: " ++ String.ofList t.smtlib
  | .intersection t =>
    "intersection of multi-character languages cannot be lowered: " ++ String.ofList t.smtlib

namespace Term

mutual

/-- The plain form of a term. Of several parts without one the leftmost is reported. -/
def toPlain (t : Term) : Except NoPlainForm Plain :=
  match t, t.charSet? with
  | _, some a => return .ofSet a
  | .none, .none => return .fail
  | .literal w, .none => return .ofWord w
  | .range _ _, .none => return .fail
  | .concat ts, .none => do return .sequence (← toPlainAll ts)
  | .union ts, .none => do return .choice (← toPlainAll ts)
  | .inter ts, .none => throw (.intersection (.inter ts))
  | .compl t, .none => throw (.complement (.compl t))
  | .star t, .none => do return (← toPlain t).times 0 .none
  | .plus t, .none => do return (← toPlain t).times 1 .none
  | .opt t, .none => do return (← toPlain t).times 0 (some 1)
  | .loop t min max, .none =>
    if max < min then return .fail else do return (← toPlain t).times min (some max)

def toPlainAll : List Term → Except NoPlainForm (List Plain)
  | [] => return []
  | t :: ts => do return (← toPlain t) :: (← toPlainAll ts)

end

end Term

end RegLan
