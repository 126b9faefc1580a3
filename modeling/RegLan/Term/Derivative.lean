import RegLan.Term.Simplify

/-! Derivatives: `deriv c t` accepts `w` when `t` accepts `c :: w`. Matching takes one
derivative for each character and keeps the term in normal form in between. -/

namespace RegLan

namespace Term

mutual

/-- The derivative as its rules give it, with nothing simplified. -/
def deriv (c : Char) : Term → Term
  | .none => .none
  | .literal [] => .none
  | .literal (a :: w) => if c = a then .literal w else .none
  | .range lo hi => if lo ≤ c ∧ c ≤ hi then epsilon else .none
  | .concat ts => derivConcat c ts
  | .union ts => .union (derivAll c ts)
  | .inter ts => .inter (derivAll c ts)
  | .compl t => .compl (deriv c t)
  | .star t => .concat [deriv c t, .star t]
  | .plus t => .concat [deriv c t, .star t]
  | .opt t => deriv c t
  | .loop t min max =>
    if max < min ∨ max = 0 then .none
    else .concat [deriv c t, .loop t (min - 1) (max - 1)]

/-- The derivative of a concatenation: of its first operand, or past it if that is nullable. -/
def derivConcat (c : Char) : List Term → Term
  | [] => .none
  | t :: ts =>
    let head := .concat [deriv c t, .concat ts]
    if t.nullable then .union [head, derivConcat c ts] else head

def derivAll (c : Char) : List Term → List Term
  | [] => []
  | t :: ts => deriv c t :: derivAll c ts

end

theorem derivAll_eq_map (c : Char) (ts : List Term) : derivAll c ts = ts.map (deriv c) := by
  induction ts with
  | nil => rfl
  | cons t ts ih => rw [derivAll, ih, List.map_cons]

/-- The term and its derivatives by ever longer beginnings of a word, each put through `f` before
the next is taken. -/
def derivatives (f : Term → Term) (t : Term) : Word → List Term
  | [] => [f t]
  | c :: w => f t :: derivatives f (deriv c (f t)) w

/-- Whether the derivative by a word is nullable. A term that can accept nothing more ends the
search at once. -/
def acceptsFrom (t : Term) : Word → Bool
  | [] => t.nullable
  | c :: w => !t.isNone && acceptsFrom (deriv c t).simplify w

/-- Whether the word is in the language of the term. -/
def accepts (t : Term) (w : Word) : Bool := acceptsFrom t.simplify w

end Term

end RegLan
