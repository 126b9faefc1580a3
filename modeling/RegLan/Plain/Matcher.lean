import RegLan.Plain.OfTerm
import RegLan.Term.Derivative

/-! Matchers: terms in their plain form, run by an engine. How an engine runs plain expressions, and
which of them it finds too large, is its own affair, so the engine is a parameter. -/

namespace RegLan

/-- What runs plain expressions, each on whole words. It may refuse to build one. -/
structure Engine where
  Machine : Type
  Refusal : Type
  build : Plain → Except Refusal Machine
  run : Machine → Word → Bool

/-- Why there is no matcher for a term. -/
inductive MatcherError (E : Engine) where
  | noPlainForm (e : NoPlainForm)
  | refused (r : E.Refusal)

structure Matcher (E : Engine) where
  machine : E.Machine

namespace Matcher

variable {E : Engine}

def ofTerm (E : Engine) (t : Term) : Except (MatcherError E) (Matcher E) :=
  match t.toPlain with
  | .error e => .error (.noPlainForm e)
  | .ok e =>
    match E.build e with
    | .error r => .error (.refused r)
    | .ok m => .ok ⟨m⟩

def accepts (m : Matcher E) (w : Word) : Bool := E.run m.machine w

end Matcher

namespace Plain

/-- The term of a set of characters, one range for each span. -/
def setTerm (a : CharSet) : Term :=
  .union (a.spans.map fun s => .range (Char.ofNat s.lo) (Char.ofNat s.hi))

mutual

/-- The plain expression as a term. -/
def toTerm : Plain → Term
  | .empty => .epsilon
  | .fail => .none
  | .word w => .literal w
  | .set a => setTerm a
  | .rep min (some max) e => .loop (toTerm e) min max
  | .rep min none e => .concat [.loop (toTerm e) min min, .star (toTerm e)]
  | .seq es => .concat (toTermAll es)
  | .alt es => .union (toTermAll es)

def toTermAll : List Plain → List Term
  | [] => []
  | e :: es => toTerm e :: toTermAll es

end

end Plain

/-- The engine that takes derivatives of the expression as a term. It refuses none. -/
def Engine.derivatives : Engine where
  Machine := Term
  Refusal := Empty
  build e := .ok e.toTerm
  run := Term.accepts

end RegLan
