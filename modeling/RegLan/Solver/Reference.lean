import RegLan.Inspect
import RegLan.Solver.Build
import RegLan.Term.Inspect
import RegLan.Term.Simplify

/-! The solver whose terms are the trees themselves. -/

namespace RegLan

/-- A term and what it was made from. -/
structure Labelled where
  label : Word
  term : Term

def Labelled.inspect (hidden : Char → Bool) (t : Labelled) : String :=
  Inspect.record "Tagged"
    [("label", Inspect.word hidden t.label), ("term", t.term.inspect hidden)]

/-- A range asks for two strings of one character each and is empty for any others. -/
def Term.rangeOf : Word → Word → Term
  | [lo], [hi] => .range lo hi
  | _, _ => .none

def Solver.reference : Solver Id Word Term Labelled where
  string w := w
  toRe w := .literal w
  range v w := Term.rangeOf v w
  union t u := .union [t, u]
  concat t u := .concat [t, u]
  star t := .star t
  plus t := .plus t
  opt t := .opt t
  loop t min max := .loop t min max
  compl t := .compl t
  inter t u := .inter [t, u]
  simplify t := t.simplify
  tag t label := ⟨label, t⟩

/-- The tree of a pattern. -/
def Pattern.toTerm (p : Pattern) : Term := (Solver.reference.build p).run

end RegLan
