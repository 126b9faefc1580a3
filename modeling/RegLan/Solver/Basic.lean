import RegLan.Word

/-! What a solver has to offer before a pattern can become one of its terms. The constructors
run in a monad of the solver's choice, so a binding may allocate or record; the types of
strings, terms and results are its own. -/

namespace RegLan

structure Solver (m : Type → Type) (Str Re Result : Type) where
  string : Word → m Str
  /-- The language of one string. -/
  toRe : Str → m Re
  /-- All strings of one character between two strings of one character. -/
  range : Str → Str → m Re
  union : Re → Re → m Re
  concat : Re → Re → m Re
  star : Re → m Re
  plus : Re → m Re
  opt : Re → m Re
  loop : Re → Nat → Nat → m Re
  compl : Re → m Re
  inter : Re → Re → m Re
  simplify : Re → m Re
  /-- A finished term together with a label. -/
  tag : Re → Word → m Result

end RegLan
