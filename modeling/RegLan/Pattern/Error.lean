import RegLan.Inspect

/-! Why a pattern cannot be read, and where. Readers report a fault together with the text that
follows it; only at the end does that text become an offset. -/

namespace RegLan

inductive Problem where
  | expectedAtom
  | nothingToRepeat
  | unclosedGroup
  | unmatchedParen
  | unclosedClass
  | emptyClass
  | expectedCount
  | countTooLarge
  | unclosedCount
  | danglingEscape
  | invalidToken
deriving DecidableEq

/-- A problem at a byte offset of the pattern. What was left open is blamed where it opens. -/
structure ParseError where
  problem : Problem
  offset : Nat
deriving DecidableEq

namespace Problem

def name : Problem → String
  | .expectedAtom => "ExpectedAtom"
  | .nothingToRepeat => "NothingToRepeat"
  | .unclosedGroup => "UnclosedGroup"
  | .unmatchedParen => "UnmatchedParen"
  | .unclosedClass => "UnclosedClass"
  | .emptyClass => "EmptyClass"
  | .expectedCount => "ExpectedLoopCount"
  | .countTooLarge => "LoopCountOverflow"
  | .unclosedCount => "UnclosedLoop"
  | .danglingEscape => "DanglingEscape"
  | .invalidToken => "InvalidToken"

end Problem

namespace ParseError

def message (e : ParseError) : String :=
  let n := Inspect.number e.offset
  match e.problem with
  | .expectedAtom => "expected an atom at offset " ++ n
  | .nothingToRepeat => "nothing to repeat at offset " ++ n
  | .unclosedGroup => "unclosed group opened at offset " ++ n
  | .unmatchedParen => "unmatched `)` at offset " ++ n
  | .unclosedClass => "unclosed character class opened at offset " ++ n
  | .emptyClass => "empty character class at offset " ++ n
  | .expectedCount => "expected a repetition count at offset " ++ n
  | .countTooLarge => "repetition count at offset " ++ n ++ " is too large"
  | .unclosedCount => "unclosed repetition opened at offset " ++ n
  | .danglingEscape => "dangling escape at offset " ++ n
  | .invalidToken => "invalid token at offset " ++ n

def inspect (e : ParseError) : String :=
  Inspect.record e.problem.name [("at", Inspect.number e.offset)]

end ParseError

namespace Pattern

/-- A problem and the text from the place it is blamed on. -/
structure Fault where
  problem : Problem
  rest : Word

/-- The fault as an error of the pattern `p`, of which its text is the end. -/
def Fault.locate (p : Word) (f : Fault) : ParseError :=
  ⟨f.problem, Word.utf8Size p - Word.utf8Size f.rest⟩

end Pattern

end RegLan
