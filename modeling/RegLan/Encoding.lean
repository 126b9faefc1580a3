import RegLan.Anchoring
import RegLan.Literal
import RegLan.Pattern.Inspect
import RegLan.Pattern.Parser
import RegLan.Solver.Reference

/-! Regex literals encoded as labelled terms of a solver, and what there is to log about it. -/

namespace RegLan

variable {m : Type → Type} [Monad m] {Str Re Result : Type}

/-- The term of a pattern, widened for its missing anchors. -/
def encodePattern (S : Solver m Str Re Result) (a : Anchoring) (p : Word) :
    m (Except ParseError Re) :=
  match Pattern.parse p with
  | .error e => return .error e
  | .ok t => do return .ok (← a.apply S p (← S.build t))

/-- The term of a literal, labelled with its text. The flags have no effect. -/
def encodeLiteral (S : Solver m Str Re Result) (a : Anchoring) (literal : Word) :
    m (Except ParseError Result) := do
  match ← encodePattern S a (Literal.ofText literal).pattern with
  | .error e => return .error e
  | .ok r => return .ok (← S.tag r literal)

namespace Encoding

inductive Level where
  | debug
  | trace

/-- What an encoding tells its log. -/
inductive Event where
  | started (literal : Word)
  | flagsIgnored (flags literal : Word)
  | parsed (pattern : Word) (tree : Pattern)
  | failed (literal : Word) (error : ParseError)

def Event.level : Event → Level
  | .parsed _ _ => .trace
  | _ => .debug

def Event.message (hidden : Char → Bool) : Event → String
  | .started literal => "translating " ++ Inspect.word hidden literal
  | .flagsIgnored flags literal =>
    "ignoring flags " ++ Inspect.word hidden flags ++ " of " ++ Inspect.word hidden literal
  | .parsed pattern tree => Inspect.word hidden pattern ++ " parsed: " ++ tree.inspect hidden
  | .failed literal error =>
    "failed to translate " ++ Inspect.word hidden literal ++ ": " ++ error.message

/-- The events of encoding a literal, in order. They depend on neither solver nor anchoring. -/
def events (literal : Word) : List Event :=
  let l := Literal.ofText literal
  let ignored := if l.flags.isEmpty then [] else [.flagsIgnored l.flags literal]
  let outcome := match Pattern.parse l.pattern with
    | .ok tree => .parsed l.pattern tree
    | .error e => .failed literal e
  .started literal :: (ignored ++ [outcome])

end Encoding

end RegLan
