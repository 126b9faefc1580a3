import RegLan.Inspect
import RegLan.Pattern.Basic

/-! Patterns written out constructor by constructor. -/

namespace RegLan

open Inspect

namespace Shorthand

def inspect : Shorthand → String
  | .digit => "Digit"
  | .word => "Word"
  | .space => "Space"

end Shorthand

namespace Quantifier

def inspect : Quantifier → String
  | .zeroOrMore => "ZeroOrMore"
  | .oneOrMore => "OneOrMore"
  | .zeroOrOne => "ZeroOrOne"
  | .between min max => record "Range" [("min", number min), ("max", number max)]

end Quantifier

variable (hidden : Char → Bool)

namespace Member

def inspect : Member → String
  | .char c => applied "Char" [Inspect.char hidden c]
  | .range lo hi => applied "Range" [Inspect.char hidden lo, Inspect.char hidden hi]

end Member

namespace Bracket

def inspect (b : Bracket) : String :=
  record "Class"
    [("negated", bool b.negated), ("items", list (b.members.map (Member.inspect hidden)))]

end Bracket

namespace Pattern

mutual

def inspect : Pattern → String
  | .concat ps => applied "Concat" [list (inspectAll ps)]
  | .alt p q => applied "Alternation" [inspect p, inspect q]
  | .rep k p => record "Repetition" [("kind", k.inspect), ("sub", inspect p)]
  | .char c => applied "Literal" [Inspect.char hidden c]
  | .any => "Any"
  | .shorthand k negated =>
    applied "Perl" [record "PerlClass" [("kind", k.inspect), ("negated", bool negated)]]
  | .bracket b => applied "Class" [b.inspect hidden]

def inspectAll : List Pattern → List String
  | [] => []
  | p :: ps => inspect p :: inspectAll ps

end

end Pattern

end RegLan
