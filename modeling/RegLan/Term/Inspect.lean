import RegLan.Inspect
import RegLan.Term.Basic

/-! Terms written out constructor by constructor. -/

namespace RegLan

namespace Term

open Inspect

variable (hidden : Char → Bool)

mutual

def inspect : Term → String
  | .none => "None"
  | .literal w => applied "Literal" [word hidden w]
  | .range lo hi => applied "Range" [char hidden lo, char hidden hi]
  | .concat ts => applied "Concat" [list (inspectAll ts)]
  | .union ts => applied "Union" [list (inspectAll ts)]
  | .inter ts => applied "Inter" [list (inspectAll ts)]
  | .compl t => applied "Complement" [inspect t]
  | .star t => applied "Star" [inspect t]
  | .plus t => applied "Plus" [inspect t]
  | .opt t => applied "Opt" [inspect t]
  | .loop t min max =>
    record "Loop" [("sub", inspect t), ("min", number min), ("max", number max)]

def inspectAll : List Term → List String
  | [] => []
  | t :: ts => inspect t :: inspectAll ts

end

end Term

end RegLan
