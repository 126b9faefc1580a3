import RegLan.Term.Basic

/-! Terms as SMT-LIB text. In a string constant a double quote is written twice, and whatever is
not printable ASCII is written as its code point in hexadecimal, in braces after a
backslash and a `u`. -/

namespace RegLan

namespace Smtlib

def escape (c : Char) : Word :=
  if c = '"' then ['"', '"']
  else if ' ' ≤ c ∧ c ≤ '~' then [c]
  else "\\u\x7b".toList ++ Nat.toDigits 16 c.toNat ++ "\x7d".toList

/-- A string constant. -/
def quote (w : Word) : Word := '"' :: (w.flatMap escape ++ ['"'])

def number (n : Nat) : Word := Nat.toDigits 10 n

end Smtlib

namespace Term

open Smtlib

mutual

def smtlib : Term → Word
  | .none => "re.none".toList
  | .literal w => "(str.to_re ".toList ++ quote w ++ ")".toList
  | .range lo hi => "(re.range ".toList ++ quote [lo] ++ " ".toList ++ quote [hi] ++ ")".toList
  | .concat ts => "(re.++ ".toList ++ smtlibAll ts ++ ")".toList
  | .union ts => "(re.union ".toList ++ smtlibAll ts ++ ")".toList
  | .inter ts => "(re.inter ".toList ++ smtlibAll ts ++ ")".toList
  | .compl t => "(re.comp ".toList ++ smtlib t ++ ")".toList
  | .star t => "(re.* ".toList ++ smtlib t ++ ")".toList
  | .plus t => "(re.+ ".toList ++ smtlib t ++ ")".toList
  | .opt t => "(re.opt ".toList ++ smtlib t ++ ")".toList
  | .loop t min max =>
    "((_ re.loop ".toList ++ number min ++ " ".toList ++ number max ++ ") ".toList ++ smtlib t ++
      ")".toList

/-- The operands with one blank between neighbours. -/
def smtlibAll : List Term → Word
  | [] => []
  | [t] => smtlib t
  | t :: ts => smtlib t ++ " ".toList ++ smtlibAll ts

end

end Term

end RegLan
