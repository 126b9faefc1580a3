import RegLan.Pattern.Basic
import RegLan.Solver.Basic

/-! Patterns as terms of any solver. Arguments are built from left to right, each right before the
call that needs it: a list is built as first item, second item, their combination, third
item, and so on. -/

namespace RegLan

namespace Solver

variable {m : Type → Type} [Monad m] {Str Re Result : Type} (S : Solver m Str Re Result)

def literal (c : Char) : m Re := do
  S.toRe (← S.string [c])

def epsilon : m Re := do
  S.toRe (← S.string [])

def charRange (lo hi : Char) : m Re := do
  S.range (← S.string [lo]) (← S.string [hi])

/-- Every character up to U+00FF but the line feed. -/
def any : m Re := do
  S.union (← S.charRange '\x00' '\x09') (← S.charRange '\x0b' '\xff')

def digit : m Re := S.charRange '0' '9'

def word : m Re := do
  let letters ← S.union (← S.charRange 'a' 'z') (← S.charRange 'A' 'Z')
  let alphanumeric ← S.union letters (← S.digit)
  S.union alphanumeric (← S.literal '_')

def space : m Re := do
  let breaks ← S.union (← S.literal '\n') (← S.literal '\x0c')
  let breaks ← S.union (← S.literal '\r') breaks
  let breaks ← S.union (← S.literal '\t') breaks
  S.union (← S.literal ' ') breaks

def shorthand (k : Shorthand) (negated : Bool) : m Re := do
  let r ← match k with
    | .digit => S.digit
    | .word => S.word
    | .space => S.space
  if negated then S.compl r else return r

def member : Member → m Re
  | .char c => S.literal c
  | .range lo hi => S.charRange lo hi

/-- What `any` accepts and `r` does not. -/
def anyExcept (r : Re) : m Re := do
  S.inter (← S.any) (← S.compl r)

/-- A term that accepts no word, made from `any`. -/
def nothing : m Re := do
  S.inter (← S.any) (← S.compl (← S.any))

def unionMembers (r : Re) : List Member → m Re
  | [] => return r
  | i :: is => do unionMembers (← S.union r (← S.member i)) is

def members : List Member → m Re
  | [] => S.nothing
  | i :: is => do S.unionMembers (← S.member i) is

def bracket (b : Bracket) : m Re := do
  let r ← S.members b.members
  if b.negated then S.anyExcept r else return r

def quantify (r : Re) : Quantifier → m Re
  | .zeroOrMore => S.star r
  | .oneOrMore => S.plus r
  | .zeroOrOne => S.opt r
  | .between min max => S.loop r min max

mutual

/-- The term of a pattern. Every concatenation is handed to the solver to simplify. -/
def build : Pattern → m Re
  | .concat ps => do S.simplify (← buildConcat ps)
  | .alt p q => do S.union (← build p) (← build q)
  | .rep k p => do S.quantify (← build p) k
  | .char c => S.literal c
  | .any => S.any
  | .shorthand k negated => S.shorthand k negated
  | .bracket b => S.bracket b

def buildConcat : List Pattern → m Re
  | [] => S.epsilon
  | p :: ps => do appendAll ps (← build p)

def appendAll : List Pattern → Re → m Re
  | [], r => return r
  | p :: ps, r => do appendAll ps (← S.concat r (← build p))

end

end Solver

end RegLan
