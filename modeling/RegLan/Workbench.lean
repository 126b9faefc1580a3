import RegLan.Anchoring
import RegLan.Solver.Reference
import RegLan.Term.Derivative

/-! A workbench for terms: a stack on which they are built, combined and looked at, one command
at a time. A command that asks for more terms than there are does nothing. -/

namespace RegLan

namespace Workbench

/-- Terms made from nothing. -/
inductive Leaf where
  | text (w : Word)
  | range (v w : Word)
  | epsilon
  | char (c : Char)
  | any
  | digit
  | word
  | space

def Leaf.term : Leaf → Term
  | .text w => .literal w
  | .range v w => Term.rangeOf v w
  | .epsilon => (Solver.reference.epsilon).run
  | .char c => (Solver.reference.literal c).run
  | .any => (Solver.reference.any).run
  | .digit => (Solver.reference.digit).run
  | .word => (Solver.reference.word).run
  | .space => (Solver.reference.space).run

/-- What is done to the top of the stack. -/
inductive Change where
  | star
  | plus
  | opt
  | loop (min max : Nat)
  | compl
  | simplify
  | derive (c : Char)
  | anchor (a : Anchoring) (p : Word)

def Change.apply : Change → Term → Term
  | .star, t => .star t
  | .plus, t => .plus t
  | .opt, t => .opt t
  | .loop min max, t => .loop t min max
  | .compl, t => .compl t
  | .simplify, t => t.simplify
  | .derive c, t => t.deriv c
  | .anchor a p, t => (a.apply Solver.reference p t).run

/-- What is done to the two topmost terms, the lower of them first. -/
inductive Join where
  | union
  | concat
  | inter

def Join.apply : Join → Term → Term → Term
  | .union, t, u => .union [t, u]
  | .concat, t, u => .concat [t, u]
  | .inter, t, u => .inter [t, u]

inductive Command where
  | push (l : Leaf)
  | change (c : Change)
  | join (j : Join)
  | swap
  | dup
  | pop
  | tag (label : Word)
  | compare
  | accepts (w : Word)
  | info

inductive Reply where
  | top (t : Term) (size : Nat)
  | size (n : Nat)
  | label (w : Word)
  | order (o : Ordering) (equal : Bool)
  | accepts (b : Bool)
  | info (nullable isNone isEpsilon : Bool)
  | underflow

/-- The stack, topmost term first. -/
abbrev Stack := List Term

/-- The reply when `t` has been put on `s`. -/
def pushed (t : Term) (s : Stack) : Reply × Stack := (.top t (s.length + 1), t :: s)

def step : Command → Stack → Reply × Stack
  | .push l, s => pushed l.term s
  | .change c, t :: s => pushed (c.apply t) s
  | .join j, u :: t :: s => pushed (j.apply t u) s
  | .swap, u :: t :: s => pushed t (u :: s)
  | .dup, t :: s => pushed t (t :: s)
  | .pop, _ :: s => (.size s.length, s)
  | .tag label, t :: s => (.label (Solver.reference.tag t label).run.label, t :: s)
  | .compare, u :: t :: s => (.order (t.cmp u) (t == u), u :: t :: s)
  | .accepts w, t :: s => (.accepts (t.accepts w), t :: s)
  | .info, t :: s => (.info t.nullable t.isNone t.isEpsilon, t :: s)
  | _, s => (.underflow, s)

/-- The replies to some commands, one by one. -/
def run : List Command → Stack → List Reply
  | [], _ => []
  | c :: cs, s =>
    let (reply, s) := step c s
    reply :: run cs s

end Workbench

end RegLan
