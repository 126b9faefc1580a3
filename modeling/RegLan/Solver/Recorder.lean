import RegLan.Solver.Basic

/-! The solver that only writes down what it is asked for. The value of a call is its place in
the record. -/

namespace RegLan

/-- A call; strings and terms are given by the places of the calls that made them. -/
inductive Call where
  | string (w : Word)
  | toRe (i : Nat)
  | range (i j : Nat)
  | union (i j : Nat)
  | concat (i j : Nat)
  | star (i : Nat)
  | plus (i : Nat)
  | opt (i : Nat)
  | loop (i min max : Nat)
  | compl (i : Nat)
  | inter (i j : Nat)
  | simplify (i : Nat)
  | tag (i : Nat) (label : Word)
deriving DecidableEq

abbrev Recording := StateM (Array Call)

namespace Recording

def record (c : Call) : Recording Nat := fun calls => (calls.size, calls.push c)

end Recording

open Recording in
def Solver.recorder : Solver Recording Nat Nat Nat where
  string w := record (.string w)
  toRe i := record (.toRe i)
  range i j := record (.range i j)
  union i j := record (.union i j)
  concat i j := record (.concat i j)
  star i := record (.star i)
  plus i := record (.plus i)
  opt i := record (.opt i)
  loop i min max := record (.loop i min max)
  compl i := record (.compl i)
  inter i j := record (.inter i j)
  simplify i := record (.simplify i)
  tag i label := record (.tag i label)

end RegLan
