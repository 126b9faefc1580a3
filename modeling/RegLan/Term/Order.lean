import RegLan.Term.Basic

/-! A total order on terms: by constructor first, then field by field. Operand lists compare
lexicographically, a proper beginning first. A list that is strictly ascending in this order
stands for a set of terms. -/

namespace RegLan

namespace Term

/-- The place of the outermost constructor in the order. -/
def rank : Term → Nat
  | .none => 0
  | .literal _ => 1
  | .range _ _ => 2
  | .concat _ => 3
  | .union _ => 4
  | .inter _ => 5
  | .compl _ => 6
  | .star _ => 7
  | .plus _ => 8
  | .opt _ => 9
  | .loop _ _ _ => 10

mutual

def cmp : Term → Term → Ordering
  | .literal v, .literal w => Word.cmp v w
  | .range a b, .range c d => (compare a.toNat c.toNat).then (compare b.toNat d.toNat)
  | .concat ts, .concat us => cmpAll ts us
  | .union ts, .union us => cmpAll ts us
  | .inter ts, .inter us => cmpAll ts us
  | .compl t, .compl u => cmp t u
  | .star t, .star u => cmp t u
  | .plus t, .plus u => cmp t u
  | .opt t, .opt u => cmp t u
  | .loop t k m, .loop u l n => (cmp t u).then ((compare k l).then (compare m n))
  | t, u => compare t.rank u.rank

def cmpAll : List Term → List Term → Ordering
  | [], [] => .eq
  | [], _ :: _ => .lt
  | _ :: _, [] => .gt
  | t :: ts, u :: us => (cmp t u).then (cmpAll ts us)

end

instance : Ord Term := ⟨cmp⟩

instance : BEq Term := ⟨fun t u => (cmp t u).isEq⟩

/-- Puts a term in its place of an ascending list, unless it is there. -/
def insert (t : Term) : List Term → List Term
  | [] => [t]
  | u :: us =>
    match cmp t u with
    | .lt => t :: u :: us
    | .eq => u :: us
    | .gt => u :: insert t us

/-- The terms of a list, ascending and each once. -/
def toSet (ts : List Term) : List Term := ts.foldr insert []

/-- The terms of a list, ascending, with repetitions. -/
def sort (ts : List Term) : List Term := ts.mergeSort fun t u => (cmp t u).isLE

end Term

end RegLan
