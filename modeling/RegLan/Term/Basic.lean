import RegLan.Word

/-! Terms of the SMT-LIB sort `RegLan`, as trees. Nothing is simplified when a term is
built: operand lists may be empty or hold one term, a range may run backwards, and a loop
may ask for more than its maximum. -/

namespace RegLan

inductive Term where
  | none
  | literal (w : Word)
  | range (lo hi : Char)
  | concat (ts : List Term)
  | union (ts : List Term)
  | inter (ts : List Term)
  | compl (t : Term)
  | star (t : Term)
  | plus (t : Term)
  | opt (t : Term)
  | loop (t : Term) (min max : Nat)
deriving Inhabited

namespace Term

/-- Induction on terms, in which the operands of a term are given as members of its list. -/
@[elab_as_elim, induction_eliminator]
theorem induction {motive : Term → Prop} (none : motive .none)
    (literal : ∀ w, motive (.literal w)) (range : ∀ lo hi, motive (.range lo hi))
    (concat : ∀ ts, (∀ t ∈ ts, motive t) → motive (.concat ts))
    (union : ∀ ts, (∀ t ∈ ts, motive t) → motive (.union ts))
    (inter : ∀ ts, (∀ t ∈ ts, motive t) → motive (.inter ts))
    (compl : ∀ t, motive t → motive (.compl t)) (star : ∀ t, motive t → motive (.star t))
    (plus : ∀ t, motive t → motive (.plus t)) (opt : ∀ t, motive t → motive (.opt t))
    (loop : ∀ t min max, motive t → motive (.loop t min max)) (t : Term) : motive t :=
  @Term.rec motive (fun ts => ∀ t ∈ ts, motive t) none literal range concat union inter compl star
    plus opt loop (fun _ h => nomatch h) (fun _ _ h hs => List.forall_mem_cons.2 ⟨h, hs⟩) t

/-- The term of the empty word alone. -/
def epsilon : Term := .literal []

def isNone : Term → Bool
  | .none => true
  | _ => false

def isEpsilon : Term → Bool
  | .literal [] => true
  | _ => false

mutual

/-- Whether the term accepts the empty word. -/
def nullable : Term → Bool
  | .none => false
  | .literal w => w.isEmpty
  | .range _ _ => false
  | .concat ts => allNullable ts
  | .union ts => anyNullable ts
  | .inter ts => allNullable ts
  | .compl t => !nullable t
  | .star _ => true
  | .plus t => nullable t
  | .opt _ => true
  | .loop t min max => decide (min ≤ max) && (min == 0 || nullable t)

def allNullable : List Term → Bool
  | [] => true
  | t :: ts => nullable t && allNullable ts

def anyNullable : List Term → Bool
  | [] => false
  | t :: ts => nullable t || anyNullable ts

end

theorem allNullable_eq_all (ts : List Term) : allNullable ts = ts.all nullable := by
  induction ts with
  | nil => rfl
  | cons t ts ih => rw [allNullable, ih, List.all_cons]

theorem anyNullable_eq_any (ts : List Term) : anyNullable ts = ts.any nullable := by
  induction ts with
  | nil => rfl
  | cons t ts ih => rw [anyNullable, ih, List.any_cons]

end Term

end RegLan
