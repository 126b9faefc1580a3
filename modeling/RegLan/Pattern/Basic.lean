import RegLan.Word

/-! Patterns as read. A group leaves no trace but its content, and the anchors `^` and `$` are
not part of the tree. -/

namespace RegLan

/-- The classes with an escape of their own: `\d`, `\w` and `\s`. -/
inductive Shorthand where
  | digit
  | word
  | space

inductive Quantifier where
  | zeroOrMore
  | oneOrMore
  | zeroOrOne
  | between (min max : Nat)

/-- What stands in a bracket: a character, or all between two of them. -/
inductive Member where
  | char (c : Char)
  | range (lo hi : Char)

structure Bracket where
  negated : Bool
  members : List Member

inductive Pattern where
  | concat (ps : List Pattern)
  | alt (p q : Pattern)
  | rep (k : Quantifier) (p : Pattern)
  | char (c : Char)
  | any
  | shorthand (k : Shorthand) (negated : Bool)
  | bracket (b : Bracket)
deriving Inhabited

/-- Induction on patterns, in which the parts of a concatenation are given as members of its
list. -/
@[elab_as_elim, induction_eliminator]
theorem Pattern.induction {motive : Pattern → Prop}
    (concat : ∀ ps, (∀ p ∈ ps, motive p) → motive (.concat ps))
    (alt : ∀ p q, motive p → motive q → motive (.alt p q))
    (rep : ∀ k p, motive p → motive (.rep k p)) (char : ∀ c, motive (.char c)) (any : motive .any)
    (shorthand : ∀ k negated, motive (.shorthand k negated)) (bracket : ∀ b, motive (.bracket b))
    (p : Pattern) : motive p :=
  @Pattern.rec motive (fun ps => ∀ p ∈ ps, motive p) concat alt rep char any shorthand bracket
    (fun _ h => nomatch h) (fun _ _ h hs => List.forall_mem_cons.2 ⟨h, hs⟩) p

end RegLan
