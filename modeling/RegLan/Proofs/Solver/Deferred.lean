import RegLan.Proofs.Solver.Reference
import RegLan.Proofs.Term.Normal

/-! When the term of a pattern is simplified makes no difference. The reference solver simplifies
every concatenation as it is built; a solver that builds the whole tree first and simplifies
nothing on the way comes to the same normal form. -/

namespace RegLan

/-- The reference solver, but for leaving terms as they are when asked to simplify them. -/
def Solver.deferred : Solver Id Word Term Labelled := { reference with simplify := fun t => t }

namespace Solver

open Term

variable {t t' : Term}

theorem simplify_quantify_congr (h : t.simplify = t'.simplify) (k : Quantifier) :
    (reference.quantify t k).run.simplify = (deferred.quantify t' k).run.simplify := by
  cases k with
  | zeroOrMore => exact congrArg normStar h
  | oneOrMore => exact congrArg normPlus h
  | zeroOrOne => exact congrArg normOpt h
  | between min max => exact congrArg (normLoop · min max) h

theorem unionMembers_deferred (ms : List Member) (t : Term) :
    deferred.unionMembers t ms = reference.unionMembers t ms := by
  induction ms generalizing t with
  | nil => rfl
  | cons m ms ih =>
    rw [unionMembers, unionMembers]
    cases m with
    | char c => exact ih _
    | range lo hi => exact ih _

theorem members_deferred (ms : List Member) : deferred.members ms = reference.members ms := by
  cases ms with
  | nil => rfl
  | cons m ms =>
    rw [members, members]
    cases m with
    | char c => exact unionMembers_deferred ms _
    | range lo hi => exact unionMembers_deferred ms _

/-- Nothing in a bracket asks for simplification. -/
theorem bracket_deferred (b : Bracket) : deferred.bracket b = reference.bracket b := by
  rw [bracket, bracket, members_deferred]
  rfl

theorem deferred_concat (ps : List Pattern) :
    (deferred.build (.concat ps)).run = (deferred.buildConcat ps).run := by
  rw [build]
  rfl

theorem deferred_alt (p q : Pattern) : (deferred.build (.alt p q)).run =
    .union [(deferred.build p).run, (deferred.build q).run] := by
  rw [build]
  rfl

theorem deferred_rep (k : Quantifier) (p : Pattern) : (deferred.build (.rep k p)).run =
    (deferred.quantify (deferred.build p).run k).run := by
  rw [build]
  rfl

theorem deferred_buildConcat_cons (p : Pattern) (ps : List Pattern) :
    (deferred.buildConcat (p :: ps)).run = (deferred.appendAll ps (deferred.build p).run).run := by
  rw [buildConcat]
  rfl

theorem deferred_appendAll_cons (p : Pattern) (ps : List Pattern) (t : Term) :
    (deferred.appendAll (p :: ps) t).run =
      (deferred.appendAll ps (.concat [t, (deferred.build p).run])).run := by
  rw [appendAll]
  rfl

theorem simplify_appendAll (ps : List Pattern)
    (ih : ∀ p ∈ ps, (reference.build p).run.simplify = (deferred.build p).run.simplify)
    (h : t.simplify = t'.simplify) :
    (reference.appendAll ps t).run.simplify = (deferred.appendAll ps t').run.simplify := by
  induction ps generalizing t t' with
  | nil =>
    rw [appendAll, appendAll]
    exact h
  | cons p ps ihs =>
    rw [List.forall_mem_cons] at ih
    rw [appendAll_cons, deferred_appendAll_cons]
    apply ihs ih.2
    rw [simplify_concat_pair, simplify_concat_pair, h, ih.1]

theorem simplify_buildConcat (ps : List Pattern)
    (ih : ∀ p ∈ ps, (reference.build p).run.simplify = (deferred.build p).run.simplify) :
    (reference.buildConcat ps).run.simplify = (deferred.buildConcat ps).run.simplify := by
  cases ps with
  | nil =>
    rw [buildConcat, buildConcat]
    rfl
  | cons p ps =>
    rw [List.forall_mem_cons] at ih
    rw [buildConcat_cons, deferred_buildConcat_cons]
    exact simplify_appendAll ps ih.2 ih.1

theorem simplify_build (p : Pattern) :
    (reference.build p).run.simplify = (deferred.build p).run.simplify := by
  induction p with
  | concat ps ih =>
    rw [build_concat, deferred_concat, simplify_simplify, simplify_buildConcat ps ih]
  | alt p q ihp ihq =>
    rw [build_alt, deferred_alt, simplify_union_pair, simplify_union_pair, ihp, ihq]
  | rep k p ih =>
    rw [build_rep, deferred_rep]
    exact simplify_quantify_congr ih k
  | char c =>
    rw [build, build]
    rfl
  | any =>
    rw [build, build]
    rfl
  | shorthand k negated =>
    rw [build, build]
    cases k <;> rfl
  | bracket b => rw [build, build, bracket_deferred]

end Solver

/-- The term of a pattern has the normal form that it would have if nothing had been simplified
before, and the term of a concatenation is that normal form. -/
theorem Pattern.toTerm_simplify_eq (p : Pattern) (ps : List Pattern) :
    p.toTerm.simplify = (Solver.deferred.build p).run.simplify ∧
      (Pattern.concat ps).toTerm = (Solver.deferred.build (.concat ps)).run.simplify := by
  refine ⟨Solver.simplify_build p, ?_⟩
  rw [toTerm, Solver.build_concat, Solver.deferred_concat]
  exact Solver.simplify_buildConcat ps fun p _ => Solver.simplify_build p

end RegLan
