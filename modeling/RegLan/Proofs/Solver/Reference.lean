import RegLan.Proofs.Pattern.Language
import RegLan.Proofs.Term.Derivative
import RegLan.Solver.Reference

/-! The term that the reference solver builds for a pattern has the language of the pattern, for
every tree: a parsed one, or one with empty brackets, ranges that run backwards and loops that
ask for more than their maximum. -/

namespace RegLan

namespace Solver

open Computability Language Term

theorem lang_literal (c : Char) : (reference.literal c).run.lang = ofChars {c} := by
  rw [ofChars_singleton, ← Term.lang]
  rfl

theorem lang_charRange (lo hi : Char) :
    (reference.charRange lo hi).run.lang = ofChars {c | lo ≤ c ∧ c ≤ hi} := by
  rw [← Term.lang]
  rfl

theorem lang_any : (reference.any).run.lang = ofChars anyChars := by
  have h : (reference.any).run =
      .union [(reference.charRange '\x00' '\x09').run, (reference.charRange '\x0b' '\xff').run] := rfl
  rw [h, lang_union_pair, lang_charRange, lang_charRange, ← ofChars_union]
  congr 1
  ext c
  simp only [anyChars, Set.mem_union, Set.mem_ofPred_eq, ne_eq, ← Char.toNat_inj,
    Char.le_def, UInt32.le_iff_toNat_le, Char.toNat_val, Char.reduceToNat]
  omega

theorem lang_digit : (reference.digit).run.lang = ofChars Shorthand.digit.chars :=
  lang_charRange '0' '9'

theorem lang_word : (reference.word).run.lang = ofChars Shorthand.word.chars := by
  have h : (reference.word).run =
      .union [.union [.union [(reference.charRange 'a' 'z').run, (reference.charRange 'A' 'Z').run],
        (reference.digit).run], (reference.literal '_').run] := rfl
  rw [h, lang_union_pair, lang_union_pair, lang_union_pair, lang_charRange, lang_charRange,
    lang_digit, lang_literal, ← ofChars_union, ← ofChars_union, ← ofChars_union]
  congr 1
  ext c
  simp only [Shorthand.chars, Set.mem_union, Set.mem_ofPred_eq, Set.mem_singleton_iff, or_assoc]

theorem lang_space : (reference.space).run.lang = ofChars Shorthand.space.chars := by
  have h : (reference.space).run =
      .union [(reference.literal ' ').run, .union [(reference.literal '\t').run,
        .union [(reference.literal '\r').run,
          .union [(reference.literal '\n').run, (reference.literal '\x0c').run]]]] := rfl
  rw [h]
  simp only [lang_union_pair, lang_literal, ← ofChars_union]
  rfl

theorem lang_shorthand (k : Shorthand) (negated : Bool) :
    (reference.shorthand k negated).run.lang = (Pattern.shorthand k negated).lang := by
  have hk : (reference.shorthand k false).run.lang = ofChars k.chars := by
    cases k with
    | digit => exact lang_digit
    | word => exact lang_word
    | space => exact lang_space
  rw [Pattern.lang]
  cases negated with
  | false => exact hk
  | true =>
    have h : (reference.shorthand k true).run = .compl (reference.shorthand k false).run := by
      cases k <;> rfl
    rw [h, Term.lang, hk]
    rfl

theorem lang_member (m : Member) : (reference.member m).run.lang = ofChars m.chars := by
  cases m with
  | char c => exact lang_literal c
  | range lo hi => exact lang_charRange lo hi

theorem lang_anyExcept (t : Term) :
    (reference.anyExcept t).run.lang = ofChars anyChars ⊓ t.langᶜ := by
  have h : (reference.anyExcept t).run = .inter [(reference.any).run, .compl t] := rfl
  rw [h, lang_inter_pair, lang_any, Term.lang]

/-- Members are added one by one to a term that starts with the first. -/
theorem lang_unionMembers (ms : List Member) (s : Set Char) (t : Term) (ht : t.lang = ofChars s) :
    (reference.unionMembers t ms).run.lang = ofChars (s ∪ {c | ∃ m ∈ ms, c ∈ m.chars}) := by
  induction ms generalizing s t with
  | nil =>
    rw [unionMembers, Id.run_pure, ht]
    simp
  | cons m ms ih =>
    have hm : (Term.union [t, (reference.member m).run]).lang = ofChars (s ∪ m.chars) := by
      rw [lang_union_pair, ht, lang_member, ofChars_union]
    have h : (reference.unionMembers t (m :: ms)).run =
        (reference.unionMembers (.union [t, (reference.member m).run]) ms).run := rfl
    rw [h, ih _ _ hm, Set.union_assoc]
    congr 2
    ext c
    simp

theorem lang_members (ms : List Member) :
    (reference.members ms).run.lang = ofChars {c | ∃ m ∈ ms, c ∈ m.chars} := by
  cases ms with
  | nil =>
    have h : (reference.members []).run = (reference.anyExcept (reference.any).run).run := rfl
    rw [h, lang_anyExcept, lang_any, ← ofChars_diff, sdiff_self]
    simp
  | cons m ms =>
    have h : (reference.members (m :: ms)).run =
        (reference.unionMembers (reference.member m).run ms).run := rfl
    rw [h, lang_unionMembers ms m.chars _ (lang_member m)]
    congr 1
    ext c
    simp

theorem lang_bracket (b : Bracket) : (reference.bracket b).run.lang = ofChars b.chars := by
  obtain ⟨negated, ms⟩ := b
  cases negated with
  | false => exact lang_members ms
  | true =>
    have h : (reference.bracket ⟨true, ms⟩).run =
        (reference.anyExcept (reference.members ms).run).run := rfl
    rw [h, lang_anyExcept, lang_members, ← ofChars_diff]
    congr 1
    ext c
    simp [Bracket.chars]

theorem lang_quantify (t : Term) (k : Quantifier) :
    (reference.quantify t k).run.lang = k.lang t.lang := by
  cases k <;> exact Term.lang.eq_def _

theorem build_concat (ps : List Pattern) :
    (reference.build (.concat ps)).run = (reference.buildConcat ps).run.simplify := by
  rw [build]
  rfl

theorem build_alt (p q : Pattern) : (reference.build (.alt p q)).run =
    .union [(reference.build p).run, (reference.build q).run] := by
  rw [build]
  rfl

theorem build_rep (k : Quantifier) (p : Pattern) : (reference.build (.rep k p)).run =
    (reference.quantify (reference.build p).run k).run := by
  rw [build]
  rfl

theorem buildConcat_cons (p : Pattern) (ps : List Pattern) :
    (reference.buildConcat (p :: ps)).run =
      (reference.appendAll ps (reference.build p).run).run := by
  rw [buildConcat]
  rfl

theorem appendAll_cons (p : Pattern) (ps : List Pattern) (t : Term) :
    (reference.appendAll (p :: ps) t).run =
      (reference.appendAll ps (.concat [t, (reference.build p).run])).run := by
  rw [appendAll]
  rfl

/-- The parts of a concatenation are appended one by one to a term that starts with the first. -/
theorem lang_appendAll (ps : List Pattern) (ih : ∀ p ∈ ps, (reference.build p).run.lang = p.lang)
    (t : Term) : (reference.appendAll ps t).run.lang = t.lang * (ps.map Pattern.lang).prod := by
  induction ps generalizing t with
  | nil =>
    rw [appendAll]
    exact (mul_one _).symm
  | cons p ps ihs =>
    rw [List.forall_mem_cons] at ih
    rw [appendAll_cons, ihs ih.2, lang_concat_pair, ih.1, mul_assoc, List.map_cons, List.prod_cons]

theorem lang_buildConcat (ps : List Pattern)
    (ih : ∀ p ∈ ps, (reference.build p).run.lang = p.lang) :
    (reference.buildConcat ps).run.lang = (ps.map Pattern.lang).prod := by
  cases ps with
  | nil =>
    rw [buildConcat]
    exact lang_epsilon
  | cons p ps =>
    rw [List.forall_mem_cons] at ih
    rw [buildConcat_cons, lang_appendAll ps ih.2, ih.1, List.map_cons, List.prod_cons]

theorem lang_build (p : Pattern) : (reference.build p).run.lang = p.lang := by
  induction p with
  | concat ps ih =>
    rw [build_concat, lang_simplify, lang_buildConcat ps ih, Pattern.lang_concat]
  | alt p q ihp ihq => rw [build_alt, lang_union_pair, ihp, ihq, Pattern.lang]
  | rep k p ih => rw [build_rep, lang_quantify, ih, Pattern.lang]
  | char c => rw [build, lang_literal, ofChars_singleton, Pattern.lang]
  | any => rw [build, lang_any, Pattern.lang]
  | shorthand k negated => rw [build, lang_shorthand]
  | bracket b => rw [build, lang_bracket, Pattern.lang]

end Solver

/-- The term of a pattern accepts exactly the words that the pattern stands for. -/
theorem Pattern.accepts_toTerm_iff (p : Pattern) (w : Word) :
    p.toTerm.accepts w = true ↔ w ∈ p.lang := by
  rw [Term.accepts, Term.acceptsFrom_iff, Term.lang_simplify, toTerm, Solver.lang_build]

end RegLan
