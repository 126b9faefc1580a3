import RegLan.Proofs.Pattern.Composition
import RegLan.Proofs.Term.Normal

/-! Every word has a pattern that stands for it and for nothing else. A backslash takes the meaning
from any character but a few letters and the zero, to which it gives one, and those stand for
themselves without it. -/

namespace RegLan

namespace Pattern

/-- The text that stands for one character alone. -/
def verbatimChar (c : Char) : Word := if c ∈ escapeLetters then [c] else ['\\', c]

def verbatim (s : Word) : Word := s.flatMap verbatimChar

theorem not_mem_special_of_mem {c : Char} (h : c ∈ escapeLetters) : c ∉ special := by
  simp only [escapeLetters, List.mem_cons, List.not_mem_nil, or_false] at h
  rcases h with rfl | rfl | rfl | rfl | rfl | rfl | rfl | rfl | rfl | rfl <;> decide

theorem simpleText_verbatimChar (c : Char) : SimpleText (verbatimChar c) (.char c) := by
  unfold verbatimChar
  split
  · rename_i hc
    exact .char (not_mem_special_of_mem hc)
  · rename_i hc
    exact .escape (.self hc)

theorem parse_verbatimChar (c : Char) : parse (verbatimChar c) = .ok (.concat [.char c]) :=
  parse_of_quantifiedText (.plain (.simple (simpleText_verbatimChar c)) ends_none.ne_quantifier)

/-- No escaped text can be taken for the counts of what stands before it. -/
theorem head?_verbatim_ne (s : Word) : (verbatim s).head? ≠ some '\x7b' := by
  cases s with
  | nil => exact nofun
  | cons c s =>
    rw [verbatim, List.flatMap_cons, verbatimChar]
    split
    · rename_i hc
      intro hhead
      obtain rfl := Option.some.inj hhead
      exact absurd hc (by decide)
    · exact nofun

theorem parse_verbatim (s : Word) : parse (verbatim s) = .ok (.concat (s.map .char)) := by
  induction s with
  | nil => cbv
  | cons c s ih => exact parse_append (parse_verbatimChar c) ih (head?_verbatim_ne s)

example : parse ['n', '\\', '\n', '\\', '('] =
    .ok (.concat [.char 'n', .char '\n', .char '(']) := by cbv

end Pattern

theorem Term.normConcat_literals (v w : Word) :
    normConcat [.literal v, .literal w] = .literal (v ++ w) := by
  cases v with
  | nil => cases w <;> rfl
  | cons c v =>
    cases w with
    | nil => rw [List.append_nil]; rfl
    | cons d w => rfl

namespace Solver

/-- Characters appended to what simplifies to a literal make that literal longer. -/
theorem simplify_appendAll_chars (s : Word) {t : Term} {v : Word} (ht : t.simplify = .literal v) :
    (reference.appendAll (s.map .char) t).run.simplify = .literal (v ++ s) := by
  induction s generalizing t v with
  | nil =>
    rw [List.map_nil, appendAll, List.append_nil]
    exact ht
  | cons c s ih =>
    have hc : (reference.build (.char c)).run = .literal [c] := by
      rw [build]
      rfl
    have hjoined : (Term.concat [t, .literal [c]]).simplify = .literal (v ++ [c]) := by
      rw [Term.simplify_concat_pair, ht]
      exact Term.normConcat_literals v [c]
    rw [List.map_cons, appendAll_cons, hc, ih hjoined, List.append_assoc, List.singleton_append]

theorem toTerm_chars (s : Word) : (Pattern.concat (s.map .char)).toTerm = .literal s := by
  rw [Pattern.toTerm, build_concat]
  cases s with
  | nil =>
    rw [List.map_nil, buildConcat]
    rfl
  | cons c s =>
    rw [List.map_cons, buildConcat_cons, build]
    exact simplify_appendAll_chars (t := .literal [c]) (v := [c]) s rfl

end Solver

/-- A word written out in this way is read as its characters one after the other, encoded as one
literal, and matched by itself alone. -/
theorem encodePattern_verbatim (s : Word) :
    Pattern.parse (Pattern.verbatim s) = .ok (.concat (s.map .char)) ∧
    (encodePattern Solver.reference .exact (Pattern.verbatim s)).run = .ok (.literal s) ∧
    ∀ w, (Term.literal s).accepts w = true ↔ w = s := by
  have hparse := Pattern.parse_verbatim s
  refine ⟨hparse, ?_, fun w => ?_⟩
  · rw [encodePattern_eq_ok hparse, Solver.toTerm_chars, Anchoring.apply_exact]
    rfl
  · rw [Term.accepts, Term.acceptsFrom_iff, Term.lang_simplify, Term.mem_lang_literal]

end RegLan
