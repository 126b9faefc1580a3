import Mathlib
import RegLan.Encoding
import RegLan.Proofs.Anchoring

/-! A literal in slashes becomes a term of the language of its pattern, widened for the anchors that
the pattern lacks, and labelled with the whole literal. In the default mode this admits free
text before a match, but not always. -/

namespace RegLan

namespace Literal

theorem splitLast_eq_none {u : Word} (h : '/' ∉ u) : splitLast u = none := by
  induction u with
  | nil => rfl
  | cons c u ih =>
    rw [List.mem_cons, not_or] at h
    rw [splitLast, ih h.2]
    exact if_neg (Ne.symm h.1)

theorem splitLast_append (v : Word) {u : Word} (h : '/' ∉ u) :
    splitLast (v ++ '/' :: u) = some (v, u) := by
  induction v with
  | nil =>
    rw [List.nil_append, splitLast, splitLast_eq_none h]
    exact if_pos rfl
  | cons c v ih => rw [List.cons_append, splitLast, ih]

theorem dropWhile_slash_append {v : Word} (h : '/' ∉ v) (u : Word) :
    (v ++ '/' :: u).dropWhile (· ≠ '/') = '/' :: u := by
  induction v with
  | nil => rfl
  | cons c v ih =>
    rw [List.mem_cons, not_or] at h
    rw [List.cons_append, List.dropWhile_cons_of_pos (by simpa using Ne.symm h.1), ih h.2]

/-- Slashes within the pattern do no harm. -/
theorem ofText_delimited {before flags : Word} (hbefore : '/' ∉ before) (hflags : '/' ∉ flags)
    (p : Word) : ofText (before ++ '/' :: (p ++ '/' :: flags)) = ⟨p, flags⟩ := by
  rw [ofText, dropWhile_slash_append hbefore, List.drop_one, List.tail_cons,
    splitLast_append p hflags]

end Literal

variable {p : Word} {t : Pattern}

theorem encodePattern_eq_ok (h : Pattern.parse p = .ok t) (a : Anchoring) :
    (encodePattern Solver.reference a p).run =
      .ok (a.apply Solver.reference p t.toTerm).run := by
  unfold encodePattern
  rw [h]
  rfl

theorem encodeLiteral_eq_map (a : Anchoring) (literal : Word) :
    (encodeLiteral Solver.reference a literal).run =
      (encodePattern Solver.reference a (Literal.ofText literal).pattern).run.map (⟨literal, ·⟩) := by
  unfold encodeLiteral
  rw [Id.run_bind]
  cases (encodePattern Solver.reference a (Literal.ofText literal).pattern).run <;> rfl

/-- A literal in slashes whose pattern can be read is encoded, under its own text as label, as a
term that accepts what the pattern stands for and what its missing anchors admit. -/
theorem encodeLiteral_delimited (before flags p : Word) (hbefore : '/' ∉ before)
    (hflags : '/' ∉ flags) (t : Pattern) (ht : Pattern.parse p = .ok t) (a : Anchoring) :
    ∃ r, (encodeLiteral Solver.reference a (before ++ '/' :: (p ++ '/' :: flags))).run = .ok r ∧
      r.label = before ++ '/' :: (p ++ '/' :: flags) ∧
      ∀ w, r.term.accepts w = true ↔ w ∈ a.lang p t.lang := by
  rw [encodeLiteral_eq_map, Literal.ofText_delimited hbefore hflags p, encodePattern_eq_ok ht a]
  refine ⟨_, rfl, rfl, fun w => ?_⟩
  rw [Term.accepts, Term.acceptsFrom_iff, Term.lang_simplify, Anchoring.lang_apply, Pattern.toTerm,
    Solver.lang_build]

/-- The literal `x/a/[b-d]/gi`, with text before it and a slash inside. -/
theorem encodeLiteral_slash_inside :
    ∃ r, (encodeLiteral Solver.reference .union
        ['x', '/', 'a', '/', '[', 'b', '-', 'd', ']', '/', 'g', 'i']).run = .ok r ∧
      r.label = ['x', '/', 'a', '/', '[', 'b', '-', 'd', ']', '/', 'g', 'i'] ∧
      ∀ w, r.term.accepts w = true ↔ w ∈ Anchoring.union.lang ['a', '/', '[', 'b', '-', 'd', ']']
        (Pattern.concat [.char 'a', .char '/', .bracket ⟨false, [.range 'b' 'd']⟩]).lang := by
  have hparse : Pattern.parse ['a', '/', '[', 'b', '-', 'd', ']'] =
      .ok (.concat [.char 'a', .char '/', .bracket ⟨false, [.range 'b' 'd']⟩]) := by cbv
  exact encodeLiteral_delimited ['x'] ['g', 'i'] _ (by decide) (by decide) _ hparse .union

/-- In the default mode a pattern without `^` accepts free text before whatever its term accepts,
if it does not end in `$` or if all of that is free text too. Else it accepts the whole only where
its term does. -/
theorem encodePattern_union_accepts_append_iff (p : Word) (t : Pattern)
    (ht : Pattern.parse p = .ok t) (hstart : ¬['^'] <+: p) (u v : Word)
    (hu : ∀ c ∈ u, c ∈ anyChars) (hv : t.toTerm.accepts v = true) :
    ∃ r, (encodePattern Solver.reference .union p).run = .ok r ∧
      (r.accepts (u ++ v) = true ↔
        (['$'] <:+ p → (∀ c ∈ v, c ∈ anyChars) ∨ t.toTerm.accepts (u ++ v) = true)) := by
  refine ⟨_, encodePattern_eq_ok ht .union, ?_⟩
  simp only [Term.accepts, Term.acceptsFrom_iff, Term.lang_simplify] at hv ⊢
  rw [Anchoring.lang_apply, Anchoring.append_mem_lang_union hstart (mem_freeText.2 hu) hv,
    mem_freeText]

/-- The pattern of a line feed, with no anchor. -/
theorem encodePattern_union_text_before_line_feed :
    Pattern.parse ['\\', 'n'] = .ok (.concat [.char '\n']) ∧
    (Pattern.concat [.char '\n']).toTerm.accepts ['\n'] = true ∧
    ∃ r, (encodePattern Solver.reference .union ['\\', 'n']).run = .ok r ∧
      r.accepts ['x', '\n'] = true := by
  have hparse : Pattern.parse ['\\', 'n'] = .ok (.concat [.char '\n']) := by cbv
  have hx : ∀ c ∈ ['x'], c ∈ anyChars := by simp [anyChars]
  have hline : (Pattern.concat [.char '\n']).toTerm.accepts ['\n'] = true := by cbv
  obtain ⟨r, hr, hiff⟩ :=
    encodePattern_union_accepts_append_iff _ _ hparse (by decide) ['x'] ['\n'] hx hline
  exact ⟨hparse, hline, r, hr, hiff.2 fun hstop => absurd hstop (by decide)⟩

/-- With `$` after it, a letter before the line feed is too much. -/
theorem encodePattern_union_no_text_before_line_feed :
    Pattern.parse ['\\', 'n', '$'] = .ok (.concat [.char '\n']) ∧
    ¬['^'] <+: ['\\', 'n', '$'] ∧ (∀ c ∈ ['x'], c ∈ anyChars) ∧
    (Pattern.concat [.char '\n']).toTerm.accepts ['\n'] = true ∧
    ∃ r, (encodePattern Solver.reference .union ['\\', 'n', '$']).run = .ok r ∧
      r.accepts ['x', '\n'] = false := by
  have hparse : Pattern.parse ['\\', 'n', '$'] = .ok (.concat [.char '\n']) := by cbv
  refine ⟨hparse, by decide, by simp [anyChars], by cbv, _, encodePattern_eq_ok hparse .union, ?_⟩
  cbv

end RegLan
