import Mathlib
import RegLan.Proofs.Pattern.Fault

/-! Errors point at what they name. The text that a fault leaves is an end of the pattern, so its
offset falls between two characters, and what stands there, or right before it, fits the problem. -/

namespace RegLan

open Pattern

/-- The text goes up to where a count begins. -/
def Pattern.CountStarts (u : Word) : Prop := ['\x7b'] <:+ u ∨ [','] <:+ u

/-- What stands at the place that a problem is blamed on, which is between the texts `u` and `r`. -/
def Problem.BlamedAt (u r : Word) : Problem → Prop
  | .expectedAtom => r = [] ∨ ['|'] <+: r ∨ [')'] <+: r
  | .nothingToRepeat => ['*'] <+: r ∨ ['+'] <+: r ∨ ['?'] <+: r
  | .unclosedGroup => ['('] <+: r
  | .unmatchedParen => [')'] <+: r
  | .unclosedClass => ['['] <+: r
  | .emptyClass => ['[', ']'] <+: r ∨ ['[', '^', ']'] <+: r
  | .expectedCount => CountStarts u ∧ NoDigit r
  | .countTooLarge => CountStarts u ∧ ∃ ds v, r = ds ++ v ∧ (∀ d ∈ ds, d.isDigit = true) ∧
      NoDigit v ∧ 2 ^ 32 ≤ Nat.ofDigitChars 10 ds 0
  | .unclosedCount => ['\x7b'] <+: r
  | .danglingEscape => r = ['\\']
  | .invalidToken => ∃ c v, r = c :: v ∧ ∀ t : Token, t.takes c = false

theorem Pattern.CountStarts.append_left {u : Word} (h : CountStarts u) (v : Word) :
    CountStarts (v ++ u) :=
  h.imp (·.trans (List.suffix_append v u)) (·.trans (List.suffix_append v u))

theorem Problem.BlamedAt.append_left {k : Problem} {u r : Word} (h : k.BlamedAt u r) (v : Word) :
    k.BlamedAt (v ++ u) r := by
  cases k with
  | expectedCount => exact ⟨h.1.append_left v, h.2⟩
  | countTooLarge => exact ⟨h.1.append_left v, h.2⟩
  | _ => exact h

/-- There is no character that is no token. -/
theorem Problem.BlamedAt.name_ne {k : Problem} {u r : Word} (h : k.BlamedAt u r) :
    k.name ≠ "InvalidToken" := by
  cases k with
  | invalidToken =>
    obtain ⟨c, v, -, hc⟩ := h
    obtain ⟨t, -, ht⟩ := Token.exists_takes c
    rw [hc t] at ht
    cases ht
  | _ => decide

namespace Pattern

open Word

variable {s : Word} {f : Fault}

/-- The fault is in the text, at a place that fits its problem. -/
def Fault.BlamedIn (s : Word) (f : Fault) : Prop :=
  ∃ u, s = u ++ f.rest ∧ f.problem.BlamedAt u f.rest

theorem Fault.BlamedIn.append_left (h : f.BlamedIn s) (v : Word) : f.BlamedIn (v ++ s) := by
  obtain ⟨u, rfl, hu⟩ := h
  exact ⟨v ++ u, (List.append_assoc v u _).symm, hu.append_left v⟩

/-- If the digits had a smaller value, they would have been read. -/
theorem exists_large_of_readDigits {n : ℕ} (h : readDigits n s = none) :
    ∃ ds v, s = ds ++ v ∧ (∀ d ∈ ds, d.isDigit = true) ∧ NoDigit v ∧
      2 ^ 32 ≤ Nat.ofDigitChars 10 ds n := by
  have hdigits : ∀ d ∈ s.takeWhile Char.isDigit, d.isDigit = true :=
    fun d hd => List.mem_takeWhile_imp hd
  have hrest : NoDigit (s.dropWhile Char.isDigit) := by
    intro c hc
    have hnot := List.head?_dropWhile_not Char.isDigit s
    rw [Option.mem_def.1 hc] at hnot
    exact hnot
  refine ⟨_, _, List.takeWhile_append_dropWhile.symm, hdigits, hrest, ?_⟩
  by_contra hlt
  have hread := readDigits_complete hdigits hrest (Nat.lt_of_not_le hlt)
  rw [List.takeWhile_append_dropWhile, h] at hread
  cases hread

theorem blamedIn_of_readNumber {c : Char} (hc : c = '\x7b' ∨ c = ',')
    (h : readNumber s = .error f) : f.BlamedIn (c :: s) := by
  have hstart : CountStarts [c] := by
    rcases hc with rfl | rfl
    · exact .inl (List.suffix_refl _)
    · exact .inr (List.suffix_refl _)
  unfold readNumber at h
  split at h
  · split at h
    · cases h
    · rename_i hd
      cases h
      exact ⟨[c], rfl, hstart, exists_large_of_readDigits hd⟩
  · rename_i hs
    cases h
    refine ⟨[c], rfl, hstart, fun d hd => ?_⟩
    rw [Option.mem_def.1 hd] at hs
    simpa using hs

theorem blamedIn_of_readCounts (h : readCounts s = .error f) : f.BlamedIn ('\x7b' :: s) := by
  rcases readCounts_eq_error.1 h with h | ⟨n, t, hn, ht⟩
  · exact blamedIn_of_readNumber (.inl rfl) h
  · obtain ⟨ds, -, rfl, -⟩ := readNumber_eq_ok.1 hn
    exact (blamedIn_of_readNumber (.inr rfl) ht).append_left ('\x7b' :: ds)

theorem blamedIn_of_readQuantifier (h : readQuantifier s = .error f) : f.BlamedIn s := by
  obtain ⟨t, rfl, h | rfl⟩ := eq_cons_of_readQuantifier_error h
  · exact blamedIn_of_readCounts h
  · exact ⟨[], rfl, t, rfl⟩

theorem SimpleFault.blamedIn (h : SimpleFault s f) : f.BlamedIn s := by
  cases h with
  | missing => exact ⟨[], rfl, .inl rfl⟩
  | @misplaced c r hc =>
    refine ⟨[], rfl, ?_⟩
    rcases hc with rfl | rfl
    · exact .inr (.inr ⟨r, rfl⟩)
    · exact .inr (.inl ⟨r, rfl⟩)
  | @nothingToRepeat c r hc =>
    refine ⟨[], rfl, ?_⟩
    rcases hc with rfl | rfl | rfl
    · exact .inl ⟨r, rfl⟩
    · exact .inr (.inl ⟨r, rfl⟩)
    · exact .inr (.inr ⟨r, rfl⟩)
  | dangling => exact ⟨[], rfl, rfl⟩
  | @unclosedBracket r => exact ⟨[], rfl, r, rfl⟩
  | @emptyBracket r => exact ⟨[], rfl, .inl ⟨r, rfl⟩⟩
  | @emptyNegatedBracket r => exact ⟨[], rfl, .inr ⟨r, rfl⟩⟩

theorem Fault.BlamedIn.of_skipAnchors (h : f.BlamedIn (skipAnchors s)) : f.BlamedIn s := by
  obtain ⟨a, -, hs⟩ := exists_anchorsText s
  rw [hs]
  exact h.append_left a

mutual

theorem AtomFault.blamedIn {s : Word} {f : Fault} : AtomFault s f → f.BlamedIn s
  | .simple _ h => (simpleFault_of_error h).blamedIn.of_skipAnchors
  | .group hparen h => by
    refine .of_skipAnchors ?_
    rw [hparen]
    exact h.blamedIn.append_left ['(']
  | .unclosed hparen _ => by
    refine .of_skipAnchors ?_
    rw [hparen]
    exact ⟨[], rfl, _, rfl⟩

theorem OperandFault.blamedIn {s : Word} {f : Fault} : OperandFault s f → f.BlamedIn s
  | .atom h => h.blamedIn
  | .quantifier hp h => by
    obtain ⟨a, u, -, -, rfl⟩ := atom_sound s hp
    exact (blamedIn_of_readQuantifier h).append_left (a ++ u)
  | .alt hp h => by
    obtain ⟨a, u, -, -, rfl⟩ := quantifiedAtom_sound s hp
    exact (h.blamedIn.append_left ['|']).append_left (a ++ u)

theorem AtomsFault.blamedIn {s : Word} {f : Fault} : AtomsFault s f → f.BlamedIn s
  | .operand _ h => h.blamedIn
  | .rest hp h => by
    obtain ⟨u, -, rfl⟩ := operand_sound s hp
    exact h.blamedIn.append_left u

end

theorem Fault.BlamedIn.locate (h : f.BlamedIn s) :
    ∃ u r, s = u ++ r ∧ (f.locate s).offset = utf8Size u ∧ f.problem.BlamedAt u r := by
  obtain ⟨u, hs, hu⟩ := h
  refine ⟨u, f.rest, hs, ?_, hu⟩
  rw [Fault.locate, hs, utf8Size_append, Nat.add_sub_cancel]

theorem exists_blamedIn_of_parse_error {p : Word} {e : ParseError} (h : parse p = .error e) :
    ∃ f : Fault, f.BlamedIn p ∧ f.locate p = e := by
  rcases parse_eq_error.1 h with ⟨f, hf, rfl⟩ | ⟨ps, r, hps, rfl⟩
  · exact ⟨f, hf.blamedIn, rfl⟩
  · obtain ⟨u, -, -, rfl⟩ := atoms_sound p hps
    exact ⟨⟨.unmatchedParen, ')' :: r⟩, ⟨u, rfl, r, rfl⟩, rfl⟩

/-- A pattern that cannot be read is blamed at a place between two of its characters, or at one of
its ends, where the text is what the error says. No error says that a character is no token. -/
theorem parse_error_blamedAt (p : Word) (e : ParseError) (h : parse p = .error e) :
    e.problem.name ≠ "InvalidToken" ∧
      ∃ u r, p = u ++ r ∧ e.offset = utf8Size u ∧ e.problem.BlamedAt u r := by
  obtain ⟨f, hf, rfl⟩ := exists_blamedIn_of_parse_error h
  obtain ⟨u, r, hp, hoffset, hr⟩ := hf.locate
  exact ⟨hr.name_ne, u, r, hp, hoffset, hr⟩

/-- In `é(a{4294967296}` the count is blamed, five bytes from the start. -/
theorem parse_error_blamedAt_count :
    parse "é(a\x7b4294967296\x7d".toList = .error ⟨.countTooLarge, 5⟩ ∧
      ∃ u r, "é(a\x7b4294967296\x7d".toList = u ++ r ∧ 5 = utf8Size u ∧
        Problem.BlamedAt u r .countTooLarge := by
  have h : parse "é(a\x7b4294967296\x7d".toList = .error ⟨.countTooLarge, 5⟩ := by cbv
  exact ⟨h, (parse_error_blamedAt _ _ h).2⟩

end Pattern

end RegLan
