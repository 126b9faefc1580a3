import Mathlib
import RegLan.Proofs.Pattern.Fault

/-! What a beginning of a pattern decides. Nothing is read past the place of a fault, so a fault
before the end of the text is there whatever follows. A fault at the end is mended by more text,
unless a bracket or a count is left open, of which it depends on the text inside. -/

namespace RegLan

theorem Word.utf8Size_pos {w : Word} (h : w ≠ []) : 0 < utf8Size w := by
  obtain ⟨c, w, rfl⟩ := List.exists_cons_of_ne_nil h
  have := c.utf8Size_pos
  rw [utf8Size]
  omega

/-- The error is at a place that the pattern has passed. -/
def ParseError.Final (p : Word) (e : ParseError) : Prop :=
  e.problem ∈ [.nothingToRepeat, .unmatchedParen, .emptyClass, .countTooLarge] ∨
    e.problem ∈ [.expectedAtom, .expectedCount] ∧ e.offset < Word.utf8Size p

/-- The error is that the pattern ends too soon. -/
def ParseError.Unfinished (p : Word) (e : ParseError) : Prop :=
  e.problem ∈ [.unclosedGroup, .danglingEscape] ∨
    e.problem ∈ [.expectedAtom, .expectedCount] ∧ e.offset = Word.utf8Size p

namespace Pattern

open Word

def Fault.Final (f : Fault) : Prop :=
  f.problem ∈ [.nothingToRepeat, .unmatchedParen, .emptyClass, .countTooLarge] ∨
    f.problem ∈ [.expectedAtom, .expectedCount] ∧ f.rest ≠ []

def Fault.Unfinished (f : Fault) : Prop :=
  f.problem ∈ [.unclosedGroup, .danglingEscape] ∨
    f.problem ∈ [.expectedAtom, .expectedCount] ∧ f.rest = []

/-- The same fault in a longer text. -/
def Fault.append (f : Fault) (q : Word) : Fault := ⟨f.problem, f.rest ++ q⟩

theorem Fault.locate_append (p q : Word) (f : Fault) :
    (f.append q).locate (p ++ q) = f.locate p := by
  rw [locate, locate, append, utf8Size_append, utf8Size_append, Nat.add_sub_add_right]

variable {s r : Word} {f : Fault}

theorem head?_append_of_ne_nil (h : r ≠ []) (q : Word) : (r ++ q).head? = r.head? := by
  obtain ⟨c, r, rfl⟩ := List.exists_cons_of_ne_nil h
  rfl

theorem skipAnchors_append_of_ne_nil (h : skipAnchors s ≠ []) (q : Word) :
    skipAnchors (s ++ q) = skipAnchors s ++ q := by
  rw [skipAnchors, List.dropWhile_append, ← skipAnchors]
  rw [if_neg (by simpa using h)]

/-- What has been read stays as it is. -/
theorem atom_ok_append {p : Pattern} (h : atom s = .ok (p, r)) (q : Word) :
    atom (s ++ q) = .ok (p, r ++ q) := by
  obtain ⟨a, u, ha, hu, rfl⟩ := atom_sound s h
  rw [List.append_assoc, List.append_assoc, atom_append ha]
  exact atom_complete (r ++ q) hu

theorem quantifiedAtom_ok_append {p : Pattern} (h : quantifiedAtom s = .ok (p, r)) (hr : r ≠ [])
    (q : Word) : quantifiedAtom (s ++ q) = .ok (p, r ++ q) := by
  obtain ⟨a, u, ha, hu, rfl⟩ := quantifiedAtom_sound s h
  rw [List.append_assoc, List.append_assoc, quantifiedAtom_append ha]
  exact quantifiedAtom_complete (head?_append_of_ne_nil hr q) hu

theorem operand_ok_append {p : Pattern} (h : operand s = .ok (p, r)) (hr : r ≠ []) (q : Word) :
    operand (s ++ q) = .ok (p, r ++ q) := by
  obtain ⟨u, hu, rfl⟩ := operand_sound s h
  rw [List.append_assoc]
  exact operand_complete (head?_append_of_ne_nil hr q) hu

theorem atoms_ok_append {ps : List Pattern} {c : Char} (h : atoms s = .ok (ps, c :: r)) (q : Word) :
    atoms (s ++ q) = .ok (ps, c :: r ++ q) := by
  obtain ⟨u, hu, hstop, rfl⟩ := atoms_sound s h
  rw [List.append_assoc]
  exact atoms_complete rfl hstop hu

theorem readDigits_eq_none_append {n : ℕ} (h : readDigits n s = none) (q : Word) :
    readDigits n (s ++ q) = none := by
  fun_induction readDigits n s with
  | case1 => cases h
  | case2 n c s hc hlt ih =>
    rw [List.cons_append, readDigits, if_pos hc, if_pos hlt]
    exact ih h
  | case3 n c s hc hlt => rw [List.cons_append, readDigits, if_pos hc, if_neg hlt]
  | case4 => cases h

theorem readNumber_error_append (h : readNumber s = .error f) (hf : f.Final) (q : Word) :
    readNumber (s ++ q) = .error (f.append q) := by
  unfold readNumber at h ⊢
  split at h
  · rename_i hs
    have hne : s ≠ [] := by
      rintro rfl
      cases hs
    rw [head?_append_of_ne_nil hne, if_pos hs]
    split at h
    · cases h
    · rename_i hd
      cases h
      rw [readDigits_eq_none_append hd]
      rfl
  · rename_i hs
    cases h
    have hne : s ≠ [] := by simpa [Fault.Final] using hf
    rw [head?_append_of_ne_nil hne, if_neg hs]
    rfl

theorem readNumber_ok_append {n : ℕ} {c : Char} (h : readNumber s = .ok (n, c :: r)) (q : Word) :
    readNumber (s ++ q) = .ok (n, c :: r ++ q) := by
  obtain ⟨ds, hds, rfl, hr⟩ := readNumber_eq_ok.1 h
  exact readNumber_eq_ok.2 ⟨ds, hds, List.append_assoc _ _ _, hr⟩

theorem readCounts_error_append (h : readCounts s = .error f) (hf : f.Final) (q : Word) :
    readCounts (s ++ q) = .error (f.append q) := by
  rw [readCounts_eq_error] at h ⊢
  rcases h with h | ⟨n, t, hn, ht⟩
  · exact .inl (readNumber_error_append h hf q)
  · exact .inr ⟨n, t ++ q, readNumber_ok_append hn q, readNumber_error_append ht hf q⟩

theorem readQuantifier_error_append (h : readQuantifier s = .error f) (hf : f.Final) (q : Word) :
    readQuantifier (s ++ q) = .error (f.append q) := by
  obtain ⟨t, rfl, h | rfl⟩ := eq_cons_of_readQuantifier_error h
  · exact bind_eq_error.2 (.inl (readCounts_error_append h hf q))
  · simp [Fault.Final] at hf

theorem SimpleFault.append (h : SimpleFault s f) (hf : f.Final) (q : Word) :
    readSimple (s ++ q) = .error (f.append q) := by
  cases h with
  | missing => simp [Fault.Final] at hf
  | dangling => simp [Fault.Final] at hf
  | unclosedBracket => simp [Fault.Final] at hf
  | emptyBracket => rfl
  | emptyNegatedBracket => rfl
  | misplaced hc =>
    rcases hc with rfl | rfl
    · rfl
    · rfl
  | nothingToRepeat hc =>
    rcases hc with rfl | rfl | rfl
    · rfl
    · rfl
    · rfl

theorem SimpleFault.ne_nil (h : SimpleFault s f) (hf : f.Final) : s ≠ [] := by
  rintro rfl
  cases h
  simp [Fault.Final] at hf

theorem AtomsFault.ne_nil (h : AtomsFault s f) : s ≠ [] := by
  rintro rfl
  cases (atoms_of_stops rfl).symm.trans h.atoms_eq

mutual

theorem AtomFault.append (q : Word) {s : Word} {f : Fault} :
    AtomFault s f → f.Final → AtomFault (s ++ q) (f.append q)
  | .simple hparen h, hf => by
    have h := simpleFault_of_error h
    have hne := h.ne_nil hf
    have hskip := skipAnchors_append_of_ne_nil hne q
    refine .simple ?_ ?_
    · rwa [hskip, head?_append_of_ne_nil hne]
    · rw [hskip]
      exact h.append hf q
  | .group hparen h, hf => by
    refine .group ?_ (h.append q hf)
    rw [skipAnchors_append_of_ne_nil (by simp [hparen]), hparen, List.cons_append]
  | .unclosed _ _, hf => by simp [Fault.Final] at hf

theorem OperandFault.append (q : Word) {s : Word} {f : Fault} :
    OperandFault s f → f.Final → OperandFault (s ++ q) (f.append q)
  | .atom h, hf => .atom (h.append q hf)
  | .quantifier hp h, hf => .quantifier (atom_ok_append hp q) (readQuantifier_error_append h hf q)
  | .alt hp h, hf => .alt (quantifiedAtom_ok_append hp (List.cons_ne_nil _ _) q) (h.append q hf)

theorem AtomsFault.append (q : Word) {s : Word} {f : Fault} :
    AtomsFault s f → f.Final → AtomsFault (s ++ q) (f.append q)
  | .operand hstop h, hf => by
    refine .operand ?_ (h.append q hf)
    cases hs : skipAnchors s with
    | nil =>
      rw [hs] at hstop
      cases hstop
    | cons c t =>
      rw [skipAnchors_append_of_ne_nil (by simp [hs]), hs]
      rwa [hs] at hstop
  | .rest hp h, hf => .rest (operand_ok_append hp h.ne_nil q) (h.append q hf)

end

theorem numberText_zero : NumberText ['0'] 0 where
  ne_nil := List.cons_ne_nil _ _
  digits := List.forall_mem_singleton.2 rfl
  value := rfl
  bound := by decide

/-- A count is missing only where the text ends. -/
theorem eq_nil_of_readNumber_unfinished (h : readNumber s = .error f) (hf : f.Unfinished) :
    s = [] := by
  unfold readNumber at h
  split at h
  · split at h
    · cases h
    · cases h
      simp [Fault.Unfinished] at hf
  · cases h
    simpa [Fault.Unfinished] using hf

theorem exists_quantifierText (h : readQuantifier s = .error f) (hf : f.Unfinished) :
    ∃ q k, QuantifierText (s ++ q) k := by
  obtain ⟨t, rfl, h | rfl⟩ := eq_cons_of_readQuantifier_error h
  · rcases readCounts_eq_error.1 h with h | ⟨n, u, hn, h⟩
    · obtain rfl := eq_nil_of_readNumber_unfinished h hf
      exact ⟨['0', '\x7d'], _, .exactly numberText_zero⟩
    · obtain rfl := eq_nil_of_readNumber_unfinished h hf
      obtain ⟨ds, hds, rfl, -⟩ := readNumber_eq_ok.1 hn
      refine ⟨['0', '\x7d'], .between n 0, ?_⟩
      have hq := QuantifierText.between hds numberText_zero
      simpa using hq
  · simp [Fault.Unfinished] at hf

theorem SimpleFault.complete (h : SimpleFault s f) (hf : f.Unfinished) :
    ∃ q p, SimpleText (s ++ q) p := by
  cases h with
  | missing => exact ⟨['a'], .char 'a', .char (by decide)⟩
  | dangling => exact ⟨['a'], .char 'a', .escape (.self (by decide))⟩
  | _ => simp [Fault.Unfinished] at hf

mutual

theorem AtomFault.complete {s : Word} {f : Fault} :
    AtomFault s f → f.Unfinished → ∃ q a u p, AnchorsText a ∧ AtomText u p ∧ s ++ q = a ++ u
  | .simple _ h, hf => by
    obtain ⟨a, ha, hs⟩ := exists_anchorsText s
    obtain ⟨q, p, hu⟩ := (simpleFault_of_error h).complete hf
    refine ⟨q, a, _, p, ha, .simple hu, ?_⟩
    rw [← List.append_assoc, ← hs]
  | .group hparen h, hf => by
    obtain ⟨a, ha, hs⟩ := exists_anchorsText s
    obtain ⟨q, ps, hps⟩ := h.complete hf
    refine ⟨q ++ [')'], a, _, _, ha, .group (hps.follow ends_paren), ?_⟩
    rw [hs, hparen]
    simp
  | .unclosed hparen hps, hf => by
    obtain ⟨a, ha, hs⟩ := exists_anchorsText s
    obtain ⟨u, hu, -, rfl⟩ := atoms_sound _ hps
    refine ⟨[')'], a, _, _, ha, .group (hu.follow ends_paren), ?_⟩
    rw [hs, hparen]
    simp

theorem OperandFault.complete {s : Word} {f : Fault} :
    OperandFault s f → f.Unfinished → ∃ q p, OperandText (s ++ q) none p
  | .atom h, hf => by
    obtain ⟨q, a, u, p, ha, hu, hs⟩ := h.complete hf
    refine ⟨q, p, ?_⟩
    rw [hs]
    exact .single ha (.plain hu ends_none.ne_quantifier) ends_none.ne_pipe
  | .quantifier hp h, hf => by
    obtain ⟨a, u, ha, hu, rfl⟩ := atom_sound s hp
    obtain ⟨q, k, hq⟩ := exists_quantifierText h hf
    have hoperand := OperandText.single ha (.rep hu hq) ends_none.ne_pipe
    rw [← List.append_assoc, ← List.append_assoc] at hoperand
    exact ⟨q, _, hoperand⟩
  | .alt hp h, hf => by
    obtain ⟨a, u, ha, hu, rfl⟩ := quantifiedAtom_sound s hp
    obtain ⟨q, p', hq⟩ := h.complete hf
    have hoperand := OperandText.alt ha hu hq
    rw [← List.cons_append, ← List.append_assoc] at hoperand
    exact ⟨q, _, hoperand⟩

theorem AtomsFault.complete {s : Word} {f : Fault} :
    AtomsFault s f → f.Unfinished → ∃ q ps, AtomsText (s ++ q) none ps
  | .operand _ h, hf => by
    obtain ⟨q, p, hp⟩ := h.complete hf
    exact ⟨q, [p], hp.atomsText⟩
  | .rest hp h, hf => by
    obtain ⟨u, hu, rfl⟩ := operand_sound s hp
    obtain ⟨q, ps, hps⟩ := h.complete hf
    rw [← head?_append_of_ne_nil h.ne_nil q, ← Option.or_none (o := (_ ++ q).head?)] at hu
    have hcons := AtomsText.cons anchorsText_nil hu hps
    rw [List.nil_append, ← List.append_assoc] at hcons
    exact ⟨q, _, hcons⟩

end

theorem Fault.final_of_locate (h : (f.locate s).Final s) : f.Final := by
  refine h.imp_right fun hend => ⟨hend.1, fun hrest => ?_⟩
  have hlt := hend.2
  rw [locate, hrest] at hlt
  exact Nat.lt_irrefl _ hlt

theorem Fault.unfinished_of_locate (hs : s ≠ []) (h : (f.locate s).Unfinished s) :
    f.Unfinished := by
  refine h.imp_right fun hend => ⟨hend.1, ?_⟩
  have heq : utf8Size s - utf8Size f.rest = utf8Size s := hend.2
  by_contra hrest
  have := utf8Size_pos hs
  have := utf8Size_pos hrest
  omega

theorem parse_error_append {p : Word} {e : ParseError} (h : parse p = .error e) (he : e.Final p)
    (q : Word) : parse (p ++ q) = .error e := by
  rw [parse_eq_error] at h ⊢
  rcases h with ⟨f, hf, rfl⟩ | ⟨ps, r, hps, rfl⟩
  · exact .inl ⟨f.append q, hf.append q (Fault.final_of_locate he), f.locate_append p q⟩
  · exact .inr ⟨ps, r ++ q, atoms_ok_append hps q,
      Fault.locate_append p q ⟨.unmatchedParen, ')' :: r⟩⟩

theorem exists_parse_append {p : Word} {e : ParseError} (h : parse p = .error e)
    (he : e.Unfinished p) : ∃ q t, parse (p ++ q) = .ok t := by
  rcases parse_eq_error.1 h with ⟨f, hf, rfl⟩ | ⟨ps, r, -, rfl⟩
  · obtain ⟨q, ps, hps⟩ := hf.complete (Fault.unfinished_of_locate hf.ne_nil he)
    exact ⟨q, _, parse_eq_ok.2 (.mk hps)⟩
  · simp [ParseError.Unfinished, Fault.locate] at he

/-- An error at a place that the pattern has passed is the error of every longer pattern, and one
that comes from ending too soon is mended by some text. -/
theorem parse_append_of_error (p : Word) (e : ParseError) (h : parse p = .error e) :
    (e.Final p → ∀ q, parse (p ++ q) = .error e) ∧
      (e.Unfinished p → ∃ q t, parse (p ++ q) = .ok t) :=
  ⟨fun he q => parse_error_append h he q, exists_parse_append h⟩

/-- In `((a|)` the alternative is missing for good, in `((a|` it may still come. -/
theorem parse_append_missing_alternative :
    (parse ['(', '(', 'a', '|', ')'] = .error ⟨.expectedAtom, 4⟩ ∧
        ∀ q, parse (['(', '(', 'a', '|', ')'] ++ q) = .error ⟨.expectedAtom, 4⟩) ∧
      parse ['(', '(', 'a', '|'] = .error ⟨.expectedAtom, 4⟩ ∧
        ∃ q t, parse (['(', '(', 'a', '|'] ++ q) = .ok t := by
  have hlost : parse ['(', '(', 'a', '|', ')'] = .error ⟨.expectedAtom, 4⟩ := by cbv
  have hopen : parse ['(', '(', 'a', '|'] = .error ⟨.expectedAtom, 4⟩ := by cbv
  exact ⟨⟨hlost, (parse_append_of_error _ _ hlost).1 (.inr ⟨by decide, by decide⟩)⟩,
    hopen, (parse_append_of_error _ _ hopen).2 (.inr ⟨by decide, by decide⟩)⟩

end Pattern

end RegLan
