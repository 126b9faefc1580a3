import RegLan.Proofs.Pattern.Parser

/-! How reading a pattern fails, as relations between a text and the fault in it. The first reader
that cannot go on decides: what is read before it is read as if nothing were wrong, and the
readers around it only pass its fault on. -/

namespace RegLan

namespace Pattern

open Word

theorem bind_eq_error {α β : Type} {x : Except Fault α} {g : α → Except Fault β} {f : Fault} :
    (x >>= g) = .error f ↔ x = .error f ∨ ∃ a, x = .ok a ∧ g a = .error f := by
  cases x with
  | error e =>
    refine ⟨fun h => ?_, fun h => ?_⟩
    · cases h
      exact .inl rfl
    · rcases h with h | ⟨a, ha, -⟩
      · cases h
        rfl
      · cases ha
  | ok a =>
    refine ⟨fun h => .inr ⟨a, rfl, h⟩, fun h => ?_⟩
    rcases h with h | ⟨b, hb, h⟩
    · cases h
    · cases hb
      exact h

/-- The first count is wrong, or the second is. -/
theorem readCounts_eq_error {s : Word} {f : Fault} :
    readCounts s = .error f ↔ readNumber s = .error f ∨
      ∃ n t, readNumber s = .ok (n, ',' :: t) ∧ readNumber t = .error f := by
  unfold readCounts
  rw [bind_eq_error]
  refine or_congr_right ⟨fun h => ?_, fun h => ?_⟩
  · obtain ⟨⟨n, t⟩, hn, h⟩ := h
    dsimp only at h
    split at h
    · cases h
    · rename_i u hu
      rw [after?_eq_some] at hu
      subst hu
      rcases bind_eq_error.1 h with h | ⟨x, -, h⟩
      · exact ⟨n, u, hn, h⟩
      · cases h
  · obtain ⟨n, t, hn, ht⟩ := h
    refine ⟨_, hn, ?_⟩
    dsimp only
    rw [after?_eq_some.2 rfl]
    exact bind_eq_error.2 (.inl ht)

/-- A quantifier fails in its counts, or for want of its closing brace. -/
theorem eq_cons_of_readQuantifier_error {s : Word} {f : Fault}
    (h : readQuantifier s = .error f) :
    ∃ t, s = '\x7b' :: t ∧ (readCounts t = .error f ∨ f = ⟨.unclosedCount, s⟩) := by
  unfold readQuantifier at h
  split at h
  · cases h
  · cases h
  · cases h
  · rename_i t
    refine ⟨t, rfl, ?_⟩
    rcases bind_eq_error.1 h with h | ⟨⟨⟨m, n⟩, u⟩, -, h⟩
    · exact .inl h
    · dsimp only at h
      split at h
      · cases h
        exact .inr rfl
      · cases h
  · cases h

/-- A bracket is empty, or it is not closed. -/
theorem readBracket_eq_error {s t : Word} {f : Fault} (h : readBracket s t = .error f) :
    f = ⟨.unclosedClass, s⟩ ∨
      f = ⟨.emptyClass, s⟩ ∧ ∃ u, t = ']' :: u ∨ t = '^' :: ']' :: u := by
  unfold readBracket at h
  split at h
  rename_i negated t' heq
  split at h
  · cases h
    exact .inl rfl
  · rename_i u hm
    cases h
    obtain ⟨v, hv, rfl⟩ := readMembers_sound hm
    obtain ⟨⟩ := hv
    refine .inr ⟨rfl, u, ?_⟩
    split at heq
    · cases heq
      exact .inr rfl
    · cases heq
      exact .inl rfl
  · cases h

/-- Where an atom that holds no other cannot be read. -/
inductive SimpleFault : Word → Fault → Prop
  | missing : SimpleFault [] ⟨.expectedAtom, []⟩
  | misplaced {c : Char} {r : Word} : c = ')' ∨ c = '|' →
      SimpleFault (c :: r) ⟨.expectedAtom, c :: r⟩
  | nothingToRepeat {c : Char} {r : Word} : c = '*' ∨ c = '+' ∨ c = '?' →
      SimpleFault (c :: r) ⟨.nothingToRepeat, c :: r⟩
  | dangling : SimpleFault ['\\'] ⟨.danglingEscape, ['\\']⟩
  | unclosedBracket {r : Word} : readBracket ('[' :: r) r = .error ⟨.unclosedClass, '[' :: r⟩ →
      SimpleFault ('[' :: r) ⟨.unclosedClass, '[' :: r⟩
  | emptyBracket {r : Word} : SimpleFault ('[' :: ']' :: r) ⟨.emptyClass, '[' :: ']' :: r⟩
  | emptyNegatedBracket {r : Word} :
      SimpleFault ('[' :: '^' :: ']' :: r) ⟨.emptyClass, '[' :: '^' :: ']' :: r⟩

theorem simpleFault_of_error {s : Word} {f : Fault} (h : readSimple s = .error f) :
    SimpleFault s f := by
  unfold readSimple at h
  split at h
  · cases h
    exact .missing
  · rcases readBracket_eq_error h with rfl | ⟨rfl, u, rfl | rfl⟩
    · exact .unclosedBracket h
    · exact .emptyBracket
    · exact .emptyNegatedBracket
  · cases h
    exact .dangling
  · cases h
  · cases h
  · cases h
    exact .misplaced (.inl rfl)
  · cases h
    exact .misplaced (.inr rfl)
  · cases h
    exact .nothingToRepeat (.inl rfl)
  · cases h
    exact .nothingToRepeat (.inr (.inl rfl))
  · cases h
    exact .nothingToRepeat (.inr (.inr rfl))
  · cases h

mutual

inductive AtomFault : Word → Fault → Prop
  | simple {s : Word} {f : Fault} : (skipAnchors s).head? ≠ some '(' →
      readSimple (skipAnchors s) = .error f → AtomFault s f
  | group {s t : Word} {f : Fault} : skipAnchors s = '(' :: t → AtomsFault t f → AtomFault s f
  | unclosed {s t : Word} {ps : List Pattern} : skipAnchors s = '(' :: t → atoms t = .ok (ps, []) →
      AtomFault s ⟨.unclosedGroup, '(' :: t⟩

inductive OperandFault : Word → Fault → Prop
  | atom {s : Word} {f : Fault} : AtomFault s f → OperandFault s f
  | quantifier {s r : Word} {p : Pattern} {f : Fault} : atom s = .ok (p, r) →
      readQuantifier r = .error f → OperandFault s f
  | alt {s t : Word} {p : Pattern} {f : Fault} : quantifiedAtom s = .ok (p, '|' :: t) →
      OperandFault t f → OperandFault s f

inductive AtomsFault : Word → Fault → Prop
  | operand {s : Word} {f : Fault} : stops (skipAnchors s) = false → OperandFault s f →
      AtomsFault s f
  | rest {s r : Word} {p : Pattern} {f : Fault} : operand s = .ok (p, r) → AtomsFault r f →
      AtomsFault s f

end

theorem eq_nil_of_stops {r : Word} (hstop : stops r = true) (hparen : r.head? ≠ some ')') :
    r = [] := by
  cases r with
  | nil => rfl
  | cons c r =>
    rw [stops, decide_eq_true_iff] at hstop
    exact absurd (congrArg some hstop) hparen

mutual

theorem atomFault_of_error (s : Word) {f : Fault} (h : atom s = .error f) : AtomFault s f := by
  have hlen := length_skipAnchors s
  rw [atom_eq] at h
  split at h
  · rename_i hparen
    exact .simple (after?_eq_none.1 hparen) h
  · rename_i t hparen
    rw [after?_eq_some] at hparen
    have hlt : t.length < s.length := by
      rw [hparen, List.length_cons] at hlen
      omega
    rcases bind_eq_error.1 h with h | ⟨⟨ps, r⟩, hps, h⟩
    · exact .group hparen (atomsFault_of_error t h)
    · dsimp only at h
      split at h
      · rename_i hclose
        cases h
        obtain ⟨-, -, hstop, -⟩ := atoms_sound t hps
        obtain rfl := eq_nil_of_stops hstop (after?_eq_none.1 hclose)
        rw [hparen]
        exact .unclosed hparen hps
      · cases h
termination_by 3 * s.length

theorem operandFault_of_error (s : Word) {f : Fault} (h : operand s = .error f) :
    OperandFault s f := by
  rw [operand_eq_quantifiedAtom] at h
  rcases bind_eq_error.1 h with h | ⟨⟨p, t⟩, hp, h⟩
  · unfold quantifiedAtom at h
    rcases bind_eq_error.1 h with h | ⟨⟨p, r⟩, hp, h⟩
    · exact .atom (atomFault_of_error s h)
    · rcases bind_eq_error.1 h with h | ⟨⟨k, t⟩, -, h⟩
      · exact .quantifier hp h
      · cases h
  · have hlen := length_quantifiedAtom hp
    dsimp only at h
    split at h
    · cases h
    · rename_i u hpipe
      rw [after?_eq_some] at hpipe
      subst hpipe
      have hlt : u.length < s.length := by
        rw [List.length_cons] at hlen
        omega
      rcases bind_eq_error.1 h with h | ⟨x, -, h⟩
      · exact .alt hp (operandFault_of_error u h)
      · cases h
termination_by 3 * s.length + 1

theorem atomsFault_of_error (s : Word) {f : Fault} (h : atoms s = .error f) : AtomsFault s f := by
  rw [atoms_eq] at h
  split at h
  · cases h
  · rename_i hstop
    rw [Bool.not_eq_true] at hstop
    rw [operand_skipAnchors] at h
    rcases bind_eq_error.1 h with h | ⟨⟨p, r⟩, hp, h⟩
    · exact .operand hstop (operandFault_of_error s h)
    · have hlt := length_operand hp
      rcases bind_eq_error.1 h with h | ⟨x, -, h⟩
      · exact .rest hp (atomsFault_of_error r h)
      · cases h
termination_by 3 * s.length + 2

end

mutual

theorem AtomFault.atom_eq {s : Word} {f : Fault} : AtomFault s f → atom s = .error f
  | .simple hparen h => by
    rw [Pattern.atom_eq, after?_eq_none.2 hparen]
    exact h
  | .group hparen h => by
    rw [Pattern.atom_eq, after?_eq_some.2 hparen]
    exact bind_eq_error.2 (.inl h.atoms_eq)
  | .unclosed hparen hps => by
    rw [Pattern.atom_eq, after?_eq_some.2 hparen, hparen]
    exact bind_eq_error.2 (.inr ⟨_, hps, rfl⟩)

theorem OperandFault.operand_eq {s : Word} {f : Fault} : OperandFault s f → operand s = .error f
  | .atom h => by
    rw [Pattern.operand_eq]
    exact bind_eq_error.2 (.inl h.atom_eq)
  | .quantifier hp h => by
    rw [Pattern.operand_eq]
    exact bind_eq_error.2 (.inr ⟨_, hp, bind_eq_error.2 (.inl h)⟩)
  | .alt hp h => by
    rw [operand_eq_quantifiedAtom]
    refine bind_eq_error.2 (.inr ⟨_, hp, ?_⟩)
    dsimp only
    rw [after?_eq_some.2 rfl]
    exact bind_eq_error.2 (.inl h.operand_eq)

theorem AtomsFault.atoms_eq {s : Word} {f : Fault} : AtomsFault s f → atoms s = .error f
  | .operand hstop h => by
    rw [Pattern.atoms_eq, hstop, operand_skipAnchors]
    exact bind_eq_error.2 (.inl h.operand_eq)
  | .rest hp h => by
    rw [Pattern.atoms_eq, stops_eq_false_of_operand hp, operand_skipAnchors]
    exact bind_eq_error.2 (.inr ⟨_, hp, bind_eq_error.2 (.inl h.atoms_eq)⟩)

end

/-- A pattern cannot be read if there is a fault in it, or if it goes on after a list of operands,
which only a `)` can do. -/
theorem parse_eq_error {s : Word} {e : ParseError} : parse s = .error e ↔
    (∃ f, AtomsFault s f ∧ f.locate s = e) ∨
      ∃ ps r, atoms s = .ok (ps, ')' :: r) ∧ Fault.locate s ⟨.unmatchedParen, ')' :: r⟩ = e := by
  rw [parse_eq, readText]
  refine ⟨fun h => ?_, fun h => ?_⟩
  · split at h
    · rename_i f hf
      cases h
      exact .inl ⟨f, atomsFault_of_error s hf, rfl⟩
    · cases h
    · rename_i ps r hne hps
      cases h
      obtain ⟨-, -, hstop, -⟩ := atoms_sound s hps
      cases r with
      | nil => exact absurd rfl hne
      | cons c r =>
        rw [stops, decide_eq_true_iff] at hstop
        subst hstop
        exact .inr ⟨ps, r, hps, rfl⟩
  · rcases h with ⟨f, hf, rfl⟩ | ⟨ps, r, hps, rfl⟩
    · rw [hf.atoms_eq]
    · rw [hps]

end Pattern

end RegLan
