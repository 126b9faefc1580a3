import RegLan.Proofs.Pattern.Readers
import RegLan.Proofs.Pattern.Token

/-! The parser reads exactly what the grammar derives. One direction follows the derivation, the
other the recursion of the readers; both carry atoms, operands and lists of operands along
together, with the text that is left after them. -/

namespace RegLan

namespace Pattern

open Word

/-- An operand up to its alternatives. -/
def quantifiedAtom (s : Word) : Except Fault (Pattern × Word) := do
  let (p, r) ← atom s
  let (k, t) ← readQuantifier r
  return (quantified p k, t)

theorem operand_eq_quantifiedAtom (s : Word) : operand s = do
    let (p, t) ← quantifiedAtom s
    match after? '|' t with
    | none => return (p, t)
    | some u => do
      let (q, v) ← operand u
      return (.alt p q, v) := by
  rw [operand_eq, quantifiedAtom]
  cases atom s with
  | error f => rfl
  | ok x =>
    obtain ⟨p, r⟩ := x
    change (readQuantifier r >>= _) = ((readQuantifier r >>= _) >>= _)
    cases readQuantifier r with
    | error f => rfl
    | ok y => rfl

/-- Anchors in front of an atom make no difference. -/
theorem atom_append {a : Word} (ha : AnchorsText a) (s : Word) : atom (a ++ s) = atom s := by
  rw [atom_eq, atom_eq, skipAnchors_append ha]

theorem quantifiedAtom_append {a : Word} (ha : AnchorsText a) (s : Word) :
    quantifiedAtom (a ++ s) = quantifiedAtom s := by
  rw [quantifiedAtom, quantifiedAtom, atom_append ha]

theorem operand_skipAnchors (s : Word) : operand (skipAnchors s) = operand s := by
  obtain ⟨a, ha, hs⟩ := exists_anchorsText s
  rw [operand_eq, operand_eq s]
  conv_rhs => rw [hs, atom_append ha]

theorem skipAnchors_cons {c : Char} (hc : isAnchor c = false) (s : Word) :
    skipAnchors (c :: s) = c :: s :=
  List.dropWhile_cons_of_neg (by rw [hc]; exact Bool.false_ne_true)

theorem skipAnchors_of_head?_ne {s : Word} (hcaret : s.head? ≠ some '^')
    (hdollar : s.head? ≠ some '$') : skipAnchors s = s := by
  cases s with
  | nil => rfl
  | cons c s =>
    refine skipAnchors_cons (Bool.eq_false_iff.2 fun hc => ?_) s
    rcases isAnchor_iff.1 hc with rfl | rfl
    · exact hcaret rfl
    · exact hdollar rfl

theorem skipAnchors_of_stops {s : Word} (h : stops s = true) : skipAnchors s = s := by
  cases s with
  | nil => rfl
  | cons c s =>
    rw [stops, decide_eq_true_iff] at h
    rw [h, skipAnchors_cons rfl]

theorem atoms_of_stops {s : Word} (h : stops s = true) : atoms s = .ok ([], s) := by
  rw [atoms_eq, skipAnchors_of_stops h, if_pos h]

theorem SimpleText.exists_cons {u : Word} {p : Pattern} (hu : SimpleText u p) :
    ∃ c v, u = c :: v ∧ isAnchor c = false ∧ c ≠ '(' := by
  cases hu with
  | @bracket u => exact ⟨'[', u ++ [']'], rfl, rfl, by decide⟩
  | @negatedBracket u => exact ⟨'[', '^' :: u ++ [']'], rfl, rfl, by decide⟩
  | @escape c => exact ⟨'\\', [c], rfl, rfl, by decide⟩
  | any => exact ⟨'.', [], rfl, rfl, by decide⟩
  | @char c hc =>
    refine ⟨c, [], rfl, ?_, ?_⟩
    · rw [Bool.eq_false_iff, ne_eq, isAnchor_iff]
      intro h
      rcases h with rfl | rfl
      · exact hc (by decide)
      · exact hc (by decide)
    · rintro rfl
      exact hc (by decide)

/-- Where a list of operands stops there is no operand. -/
theorem stops_eq_false_of_operand {s : Word} {x : Pattern × Word} (h : operand s = .ok x) :
    stops (skipAnchors s) = false := by
  rw [operand_eq, bind_eq_ok] at h
  obtain ⟨y, hy, -⟩ := h
  rw [atom_eq] at hy
  cases hs : skipAnchors s with
  | nil =>
    rw [hs] at hy
    cases hy
  | cons c t =>
    rw [hs] at hy
    rw [stops, decide_eq_false_iff_not]
    rintro rfl
    cases hy

mutual

/-- What follows an atom never matters to it. -/
theorem atom_complete {u : Word} {p : Pattern} (r : Word) : AtomText u p → atom (u ++ r) = .ok (p, r)
  | .simple hu => by
    obtain ⟨c, v, rfl, hanchor, hparen⟩ := hu.exists_cons
    have hs := readSimple_complete hu r
    rw [List.cons_append] at hs ⊢
    rw [atom_eq, skipAnchors_cons hanchor, after?_eq_none.2 (by simpa using hparen)]
    exact hs
  | @AtomText.group u ps hu => by
    have hs := atoms_complete (r := ')' :: r) rfl rfl hu
    rw [atom_eq, List.cons_append, List.cons_append, List.append_assoc, skipAnchors_cons rfl,
      after?_eq_some.2 rfl]
    refine bind_eq_ok.2 ⟨_, hs, ?_⟩
    dsimp only
    rw [after?_eq_some.2 rfl]
    rfl

theorem quantifiedAtom_complete {u r : Word} {f : Option Char} {p : Pattern} (hr : r.head? = f) :
    QuantifiedText u f p → quantifiedAtom (u ++ r) = .ok (p, r)
  | .plain hu hf => by
    have hq : readQuantifier r = .ok (none, r) :=
      readQuantifier_eq_none.2 ⟨rfl, fun c hc => hr ▸ hf c hc⟩
    exact bind_eq_ok.2 ⟨_, atom_complete r hu, bind_eq_ok.2 ⟨_, hq, rfl⟩⟩
  | @QuantifiedText.rep u v f p k hu hv => by
    rw [List.append_assoc]
    exact bind_eq_ok.2 ⟨_, atom_complete (v ++ r) hu,
      bind_eq_ok.2 ⟨_, readQuantifier_complete hv r, rfl⟩⟩

theorem operand_complete {u r : Word} {f : Option Char} {p : Pattern} (hr : r.head? = f) :
    OperandText u f p → operand (u ++ r) = .ok (p, r)
  | .single ha hu hf => by
    rw [List.append_assoc, operand_eq_quantifiedAtom, quantifiedAtom_append ha]
    refine bind_eq_ok.2 ⟨_, quantifiedAtom_complete hr hu, ?_⟩
    dsimp only
    rw [after?_eq_none.2 (hr ▸ hf)]
    rfl
  | @OperandText.alt a u v f p q ha hu hv => by
    have hq := quantifiedAtom_complete (r := '|' :: (v ++ r)) rfl hu
    rw [List.append_assoc, List.append_assoc, List.cons_append, operand_eq_quantifiedAtom,
      quantifiedAtom_append ha]
    refine bind_eq_ok.2 ⟨_, hq, ?_⟩
    dsimp only
    rw [after?_eq_some.2 rfl]
    exact bind_eq_ok.2 ⟨_, operand_complete hr hv, rfl⟩

theorem atoms_complete {u r : Word} {f : Option Char} {ps : List Pattern} (hr : r.head? = f)
    (hstop : stops r = true) : AtomsText u f ps → atoms (u ++ r) = .ok (ps, r)
  | .nil ha => by
    rw [atoms_eq, skipAnchors_append ha, skipAnchors_of_stops hstop, if_pos hstop]
  | @AtomsText.cons a u v f p ps ha hu hv => by
    have hp := operand_complete (r := v ++ r) (by rw [List.head?_append, hr]) hu
    rw [List.append_assoc, List.append_assoc, atoms_eq, skipAnchors_append ha,
      if_neg (by simp [stops_eq_false_of_operand hp]), operand_skipAnchors]
    exact bind_eq_ok.2 ⟨_, hp, bind_eq_ok.2 ⟨_, atoms_complete hr hstop hv, rfl⟩⟩

end

/-- That a reader leaves less text is part of the type of its result. It carries the inductions
below. -/
theorem property_of_forget {α : Type} {q : Word → Prop} {a : α} {r : Word}
    {x : Except Fault (α × { r : Word // q r })} (h : forget x = .ok (a, r)) : q r := by
  cases x with
  | error f => cases h
  | ok x =>
    cases h
    exact x.2.2

theorem length_atom {s r : Word} {p : Pattern} (h : atom s = .ok (p, r)) : r.length < s.length :=
  property_of_forget h

theorem length_operand {s r : Word} {p : Pattern} (h : operand s = .ok (p, r)) :
    r.length < s.length :=
  property_of_forget h

theorem length_quantifiedAtom {s r : Word} {p : Pattern} (h : quantifiedAtom s = .ok (p, r)) :
    r.length < s.length := by
  unfold quantifiedAtom at h
  rw [bind_eq_ok] at h
  obtain ⟨⟨q, t⟩, hq, h⟩ := h
  rw [bind_eq_ok] at h
  obtain ⟨⟨k, v⟩, hk, h⟩ := h
  cases h
  exact (length_readQuantifier hk).trans_lt (length_atom hq)

mutual

theorem atom_sound {r : Word} {p : Pattern} (s : Word) (h : atom s = .ok (p, r)) :
    ∃ a u, AnchorsText a ∧ AtomText u p ∧ s = a ++ u ++ r := by
  obtain ⟨a, ha, hs⟩ := exists_anchorsText s
  have hlen := length_skipAnchors s
  rw [atom_eq] at h
  split at h
  · rename_i hparen
    rw [after?_eq_none] at hparen
    obtain ⟨u, hu, hs'⟩ := readSimple_sound hparen (fun c hc => isAnchor_head?_skipAnchors hc) h
    refine ⟨a, u, ha, .simple hu, ?_⟩
    rw [List.append_assoc, ← hs']
    exact hs
  · rename_i t hparen
    rw [after?_eq_some] at hparen
    rw [bind_eq_ok] at h
    obtain ⟨⟨ps, v⟩, hps, h⟩ := h
    have hlt : t.length < s.length := by
      rw [hparen, List.length_cons] at hlen
      omega
    obtain ⟨u, hu, hstop, rfl⟩ := atoms_sound t hps
    dsimp only at h
    split at h
    · cases h
    · rename_i w hclose
      rw [after?_eq_some] at hclose
      cases h
      subst hclose
      refine ⟨a, '(' :: u ++ [')'], ha, .group hu, ?_⟩
      rw [hs, hparen]
      simp
termination_by 4 * s.length

theorem quantifiedAtom_sound {r : Word} {p : Pattern} (s : Word)
    (h : quantifiedAtom s = .ok (p, r)) :
    ∃ a u, AnchorsText a ∧ QuantifiedText u r.head? p ∧ s = a ++ u ++ r := by
  unfold quantifiedAtom at h
  rw [bind_eq_ok] at h
  obtain ⟨⟨q, t⟩, hq, h⟩ := h
  rw [bind_eq_ok] at h
  obtain ⟨⟨k, v⟩, hk, h⟩ := h
  cases h
  obtain ⟨a, u, ha, hu, rfl⟩ := atom_sound s hq
  cases k with
  | none =>
    obtain ⟨rfl, hstart⟩ := readQuantifier_eq_none.1 hk
    exact ⟨a, u, ha, .plain hu hstart, rfl⟩
  | some k =>
    obtain ⟨w, hw, rfl⟩ := readQuantifier_sound hk
    refine ⟨a, u ++ w, ha, .rep hu hw, ?_⟩
    simp
termination_by 4 * s.length + 1

theorem operand_sound {r : Word} {p : Pattern} (s : Word) (h : operand s = .ok (p, r)) :
    ∃ u, OperandText u r.head? p ∧ s = u ++ r := by
  rw [operand_eq_quantifiedAtom, bind_eq_ok] at h
  obtain ⟨⟨q, t⟩, hq, h⟩ := h
  have hlen := length_quantifiedAtom hq
  obtain ⟨a, u, ha, hu, hs⟩ := quantifiedAtom_sound s hq
  dsimp only at h
  split at h
  · rename_i hpipe
    rw [after?_eq_none] at hpipe
    cases h
    exact ⟨a ++ u, .single ha hu hpipe, hs⟩
  · rename_i v hpipe
    rw [after?_eq_some] at hpipe
    rw [bind_eq_ok] at h
    obtain ⟨⟨p', w⟩, hp', h⟩ := h
    have hlt : v.length < s.length := by
      rw [hpipe, List.length_cons] at hlen
      omega
    obtain ⟨x, hx, rfl⟩ := operand_sound v hp'
    cases h
    subst hpipe
    refine ⟨a ++ u ++ '|' :: x, .alt ha hu hx, ?_⟩
    rw [hs]
    simp
termination_by 4 * s.length + 2

theorem atoms_sound {r : Word} {ps : List Pattern} (s : Word) (h : atoms s = .ok (ps, r)) :
    ∃ u, AtomsText u r.head? ps ∧ stops r = true ∧ s = u ++ r := by
  obtain ⟨a, ha, hs⟩ := exists_anchorsText s
  have hlen := length_skipAnchors s
  rw [atoms_eq] at h
  split at h
  · rename_i hstop
    cases h
    exact ⟨a, .nil ha, hstop, hs⟩
  · rw [bind_eq_ok] at h
    obtain ⟨⟨p, t⟩, hp, h⟩ := h
    rw [bind_eq_ok] at h
    obtain ⟨⟨qs, v⟩, hqs, h⟩ := h
    cases h
    have hlt := length_operand hp
    obtain ⟨u, hu, hs'⟩ := operand_sound (skipAnchors s) hp
    obtain ⟨w, hw, hstop, rfl⟩ := atoms_sound t hqs
    refine ⟨a ++ u ++ w, .cons ha ?_ hw, hstop, ?_⟩
    · rwa [List.head?_append] at hu
    · rw [hs, hs']
      simp
termination_by 4 * s.length + 3

end

theorem parse_eq_ok {s : Word} {p : Pattern} : parse s = .ok p ↔ Derives s p := by
  refine ⟨fun h => ?_, fun h => ?_⟩
  · rw [parse_eq, readText] at h
    split at h
    · cases h
    · rename_i ps hps
      cases h
      obtain ⟨u, hu, -, rfl⟩ := atoms_sound s hps
      rw [List.append_nil]
      exact .mk hu
    · cases h
  · obtain ⟨hs⟩ := h
    have h := atoms_complete (r := []) rfl rfl hs
    rw [List.append_nil] at h
    rw [parse_eq, readText, h]

/-- A range may end in any character, and after an anchor a brace stands for itself. -/
example : parse "[a-]]a^\x7b2\x7d".toList = .ok (.concat [.bracket ⟨false, [.range 'a' ']']⟩,
    .char 'a', .char '\x7b', .char '2', .char '\x7d']) := by cbv

/-- The parser accepts exactly the texts that the grammar derives, with the pattern that it derives
for them, and there is never more than one. -/
theorem parse_iff_derives (s : Word) (p : Pattern) :
    (parse s = .ok p ↔ Derives s p) ∧ (Derives s p → ∃! q, Derives s q) := by
  refine ⟨parse_eq_ok, fun hp => ⟨p, hp, fun q hq => ?_⟩⟩
  have h : Except.ok q = Except.ok p := (parse_eq_ok.2 hq).symm.trans (parse_eq_ok.2 hp)
  exact Except.ok.inj h

end Pattern

end RegLan
