import RegLan.Proofs.Encoding
import RegLan.Proofs.Pattern.Fault

/-! Patterns put together are read as their parts are. What follows a pattern matters to it only
through its first character, so a pattern can be followed by any other that does not begin with a
brace, stand in a group, or be put between anchors. -/

namespace RegLan

variable {p q : Word} {ps qs : List Pattern}

namespace Pattern

theorem AtomsText.anchors_append {a v : Word} {f : Option Char} (ha : AnchorsText a)
    (hv : AtomsText v f ps) : AtomsText (a ++ v) f ps := by
  cases hv with
  | nil hb => exact .nil (List.forall_mem_append.2 ⟨ha, hb⟩)
  | @cons b u w _ p ps hb hu hw =>
    rw [← List.append_assoc, ← List.append_assoc]
    exact .cons (List.forall_mem_append.2 ⟨ha, hb⟩) hu hw

theorem AtomsText.append {u v : Word} {f : Option Char} {ps qs : List Pattern}
    (hv : AtomsText v f qs) : AtomsText u (v.head?.or f) ps → AtomsText (u ++ v) f (ps ++ qs)
  | .nil ha => hv.anchors_append ha
  | @AtomsText.cons a u w _ p ps ha hu hw => by
    rw [List.append_assoc]
    refine .cons ha ?_ (hv.append hw)
    rwa [List.head?_append, Option.or_assoc]

/-- An operand without anchors and alternatives is a whole pattern. -/
theorem parse_of_quantifiedText {u : Word} {t : Pattern} (h : QuantifiedText u none t) :
    parse u = .ok (.concat [t]) := by
  have hoperand : OperandText ([] ++ u) none t := .single anchorsText_nil h ends_none.ne_pipe
  exact parse_eq_ok.2 (.mk hoperand.atomsText)

theorem atomText_group (hp : parse p = .ok (.concat ps)) :
    AtomText ('(' :: p ++ [')']) (.concat ps) := by
  obtain ⟨hps⟩ := parse_eq_ok.1 hp
  exact .group (hps.follow ends_paren)

theorem exists_parse_error_of_misplaced {c : Char} (hc : c ∈ ['*', '+', '?', '|']) (r : Word) :
    ∃ e, parse (c :: r) = .error e := by
  have hfault : ∃ f, AtomsFault (c :: r) f := by
    simp only [List.mem_cons, List.not_mem_nil, or_false] at hc
    rcases hc with rfl | rfl | rfl | rfl
    all_goals
      refine ⟨_, .operand rfl (.atom (.simple ?_ rfl))⟩
      rw [skipAnchors_cons rfl]
      simp
  obtain ⟨f, hf⟩ := hfault
  exact ⟨_, parse_eq_error.2 (.inl ⟨f, hf, rfl⟩)⟩

/-- No pattern begins with a character that could belong to what stands before it, except a
brace. -/
theorem ends_head?_of_parse {t : Pattern} (hq : parse q = .ok t) (hbrace : q.head? ≠ some '\x7b') :
    Ends q.head? := by
  have hne : ∀ c ∈ ['*', '+', '?', '|'], q.head? ≠ some c := by
    intro c hc hhead
    obtain ⟨r, rfl⟩ := List.head?_eq_some_iff.1 hhead
    obtain ⟨e, he⟩ := exists_parse_error_of_misplaced hc r
    rw [he] at hq
    cases hq
  refine ⟨fun c hc => ?_, hne '|' (by simp)⟩
  simp only [quantifierStarts, List.mem_cons, List.not_mem_nil, or_false] at hc
  rcases hc with rfl | rfl | rfl | rfl
  · exact hne '*' (by simp)
  · exact hne '+' (by simp)
  · exact hne '?' (by simp)
  · exact hbrace

theorem parse_append (hp : parse p = .ok (.concat ps)) (hq : parse q = .ok (.concat qs))
    (hbrace : q.head? ≠ some '\x7b') : parse (p ++ q) = .ok (.concat (ps ++ qs)) := by
  have hends := ends_head?_of_parse hq hbrace
  obtain ⟨hps⟩ := parse_eq_ok.1 hp
  obtain ⟨hqs⟩ := parse_eq_ok.1 hq
  rw [← Option.or_none (o := q.head?)] at hends
  exact parse_eq_ok.2 (.mk (hqs.append (hps.follow hends)))

/-- A brace in front would be taken for a quantifier of what comes before. -/
example : parse "\x7b2\x7d".toList = .ok (.concat [.char '\x7b', .char '2', .char '\x7d']) ∧
    parse "a\x7b2\x7d".toList = .ok (.concat [.rep (.between 2 2) (.char 'a')]) :=
  ⟨by cbv, by cbv⟩

theorem parse_group (hp : parse p = .ok (.concat ps)) :
    parse ('(' :: p ++ [')']) = .ok (.concat [.concat ps]) :=
  parse_of_quantifiedText (.plain (atomText_group hp) ends_none.ne_quantifier)

theorem parse_quantified_group (hp : parse p = .ok (.concat ps)) {v : Word} {k : Quantifier}
    (hv : QuantifierText v k) :
    parse ('(' :: p ++ [')'] ++ v) = .ok (.concat [.rep k (.concat ps)]) :=
  parse_of_quantifiedText (.rep (atomText_group hp) hv)

theorem parse_alternative_groups (hp : parse p = .ok (.concat ps))
    (hq : parse q = .ok (.concat qs)) :
    parse ('(' :: p ++ [')', '|', '('] ++ q ++ [')']) =
      .ok (.concat [.alt (.concat ps) (.concat qs)]) := by
  have hleft := QuantifiedText.plain (f := some '|') (atomText_group hp)
    (ne_quantifierStart (by decide))
  have hright := OperandText.single anchorsText_nil
    (.plain (atomText_group hq) ends_none.ne_quantifier) ends_none.ne_pipe
  have halt := OperandText.alt anchorsText_nil hleft hright
  refine parse_eq_ok.2 (.mk ?_)
  simpa using halt.atomsText

theorem parse_anchored (hp : parse p = .ok (.concat ps)) :
    parse ('^' :: p ++ ['$']) = .ok (.concat ps) := by
  have hstart : AnchorsText ['^'] := by simp [AnchorsText]
  have hstop : AnchorsText ['$'] := by simp [AnchorsText]
  obtain ⟨hps⟩ := parse_eq_ok.1 hp
  have hends : Ends (some '$') := ends_some (by decide) (by decide)
  have happend := AtomsText.append (f := none) (.nil hstop) (hps.follow hends)
  rw [List.append_nil] at happend
  have hanchored := happend.anchors_append hstart
  exact parse_eq_ok.2 (.mk hanchored)

end Pattern

section Encoding

variable {m : Type → Type} [Monad m] [LawfulMonad m] {Str Re Result : Type}
  (S : Solver m Str Re Result)

theorem Anchoring.apply_exact (p : Word) (r : Re) : Anchoring.exact.apply S p r = pure r := by
  simp [Anchoring.apply, Anchoring.applyStart, Anchoring.applyStop]

/-- Nothing is added to a pattern that has both anchors. -/
theorem Anchoring.apply_anchored (a : Anchoring) (p : Word) (r : Re) :
    a.apply S ('^' :: p ++ ['$']) r = pure r := by
  have hstart : (Anchors.of ('^' :: p ++ ['$'])).start = true :=
    (start_of_iff _).2 ⟨p ++ ['$'], rfl⟩
  have hstop : (Anchors.of ('^' :: p ++ ['$'])).stop = true :=
    (stop_of_iff _).2 (List.suffix_append _ _)
  simp only [Anchoring.apply, hstart, hstop, if_true, pure_bind]

theorem encodePattern_anchored (a : Anchoring) (hp : Pattern.parse p = .ok (.concat ps)) :
    encodePattern S a ('^' :: p ++ ['$']) = encodePattern S .exact p := by
  rw [encodePattern, encodePattern, Pattern.parse_anchored hp, hp]
  simp only [Anchoring.apply_anchored, Anchoring.apply_exact]

theorem encodePattern_exact {t : Pattern} (hp : Pattern.parse p = .ok t) :
    encodePattern S .exact p = Except.ok <$> S.build t := by
  rw [encodePattern, hp]
  simp only [Anchoring.apply_exact, map_pure, bind_pure_comp]

/-- Patterns are read part by part: one after the other, in groups with a quantifier or without,
as alternatives, and between anchors, which leave every solver with the term that it builds for the
pattern alone. -/
theorem parse_composed (p q : Word) (ps qs : List Pattern)
    (hp : Pattern.parse p = .ok (.concat ps)) (hq : Pattern.parse q = .ok (.concat qs)) :
    (q.head? ≠ some '\x7b' → Pattern.parse (p ++ q) = .ok (.concat (ps ++ qs))) ∧
    (∀ v k, Pattern.QuantifierText v k →
      Pattern.parse ('(' :: p ++ [')'] ++ v) = .ok (.concat [.rep k (.concat ps)])) ∧
    Pattern.parse ('(' :: p ++ [')']) = .ok (.concat [.concat ps]) ∧
    Pattern.parse ('(' :: p ++ [')', '|', '('] ++ q ++ [')']) =
      .ok (.concat [.alt (.concat ps) (.concat qs)]) ∧
    Pattern.parse ('^' :: p ++ ['$']) = .ok (.concat ps) ∧
    (∀ a, encodePattern S a ('^' :: p ++ ['$']) = encodePattern S .exact p) ∧
    encodePattern S .exact p = Except.ok <$> S.build (.concat ps) :=
  ⟨Pattern.parse_append hp hq, fun _ _ hv => Pattern.parse_quantified_group hp hv,
    Pattern.parse_group hp, Pattern.parse_alternative_groups hp hq, Pattern.parse_anchored hp,
    fun a => encodePattern_anchored S a hp, encodePattern_exact S hp⟩

end Encoding

/-- The patterns `^a|b*` and `c$`, of which the first could run over into what follows it. -/
theorem parse_composed_alternatives :
    Pattern.parse "^a|b*c$".toList = .ok (.concat
      [.alt (.char 'a') (.rep .zeroOrMore (.char 'b')), .char 'c']) ∧
    Pattern.parse "(^a|b*)\x7b2,1\x7d".toList = .ok (.concat
      [.rep (.between 2 1) (.concat [.alt (.char 'a') (.rep .zeroOrMore (.char 'b'))])]) ∧
    Pattern.parse "(^a|b*)|(c$)".toList = .ok (.concat
      [.alt (.concat [.alt (.char 'a') (.rep .zeroOrMore (.char 'b'))]) (.concat [.char 'c'])]) ∧
    encodePattern Solver.reference .surround "^^a|b*$".toList =
      encodePattern Solver.reference .exact "^a|b*".toList ∧
    encodePattern Solver.reference .exact "^a|b*".toList = Except.ok <$> Solver.reference.build
      (.concat [.alt (.char 'a') (.rep .zeroOrMore (.char 'b'))]) := by
  have hp : Pattern.parse "^a|b*".toList =
      .ok (.concat [.alt (.char 'a') (.rep .zeroOrMore (.char 'b'))]) := by cbv
  have hq : Pattern.parse "c$".toList = .ok (.concat [.char 'c']) := by cbv
  have htwo : Pattern.NumberText ['2'] 2 :=
    ⟨by simp, List.forall_mem_singleton.2 rfl, rfl, by decide⟩
  have hone : Pattern.NumberText ['1'] 1 :=
    ⟨by simp, List.forall_mem_singleton.2 rfl, rfl, by decide⟩
  obtain ⟨happend, hrep, -, halt, -, hencode, hexact⟩ :=
    parse_composed Solver.reference _ _ _ _ hp hq
  exact ⟨happend (by decide), hrep _ _ (.between htwo hone), halt, hencode .surround, hexact⟩

end RegLan
