import Mathlib.Data.List.TakeWhile
import RegLan.Proofs.Pattern.Grammar

/-! The readers that do not call each other. Each reads what its part of the grammar says: it
returns `x` and the rest `r` exactly if the text is a text of `x` followed by `r`. -/

namespace RegLan

open Word

theorem Word.after?_eq_some {c : Char} {s r : Word} : after? c s = some r ↔ s = c :: r := by
  cases s with
  | nil => simp [after?]
  | cons d s =>
    rw [after?, List.cons.injEq]
    split
    · rename_i h
      simp [h]
    · rename_i h
      simp [h]

theorem Word.after?_eq_none {c : Char} {s : Word} : after? c s = none ↔ s.head? ≠ some c := by
  cases s with
  | nil => simp [after?]
  | cons d s => simp [after?]

namespace Pattern

theorem bind_eq_ok {α β : Type} {x : Except Fault α} {f : α → Except Fault β} {b : β} :
    (x >>= f) = .ok b ↔ ∃ a, x = .ok a ∧ f a = .ok b := by
  cases x with
  | error e =>
    refine ⟨fun h => (nomatch h), fun h => ?_⟩
    obtain ⟨a, ha, -⟩ := h
    cases ha
  | ok a =>
    refine ⟨fun h => ⟨a, rfl, h⟩, fun h => ?_⟩
    obtain ⟨a', ha, h⟩ := h
    cases ha
    exact h

theorem isAnchor_iff {c : Char} : isAnchor c = true ↔ c = '^' ∨ c = '$' := by
  simp [isAnchor]

theorem skipAnchors_append {a : Word} (ha : AnchorsText a) (s : Word) :
    skipAnchors (a ++ s) = skipAnchors s :=
  List.dropWhile_append_of_pos fun c hc => isAnchor_iff.2 (ha c hc)

theorem exists_anchorsText (s : Word) : ∃ a, AnchorsText a ∧ s = a ++ skipAnchors s :=
  ⟨s.takeWhile isAnchor, fun _ hc => isAnchor_iff.1 (List.mem_takeWhile_imp hc),
    List.takeWhile_append_dropWhile.symm⟩

theorem isAnchor_head?_skipAnchors {s : Word} {c : Char} (h : (skipAnchors s).head? = some c) :
    isAnchor c = false := by
  have hs := List.head?_dropWhile_not isAnchor s
  rw [← skipAnchors, h] at hs
  exact hs

/-- The text does not go on with a digit. -/
def NoDigit (r : Word) : Prop := ∀ c ∈ r.head?, c.isDigit = false

theorem le_ofDigitChars (ds : Word) (n : ℕ) : n ≤ Nat.ofDigitChars 10 ds n := by
  induction ds generalizing n with
  | nil => rw [Nat.ofDigitChars_nil]
  | cons d ds ih =>
    rw [Nat.ofDigitChars_cons]
    have := ih (10 * n + (d.toNat - '0'.toNat))
    omega

theorem readDigits_sound {n m : ℕ} {s r : Word} (hn : n < countBound)
    (h : readDigits n s = some (m, r)) :
    ∃ ds, s = ds ++ r ∧ (∀ d ∈ ds, d.isDigit = true) ∧ NoDigit r ∧
      Nat.ofDigitChars 10 ds n = m ∧ m < countBound := by
  fun_induction readDigits n s with
  | case1 n =>
    cases h
    exact ⟨[], rfl, by simp, by simp [NoDigit], Nat.ofDigitChars_nil, hn⟩
  | case2 n c s hc hlt ih =>
    obtain ⟨ds, rfl, hds, hr, hm, hb⟩ := ih hlt h
    refine ⟨c :: ds, rfl, List.forall_mem_cons.2 ⟨hc, hds⟩, hr, ?_, hb⟩
    rw [Nat.ofDigitChars_cons]
    exact hm
  | case3 => cases h
  | case4 n c s hc =>
    cases h
    refine ⟨[], rfl, by simp, ?_, Nat.ofDigitChars_nil, hn⟩
    simpa [NoDigit] using hc

/-- The value so far never exceeds the value of the whole, so no bound is passed on the way. -/
theorem readDigits_complete {ds r : Word} {n : ℕ} (hds : ∀ d ∈ ds, d.isDigit = true)
    (hr : NoDigit r) (hb : Nat.ofDigitChars 10 ds n < countBound) :
    readDigits n (ds ++ r) = some (Nat.ofDigitChars 10 ds n, r) := by
  induction ds generalizing n with
  | nil =>
    rw [Nat.ofDigitChars_nil, List.nil_append]
    cases r with
    | nil => rfl
    | cons c r => rw [readDigits, if_neg (by simpa [NoDigit] using hr)]
  | cons d ds ih =>
    rw [List.forall_mem_cons] at hds
    rw [Nat.ofDigitChars_cons] at hb ⊢
    have hlt : 10 * n + digitValue d < countBound := (le_ofDigitChars ds _).trans_lt hb
    rw [List.cons_append, readDigits, if_pos hds.1, if_pos hlt]
    exact ih hds.2 hb

theorem readNumber_eq_ok {s r : Word} {n : ℕ} :
    readNumber s = .ok (n, r) ↔ ∃ ds, NumberText ds n ∧ s = ds ++ r ∧ NoDigit r := by
  unfold readNumber
  refine ⟨fun h => ?_, fun h => ?_⟩
  · split at h
    · rename_i hs
      split at h
      · rename_i hd
        cases h
        obtain ⟨ds, rfl, hds, hr, hn, hb⟩ := readDigits_sound (by decide) hd
        refine ⟨ds, ⟨?_, hds, hn, hb⟩, rfl, hr⟩
        rintro rfl
        cases r with
        | nil => cases hs
        | cons c r => simp_all [NoDigit]
      · cases h
    · cases h
  · obtain ⟨ds, ⟨hne, hds, rfl, hb⟩, rfl, hr⟩ := h
    obtain ⟨d, ds, rfl⟩ := List.exists_cons_of_ne_nil hne
    have hd : d.isDigit = true := hds d List.mem_cons_self
    rw [if_pos (by simpa using hd), readDigits_complete hds hr hb]

theorem readCounts_sound {s r : Word} {m n : ℕ} (h : readCounts s = .ok ((m, n), r)) :
    (∃ ds, NumberText ds m ∧ n = m ∧ s = ds ++ r) ∨
      ∃ ds es, NumberText ds m ∧ NumberText es n ∧ s = ds ++ ',' :: es ++ r := by
  unfold readCounts at h
  rw [bind_eq_ok] at h
  obtain ⟨⟨m', t⟩, hm, h⟩ := h
  obtain ⟨ds, hds, rfl, -⟩ := readNumber_eq_ok.1 hm
  dsimp only at h
  split at h
  · cases h
    exact Or.inl ⟨ds, hds, rfl, rfl⟩
  · rename_i u hu
    rw [bind_eq_ok] at h
    obtain ⟨⟨n', v⟩, hn, h⟩ := h
    obtain ⟨es, hes, rfl, -⟩ := readNumber_eq_ok.1 hn
    cases h
    rw [after?_eq_some] at hu
    refine Or.inr ⟨ds, es, hds, hes, ?_⟩
    rw [hu, List.append_assoc, List.cons_append]

theorem readCounts_one {ds r : Word} {n : ℕ} (hds : NumberText ds n) (hr : NoDigit r)
    (hcomma : r.head? ≠ some ',') : readCounts (ds ++ r) = .ok ((n, n), r) := by
  refine bind_eq_ok.2 ⟨(n, r), readNumber_eq_ok.2 ⟨ds, hds, rfl, hr⟩, ?_⟩
  dsimp only
  rw [after?_eq_none.2 hcomma]
  rfl

theorem readCounts_two {ds es r : Word} {m n : ℕ} (hds : NumberText ds m) (hes : NumberText es n)
    (hr : NoDigit r) : readCounts (ds ++ ',' :: es ++ r) = .ok ((m, n), r) := by
  have hcomma : NoDigit (',' :: (es ++ r)) := by simp [NoDigit]
  rw [List.append_assoc, List.cons_append]
  refine bind_eq_ok.2 ⟨(m, ',' :: (es ++ r)), readNumber_eq_ok.2 ⟨ds, hds, rfl, hcomma⟩, ?_⟩
  dsimp only
  rw [after?_eq_some.2 rfl]
  exact bind_eq_ok.2 ⟨(n, r), readNumber_eq_ok.2 ⟨es, hes, rfl, hr⟩, rfl⟩

theorem readQuantifier_eq_none {s r : Word} :
    readQuantifier s = .ok (none, r) ↔ s = r ∧ ∀ c ∈ quantifierStarts, s.head? ≠ some c := by
  unfold readQuantifier
  split
  · simp [quantifierStarts]
  · simp [quantifierStarts]
  · simp [quantifierStarts]
  · rename_i t
    simp only [quantifierStarts]
    refine ⟨fun h => ?_, by simp⟩
    rw [bind_eq_ok] at h
    obtain ⟨⟨⟨m, n⟩, u⟩, -, h⟩ := h
    dsimp only at h
    split at h
    · cases h
    · cases h
  · rename_i h1 h2 h3 h4
    refine ⟨fun h => ?_, fun h => ?_⟩
    · cases h
      refine ⟨rfl, fun c hc hs => ?_⟩
      obtain ⟨t, rfl⟩ := List.head?_eq_some_iff.1 hs
      simp only [quantifierStarts, List.mem_cons, List.not_mem_nil, or_false] at hc
      rcases hc with rfl | rfl | rfl | rfl
      · exact h1 t rfl
      · exact h2 t rfl
      · exact h3 t rfl
      · exact h4 t rfl
    · obtain ⟨rfl, -⟩ := h
      rfl

theorem readQuantifier_sound {s r : Word} {k : Quantifier}
    (h : readQuantifier s = .ok (some k, r)) : ∃ v, QuantifierText v k ∧ s = v ++ r := by
  unfold readQuantifier at h
  split at h
  · cases h
    exact ⟨['*'], .star, rfl⟩
  · cases h
    exact ⟨['+'], .plus, rfl⟩
  · cases h
    exact ⟨['?'], .opt, rfl⟩
  · rw [bind_eq_ok] at h
    obtain ⟨⟨⟨m, n⟩, t⟩, hc, h⟩ := h
    dsimp only at h
    split at h
    · cases h
    · rename_i u hu
      cases h
      rw [after?_eq_some] at hu
      subst hu
      rcases readCounts_sound hc with ⟨ds, hds, rfl, rfl⟩ | ⟨ds, es, hds, hes, rfl⟩
      · exact ⟨_, .exactly hds, by simp⟩
      · exact ⟨_, .between hds hes, by simp⟩
  · cases h

theorem readQuantifier_complete {v : Word} {k : Quantifier} (hv : QuantifierText v k) (r : Word) :
    readQuantifier (v ++ r) = .ok (some k, r) := by
  have hbrace : NoDigit ('\x7d' :: r) := by simp [NoDigit]
  cases hv with
  | star => rfl
  | plus => rfl
  | opt => rfl
  | @exactly ds n hds =>
    have hc := readCounts_one hds hbrace (by simp)
    simp only [List.cons_append, List.append_assoc, List.nil_append, readQuantifier]
    refine bind_eq_ok.2 ⟨_, hc, ?_⟩
    dsimp only
    rw [after?_eq_some.2 rfl]
    rfl
  | @between ds es m n hds hes =>
    have hc := readCounts_two hds hes hbrace
    simp only [List.cons_append, List.append_assoc, List.nil_append, readQuantifier] at hc ⊢
    refine bind_eq_ok.2 ⟨_, hc, ?_⟩
    dsimp only
    rw [after?_eq_some.2 rfl]
    rfl

theorem readMembers_char {c : Char} {s : Word} (hparen : c ≠ ')') (hclose : c ≠ ']')
    (hs : s.head? ≠ some '-') :
    readMembers (c :: s) = (readMembers s).map fun (ms, r) => (.char c :: ms, r) := by
  rw [readMembers]
  · exact hparen
  · exact hclose
  · rintro rfl
    exact hs rfl
  · rintro hi t rfl
    exact hs rfl

theorem readMembers_range {lo : Char} (hi : Char) (s : Word) (hparen : lo ≠ ')')
    (hclose : lo ≠ ']') : readMembers (lo :: '-' :: hi :: s) =
      (readMembers s).map fun (ms, r) => (.range lo hi :: ms, r) := by
  rw [readMembers]
  · exact hparen
  · exact hclose

theorem readMembers_sound {s r : Word} {ms : List Member} (h : readMembers s = some (ms, r)) :
    ∃ u, MembersText u ms ∧ s = u ++ ']' :: r := by
  fun_induction readMembers s generalizing ms r with
  | case1 => cases h
  | case2 => cases h
  | case3 =>
    cases h
    exact ⟨[], .nil, rfl⟩
  | case4 => cases h
  | case5 lo hi s hparen hclose ih =>
    obtain ⟨⟨ms', r'⟩, h', heq⟩ := Option.map_eq_some_iff.1 h
    cases heq
    obtain ⟨u, hu, rfl⟩ := ih h'
    exact ⟨lo :: '-' :: hi :: u, .range hparen hclose hu, rfl⟩
  | case6 c s hparen hclose hend hrange ih =>
    obtain ⟨⟨ms', r'⟩, h', heq⟩ := Option.map_eq_some_iff.1 h
    cases heq
    obtain ⟨u, hu, rfl⟩ := ih h'
    refine ⟨c :: u, .char hparen hclose ?_ hu, rfl⟩
    intro hdash
    obtain ⟨v, rfl⟩ := List.head?_eq_some_iff.1 hdash
    -- after the `-` there is at least the closing `]`, so this was a range
    cases v with
    | nil => exact hrange ']' _ rfl
    | cons hi v => exact hrange hi _ rfl

theorem readMembers_complete {u : Word} {ms : List Member} (hu : MembersText u ms) (r : Word) :
    readMembers (u ++ ']' :: r) = some (ms, r) := by
  induction hu with
  | nil => rfl
  | @char c u ms hparen hclose hdash _ ih =>
    have hs : (u ++ ']' :: r).head? ≠ some '-' := by
      cases u with
      | nil => simp
      | cons d u => exact hdash
    rw [List.cons_append, readMembers_char hparen hclose hs, ih]
    rfl
  | @range lo hi u ms hparen hclose _ ih =>
    rw [List.cons_append, List.cons_append, List.cons_append,
      readMembers_range hi _ hparen hclose, ih]
    rfl

theorem readBracket_sound {s t r : Word} {p : Pattern} (h : readBracket s t = .ok (p, r)) :
    ∃ u, SimpleText ('[' :: u ++ [']']) p ∧ t = u ++ ']' :: r := by
  unfold readBracket at h
  split at h
  rename_i negated t' heq
  split at h
  · cases h
  · cases h
  · rename_i ms r' hne hm
    cases h
    obtain ⟨u, hu, rfl⟩ := readMembers_sound hm
    have hms : ms ≠ [] := fun h => hne (h ▸ rfl)
    split at heq
    · cases heq
      exact ⟨'^' :: u, .negatedBracket hu hms, rfl⟩
    · rename_i hcaret
      cases heq
      refine ⟨u, .bracket ?_ hu hms, rfl⟩
      intro hhead
      obtain ⟨v, rfl⟩ := List.head?_eq_some_iff.1 hhead
      exact hcaret _ rfl

theorem readBracket_of_head?_ne {r : Word} (s : Word) (h : r.head? ≠ some '^') :
    readBracket s r = match readMembers r with
      | none => .error ⟨.unclosedClass, s⟩
      | some ([], _) => .error ⟨.emptyClass, s⟩
      | some (ms, r) => .ok (.bracket ⟨false, ms⟩, r) := by
  unfold readBracket
  split
  rename_i negated t heq
  split at heq
  · exact absurd rfl h
  · cases heq
    rfl

theorem readBracket_bracket {u : Word} {ms : List Member} (hcaret : u.head? ≠ some '^')
    (hu : MembersText u ms) (hms : ms ≠ []) (s r : Word) :
    readBracket s (u ++ ']' :: r) = .ok (.bracket ⟨false, ms⟩, r) := by
  obtain ⟨m, ms, rfl⟩ := List.exists_cons_of_ne_nil hms
  have hhead : (u ++ ']' :: r).head? ≠ some '^' := by
    cases u with
    | nil => simp
    | cons c u => exact hcaret
  rw [readBracket_of_head?_ne s hhead, readMembers_complete hu]

theorem readBracket_negated {u : Word} {ms : List Member} (hu : MembersText u ms)
    (hms : ms ≠ []) (s r : Word) :
    readBracket s ('^' :: (u ++ ']' :: r)) = .ok (.bracket ⟨true, ms⟩, r) := by
  obtain ⟨m, ms, rfl⟩ := List.exists_cons_of_ne_nil hms
  unfold readBracket
  split
  rename_i negated t heq
  cases heq
  rw [readMembers_complete hu]

theorem escaped_of_not_mem {c : Char} (h : c ∉ escapeLetters) : escaped c = .char c := by
  unfold escaped
  split
  all_goals simp_all [escapeLetters]

theorem escaped_eq_iff {c : Char} {p : Pattern} : escaped c = p ↔ EscapeText c p := by
  refine ⟨fun h => ?_, fun h => ?_⟩
  · subst h
    by_cases hc : c ∈ escapeLetters
    · simp only [escapeLetters, List.mem_cons, List.not_mem_nil, or_false] at hc
      rcases hc with rfl | rfl | rfl | rfl | rfl | rfl | rfl | rfl | rfl | rfl <;> constructor
    · rw [escaped_of_not_mem hc]
      exact .self hc
  · cases h with
    | self hc => exact escaped_of_not_mem hc
    | _ => rfl

theorem readSimple_of_not_mem {c : Char} (hc : c ∉ ['[', '\\', '.', ')', '|', '*', '+', '?'])
    (r : Word) : readSimple (c :: r) = .ok (.char c, r) := by
  simp only [List.mem_cons, List.not_mem_nil, or_false, not_or] at hc
  obtain ⟨hbracket, hescape, hdot, hparen, hpipe, hstar, hplus, hopt⟩ := hc
  rw [readSimple]
  · exact hbracket
  · exact fun h _ => hescape h
  · exact fun _ _ h _ => hescape h
  · exact hdot
  · exact hparen
  · exact hpipe
  · exact hstar
  · exact hplus
  · exact hopt

theorem readSimple_char {c : Char} (hc : c ∉ special) (r : Word) :
    readSimple (c :: r) = .ok (.char c, r) := by
  refine readSimple_of_not_mem (fun hmem => hc ?_) r
  simp only [List.mem_cons, List.not_mem_nil, or_false] at hmem
  rcases hmem with rfl | rfl | rfl | rfl | rfl | rfl | rfl | rfl <;> decide

theorem readSimple_sound {s r : Word} {p : Pattern} (hgroup : s.head? ≠ some '(')
    (hanchor : ∀ c ∈ s.head?, isAnchor c = false) (h : readSimple s = .ok (p, r)) :
    ∃ u, SimpleText u p ∧ s = u ++ r := by
  cases s with
  | nil => cases h
  | cons c s =>
    by_cases hc : c ∈ special
    · simp only [special, List.mem_cons, List.not_mem_nil, or_false] at hc
      rcases hc with rfl | rfl | rfl | rfl | rfl | rfl | rfl | rfl | rfl | rfl | rfl
      · exact absurd rfl hgroup
      · cases h
      · obtain ⟨u, hu, rfl⟩ := readBracket_sound h
        exact ⟨'[' :: u ++ [']'], hu, by simp⟩
      · cases s with
        | nil => cases h
        | cons c s =>
          cases h
          exact ⟨['\\', c], .escape (escaped_eq_iff.1 rfl), rfl⟩
      · cases h
        exact ⟨['.'], .any, rfl⟩
      · cases h
      · cases h
      · cases h
      · cases h
      · cases hanchor _ rfl
      · cases hanchor _ rfl
    · rw [readSimple_char hc] at h
      cases h
      exact ⟨[c], .char hc, rfl⟩

theorem readSimple_complete {u : Word} {p : Pattern} (hu : SimpleText u p) (r : Word) :
    readSimple (u ++ r) = .ok (p, r) := by
  cases hu with
  | @bracket u ms hcaret hu hms =>
    have h := readBracket_bracket hcaret hu hms ('[' :: (u ++ ']' :: r)) r
    simpa [readSimple] using h
  | @negatedBracket u ms hu hms =>
    have h := readBracket_negated hu hms ('[' :: '^' :: (u ++ ']' :: r)) r
    simpa [readSimple] using h
  | escape hc =>
    obtain rfl := escaped_eq_iff.2 hc
    rfl
  | any => rfl
  | char hc => exact readSimple_char hc r

end Pattern

end RegLan
