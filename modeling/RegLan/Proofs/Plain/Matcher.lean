import RegLan.Plain.Matcher
import RegLan.Proofs.Plain.OfTerm

/-! A matcher accepts what its term accepts, whatever the engine, as long as this runs every
expression that it builds as the language of the expression says. The engine that takes derivatives
does, and it gives a matcher for every term that has a plain form. -/

namespace RegLan

/-- What is relied on in an engine. No more is asked of sets of characters than that their spans are
sound. -/
def Engine.Exact (E : Engine) : Prop :=
  ∀ e m, e.Sound → E.build e = .ok m → ∀ w, E.run m w = true ↔ w ∈ e.lang

namespace Matcher

variable {E : Engine} {t : Term} {m : Matcher E}

theorem ofTerm_eq_ok : ofTerm E t = .ok m ↔ ∃ e, t.toPlain = .ok e ∧ E.build e = .ok m.machine := by
  unfold ofTerm
  refine ⟨fun h => ?_, fun h => ?_⟩
  · split at h
    · cases h
    · rename_i e he
      split at h
      · cases h
      · rename_i hm
        cases h
        exact ⟨e, he, hm⟩
  · obtain ⟨e, he, hm⟩ := h
    simp only [he, hm]

/-- Matching by an engine gives the same answers as matching by derivatives of the term. -/
theorem accepts_eq (hE : E.Exact) (h : ofTerm E t = .ok m) (w : Word) :
    m.accepts w = t.accepts w := by
  obtain ⟨e, he, hm⟩ := ofTerm_eq_ok.1 h
  obtain ⟨hsound, hlang⟩ := t.plainExact e he
  rw [Bool.eq_iff_iff, accepts, hE e _ hsound hm, hlang, Term.accepts, Term.acceptsFrom_iff,
    Term.lang_simplify]

end Matcher

/-- The ends of a sound span are characters. -/
theorem Span.Sound.contains_iff_range {s : Span} (hs : s.Sound) {c : Char} :
    s.contains c = true ↔ Char.ofNat s.lo ≤ c ∧ c ≤ Char.ofNat s.hi := by
  have hlo : (Char.ofNat s.lo).toNat = s.lo := (Char.toNat_ofNat _).trans (if_pos hs.lo_valid)
  have hhi : (Char.ofNat s.hi).toNat = s.hi := (Char.toNat_ofNat _).trans (if_pos hs.hi_valid)
  rw [Span.contains_iff]
  change _ ↔ (Char.ofNat s.lo).toNat ≤ c.toNat ∧ c.toNat ≤ (Char.ofNat s.hi).toNat
  rw [hlo, hhi]

namespace Plain

theorem toTermAll_eq_map (es : List Plain) : toTermAll es = es.map toTerm := by
  induction es with
  | nil => rfl
  | cons e es ih => rw [toTermAll, ih, List.map_cons]

theorem lang_setTerm {a : CharSet} (ha : a.Sound) : (setTerm a).lang = .ofChars a.chars := by
  ext w
  rw [setTerm, Term.mem_lang_union, Language.mem_ofChars]
  simp only [List.mem_map, exists_exists_and_eq_and, Term.mem_lang_range, CharSet.mem_chars]
  refine ⟨fun h => ?_, fun h => ?_⟩
  · obtain ⟨s, hs, c, hc, rfl⟩ := h
    exact ⟨c, ⟨s, hs, (ha s hs).contains_iff_range.2 hc⟩, rfl⟩
  · obtain ⟨c, ⟨s, hs, hc⟩, rfl⟩ := h
    exact ⟨s, hs, c, (ha s hs).contains_iff_range.1 hc, rfl⟩

theorem lang_toTerm {e : Plain} (he : e.Sound) : e.toTerm.lang = e.lang := by
  induction e with
  | empty => rfl
  | fail => rfl
  | word w => rfl
  | set a =>
    cases he with
    | set ha => rw [toTerm, lang_setTerm ha, lang]
  | rep k m e ih =>
    cases he with
    | rep _ _ he =>
      cases m with
      | none =>
        rw [toTerm, Term.lang_concat_pair, Term.lang, Term.lang, ih he, Language.between_self, lang,
          Language.repeated_none]
      | some m => rw [toTerm, Term.lang, ih he, lang, Language.repeated_some]
  | seq es ih =>
    cases he with
    | seq hes =>
      rw [toTerm, toTermAll_eq_map, Term.lang_concat, lang_seq, List.map_map]
      exact congrArg List.prod (List.map_congr_left fun e he => ih e he (hes e he))
  | alt es ih =>
    cases he with
    | alt hes =>
      ext w
      rw [toTerm, toTermAll_eq_map, Term.mem_lang_union, mem_lang_alt]
      simp only [List.mem_map, exists_exists_and_eq_and]
      exact exists_congr fun e => and_congr_right fun he => by rw [ih e he (hes e he)]

end Plain

theorem Engine.derivatives_exact : Engine.derivatives.Exact := by
  intro e m he hm w
  obtain rfl := Except.ok.inj hm
  change e.toTerm.accepts w = true ↔ _
  rw [Term.accepts, Term.acceptsFrom_iff, Term.lang_simplify, Plain.lang_toTerm he]

theorem Matcher.exists_ofTerm {t : Term} {e : Plain} (h : t.toPlain = .ok e) :
    ∃ m, ofTerm .derivatives t = .ok m ∧ ∀ w, m.accepts w = t.accepts w := by
  have hm : ofTerm .derivatives t = .ok ⟨e.toTerm⟩ := ofTerm_eq_ok.2 ⟨e, h, rfl⟩
  exact ⟨_, hm, accepts_eq Engine.derivatives_exact hm⟩

end RegLan
