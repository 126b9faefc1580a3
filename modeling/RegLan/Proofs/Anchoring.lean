import RegLan.Anchoring
import RegLan.Proofs.Solver.Reference

/-! What a pattern accepts with its missing anchors, said of the language of its tree and of the
first and the last character of its text. -/

namespace RegLan

open Computability Language

/-- The texts made of characters that `.` stands for. -/
def freeText : Language Char := (ofChars anyChars)∗

theorem mem_freeText {w : Word} : w ∈ freeText ↔ ∀ c ∈ w, c ∈ anyChars := mem_kstar_ofChars

theorem append_mem_freeText {u v : Word} : u ++ v ∈ freeText ↔ u ∈ freeText ∧ v ∈ freeText := by
  simp only [mem_freeText, List.forall_mem_append]

namespace Anchoring

/-- The language `l` of the pattern `p`, with what its missing anchors admit. -/
def lang (p : Word) (l : Language Char) : Anchoring → Language Char
  | .exact => l
  | .surround =>
    (if ['^'] <+: p then 1 else freeText) * l * if ['$'] <:+ p then 1 else freeText
  | .union =>
    if ['^'] <+: p then
      if ['$'] <:+ p then l else l∗ + ofChars anyChars
    else
      if ['$'] <:+ p then freeText + l else (ofChars anyChars + l)∗

theorem start_of_iff (p : Word) : (Anchors.of p).start = true ↔ ['^'] <+: p := by
  rw [Anchors.of, decide_eq_true_iff, List.head?_eq_some_iff]
  refine ⟨fun h => ?_, fun h => ?_⟩
  · obtain ⟨q, rfl⟩ := h
    exact List.prefix_append ['^'] q
  · obtain ⟨q, rfl⟩ := h
    exact ⟨q, rfl⟩

theorem stop_of_iff (p : Word) : (Anchors.of p).stop = true ↔ ['$'] <:+ p := by
  rw [Anchors.of, decide_eq_true_iff, List.getLast?_eq_some_iff]
  refine ⟨fun h => ?_, fun h => ?_⟩
  · obtain ⟨q, rfl⟩ := h
    exact List.suffix_append q ['$']
  · obtain ⟨q, rfl⟩ := h
    exact ⟨q, rfl⟩

theorem lang_star_any : (Term.star (Solver.reference.any).run).lang = freeText := by
  rw [Term.lang, Solver.lang_any, freeText]

theorem lang_applyStart_union (t : Term) :
    (applyStart Solver.reference .union t).run.lang = freeText + t.lang := by
  rw [← lang_star_any, ← Term.lang_union_pair]
  rfl

theorem lang_applyStart_surround (t : Term) :
    (applyStart Solver.reference .surround t).run.lang = freeText * t.lang := by
  rw [← lang_star_any, ← Term.lang_concat_pair]
  rfl

theorem lang_applyStop_union (t : Term) :
    (applyStop Solver.reference .union t).run.lang = t.lang∗ + ofChars anyChars := by
  rw [← Solver.lang_any, ← Term.lang, ← Term.lang_union_pair]
  rfl

theorem lang_applyStop_surround (t : Term) :
    (applyStop Solver.reference .surround t).run.lang = t.lang * freeText := by
  rw [← lang_star_any, ← Term.lang_concat_pair]
  rfl

theorem apply_eq (a : Anchoring) (p : Word) (t : Term) : (a.apply Solver.reference p t).run =
    let u := if ['^'] <+: p then t else (a.applyStart Solver.reference t).run
    if ['$'] <:+ p then u else (a.applyStop Solver.reference u).run := by
  unfold apply
  simp only [start_of_iff, stop_of_iff]
  by_cases hstart : ['^'] <+: p
  · by_cases hstop : ['$'] <:+ p
    · simp only [if_pos hstart, if_pos hstop]
      rfl
    · simp only [if_pos hstart, if_neg hstop]
      rfl
  · by_cases hstop : ['$'] <:+ p
    · simp only [if_neg hstart, if_pos hstop]
      rfl
    · simp only [if_neg hstart, if_neg hstop]
      rfl

/-- Without either anchor, the texts and the matches of the pattern may follow each other in any
order and number. -/
theorem unanchored_union_eq (l : Language Char) :
    (freeText + l)∗ + ofChars anyChars = (ofChars anyChars + l)∗ := by
  rw [freeText, kstar_add_kstar]
  have hany : ofChars anyChars ≤ (ofChars anyChars + l)∗ :=
    (le_add_of_nonneg_right bot_le).trans le_kstar
  exact add_eq_left_iff_le.2 hany

theorem lang_apply (a : Anchoring) (p : Word) (t : Term) :
    (a.apply Solver.reference p t).run.lang = a.lang p t.lang := by
  rw [apply_eq]
  cases a with
  | exact =>
    have hstart : (applyStart Solver.reference .exact t).run = t := rfl
    have hstop : (applyStop Solver.reference .exact t).run = t := rfl
    simp only [hstart, ite_self, hstop, lang]
  | surround =>
    rw [lang]
    by_cases hstart : ['^'] <+: p
    · by_cases hstop : ['$'] <:+ p
      · simp only [if_pos hstart, if_pos hstop, one_mul, mul_one]
      · simp only [if_pos hstart, if_neg hstop, one_mul, lang_applyStop_surround]
    · by_cases hstop : ['$'] <:+ p
      · simp only [if_neg hstart, if_pos hstop, mul_one, lang_applyStart_surround]
      · simp only [if_neg hstart, if_neg hstop, lang_applyStop_surround, lang_applyStart_surround]
  | union =>
    rw [lang]
    by_cases hstart : ['^'] <+: p
    · by_cases hstop : ['$'] <:+ p
      · simp only [if_pos hstart, if_pos hstop]
      · simp only [if_pos hstart, if_neg hstop, lang_applyStop_union]
    · by_cases hstop : ['$'] <:+ p
      · simp only [if_neg hstart, if_pos hstop, lang_applyStart_union]
      · simp only [if_neg hstart, if_neg hstop, lang_applyStop_union, lang_applyStart_union,
          unanchored_union_eq]

/-- Without the first anchor, free text may stand before a word of the pattern, unless the other
anchor is there: then the whole has to be free text or a word of the pattern itself. -/
theorem append_mem_lang_union {p u v : Word} {l : Language Char} (hstart : ¬['^'] <+: p)
    (hu : u ∈ freeText) (hv : v ∈ l) :
    u ++ v ∈ Anchoring.union.lang p l ↔ (['$'] <:+ p → v ∈ freeText ∨ u ++ v ∈ l) := by
  rw [lang, if_neg hstart]
  by_cases hstop : ['$'] <:+ p
  · rw [if_pos hstop, mem_add, append_mem_freeText, and_iff_right hu]
    exact ⟨fun h _ => h, fun h => h hstop⟩
  · have hfree : freeText ≤ (ofChars anyChars + l)∗ := kstar_mono (le_add_of_nonneg_right bot_le)
    have hl : l ≤ (ofChars anyChars + l)∗ := (le_add_of_nonneg_left bot_le).trans le_kstar
    have huv : u ++ v ∈ (ofChars anyChars + l)∗ * (ofChars anyChars + l)∗ :=
      append_mem_mul (hfree hu) (hl hv)
    rw [kstar_mul_kstar] at huv
    rw [if_neg hstop]
    exact ⟨fun _ h => absurd h hstop, fun _ => huv⟩

end Anchoring

end RegLan
