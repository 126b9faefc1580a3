import Mathlib.Algebra.BigOperators.Ring.List
import RegLan.Plain.Basic
import RegLan.Proofs.CharSet
import RegLan.Proofs.Language

/-! The language of a plain expression, and what the functions that make plain expressions do to
it. All they tidy up (words that are joined, sequences in sequences, copies of what can only be
empty) leaves the language as it is. -/

namespace RegLan

namespace Plain

open Computability Language

mutual

/-- The words that a plain expression matches as a whole. -/
def lang : Plain → Language Char
  | .empty => 1
  | .fail => 0
  | .word w => {w}
  | .set a => ofChars a.chars
  | .rep min max e => (lang e).repeated min max
  | .seq es => langSeq es
  | .alt es => langAlt es

def langSeq : List Plain → Language Char
  | [] => 1
  | e :: es => lang e * langSeq es

def langAlt : List Plain → Language Char
  | [] => 0
  | e :: es => lang e + langAlt es

end

variable {e : Plain} {es : List Plain} {w : Word}

theorem lang_seq (es : List Plain) : (seq es).lang = (es.map lang).prod := by
  rw [lang]
  induction es with
  | nil => rfl
  | cons e es ih => rw [langSeq, ih, List.map_cons, List.prod_cons]

theorem mem_lang_alt : w ∈ (alt es).lang ↔ ∃ e ∈ es, w ∈ e.lang := by
  rw [lang]
  induction es with
  | nil => simp [langAlt]
  | cons e es ih => rw [langAlt, mem_add, ih, List.exists_mem_cons_iff]

/-- All sets in the expression are made of sound spans. -/
inductive Sound : Plain → Prop
  | empty : Sound .empty
  | fail : Sound .fail
  | word (w : Word) : Sound (.word w)
  | set {a : CharSet} : a.Sound → Sound (.set a)
  | rep (min : ℕ) (max : Option ℕ) {e : Plain} : Sound e → Sound (.rep min max e)
  | seq {es : List Plain} : (∀ e ∈ es, Sound e) → Sound (.seq es)
  | alt {es : List Plain} : (∀ e ∈ es, Sound e) → Sound (.alt es)

theorem sound_ofSet {a : CharSet} (ha : a.Sound) : (ofSet a).Sound := by
  unfold ofSet
  split
  · exact .fail
  · split
    · exact .word _
    · exact .set ha
  · exact .set ha

theorem chars_of_spans_nil {a : CharSet} (h : a.spans = []) : a.chars = ∅ := by
  ext c
  rw [CharSet.mem_chars, h]
  simp

theorem chars_of_spans_singleton {a : CharSet} {s : Span} (ha : a.Sound) (h : a.spans = [s])
    (hs : s.lo = s.hi) : a.chars = {Char.ofNat s.lo} := by
  ext c
  have hvalid : s.lo.isValidChar := (ha s (by rw [h]; exact List.mem_singleton_self s)).lo_valid
  have hlo : (Char.ofNat s.lo).toNat = s.lo := by
    rw [Char.ofNat, dif_pos hvalid]
    rfl
  rw [CharSet.mem_chars, h, Set.mem_singleton_iff, ← Char.toNat_inj, hlo]
  simp only [List.mem_singleton, exists_eq_left, Span.contains_iff]
  omega

theorem lang_ofSet {a : CharSet} (ha : a.Sound) : (ofSet a).lang = ofChars a.chars := by
  unfold ofSet
  split
  · rename_i h
    rw [lang, chars_of_spans_nil h, ofChars_empty]
  · rename_i s h
    split
    · rename_i hs
      rw [lang, chars_of_spans_singleton ha h hs, ofChars_singleton]
    · rw [lang]
  · rw [lang]

theorem sound_ofWord (w : Word) : (ofWord w).Sound := by
  cases w with
  | nil => exact .empty
  | cons c w => exact .word (c :: w)

theorem lang_ofWord (w : Word) : (ofWord w).lang = {w} := by
  cases w with
  | nil =>
    rw [ofWord, lang]
    rfl
  | cons c w => rw [ofWord, lang]; exact List.cons_ne_nil c w

theorem allEmptyOnly_eq_all (es : List Plain) : allEmptyOnly es = es.all emptyOnly := by
  induction es with
  | nil => rfl
  | cons e es ih => rw [allEmptyOnly, ih, List.all_cons]

theorem prod_le_one {ls : List (Language Char)} (h : ∀ l ∈ ls, l ≤ 1) : ls.prod ≤ 1 := by
  induction ls with
  | nil => exact le_rfl
  | cons l ls ih =>
    obtain ⟨hl, hls⟩ := List.forall_mem_cons.1 h
    calc (l :: ls).prod = l * ls.prod := List.prod_cons
      _ ≤ 1 * 1 := mul_le_mul' hl (ih hls)
      _ = 1 := one_mul 1

theorem repeated_le_one {l : Language Char} (h : l ≤ 1) (k : ℕ) (m : Option ℕ) :
    l.repeated k m ≤ 1 := by
  intro w hw
  obtain ⟨i, -, -, hw⟩ := hw
  have hpow : l ^ i ≤ 1 ^ i := pow_le_pow_left' h i
  rw [one_pow] at hpow
  exact hpow hw

theorem lang_le_one_of_emptyOnly (h : e.emptyOnly = true) : e.lang ≤ 1 := by
  induction e with
  | empty => rw [lang]
  | fail => cases h
  | word w =>
    rw [emptyOnly, List.isEmpty_iff] at h
    subst h
    rw [lang]
    exact le_rfl
  | set a => cases h
  | rep k m e ih =>
    rw [emptyOnly, Bool.and_eq_true] at h
    rw [lang]
    exact repeated_le_one (ih h.2) k m
  | seq es ih =>
    rw [emptyOnly, allEmptyOnly_eq_all, List.all_eq_true] at h
    rw [lang_seq]
    apply prod_le_one
    intro l hl
    obtain ⟨e, he, rfl⟩ := List.mem_map.1 hl
    exact ih e he (h e he)
  | alt es ih =>
    rw [emptyOnly, allEmptyOnly_eq_all, List.all_eq_true] at h
    intro w hw
    obtain ⟨e, he, hw⟩ := mem_lang_alt.1 hw
    exact ih e he (h e he) hw

theorem sound_repOf (he : e.Sound) (b : ℕ × Option ℕ) : (repOf e b).Sound := by
  unfold repOf
  split
  · exact .empty
  · exact he
  · exact .rep _ _ he

theorem lang_repOf (e : Plain) (b : ℕ × Option ℕ) : (repOf e b).lang = e.lang.repeated b.1 b.2 := by
  unfold repOf
  split
  · rw [lang, repeated_some, between_self, pow_zero]
  · rw [repeated_some, between_self, pow_one]
  · rw [lang]

theorem sound_times (he : e.Sound) (k : ℕ) (m : Option ℕ) : (times e k m).Sound :=
  sound_repOf he _

theorem lang_times {k : ℕ} {m : Option ℕ} (hkm : ∀ n ∈ m, k ≤ n) :
    (times e k m).lang = e.lang.repeated k m := by
  rw [times, lang_repOf, clip]
  split
  · rename_i h
    exact repeated_of_le_one (lang_le_one_of_emptyOnly h) hkm
  · rfl

theorem sound_of_mem_sequenceParts (he : e.Sound) : ∀ d ∈ sequenceParts e, d.Sound := by
  intro d hd
  cases he with
  | empty => cases hd
  | seq hes => exact hes d hd
  | fail => rw [List.mem_singleton.1 hd]; exact .fail
  | word w => rw [List.mem_singleton.1 hd]; exact .word w
  | set ha => rw [List.mem_singleton.1 hd]; exact .set ha
  | rep k m he => rw [List.mem_singleton.1 hd]; exact .rep k m he
  | alt hes => rw [List.mem_singleton.1 hd]; exact .alt hes

theorem prod_sequenceParts (e : Plain) : ((sequenceParts e).map lang).prod = e.lang := by
  unfold sequenceParts
  split
  · rw [lang]
    rfl
  · exact (lang_seq _).symm
  · rw [List.map_singleton, List.prod_singleton]

theorem prod_flatMap_sequenceParts (es : List Plain) :
    ((es.flatMap sequenceParts).map lang).prod = (es.map lang).prod := by
  induction es with
  | nil => rfl
  | cons e es ih =>
    rw [List.flatMap_cons, List.map_append, List.prod_append, prod_sequenceParts, ih, List.map_cons,
      List.prod_cons]

theorem sound_of_mem_joinPart (he : e.Sound) (hes : ∀ d ∈ es, d.Sound) :
    ∀ d ∈ joinPart e es, d.Sound := by
  unfold joinPart
  split
  · rename_i v w ds
    exact List.forall_mem_cons.2 ⟨.word (v ++ w), (List.forall_mem_cons.1 hes).2⟩
  · exact List.forall_mem_cons.2 ⟨he, hes⟩

theorem prod_joinPart (e : Plain) (es : List Plain) :
    ((joinPart e es).map lang).prod = e.lang * (es.map lang).prod := by
  unfold joinPart
  split
  · simp only [List.map_cons, List.prod_cons, lang]
    rw [← mul_assoc, singleton_mul_singleton]
  · rw [List.map_cons, List.prod_cons]

theorem sound_of_mem_foldr_joinPart (hes : ∀ d ∈ es, d.Sound) :
    ∀ d ∈ es.foldr joinPart [], d.Sound := by
  induction es with
  | nil => exact hes
  | cons e es ih =>
    obtain ⟨he, hes⟩ := List.forall_mem_cons.1 hes
    exact sound_of_mem_joinPart he (ih hes)

theorem prod_foldr_joinPart (es : List Plain) :
    ((es.foldr joinPart []).map lang).prod = (es.map lang).prod := by
  induction es with
  | nil => rfl
  | cons e es ih => rw [List.foldr_cons, prod_joinPart, ih, List.map_cons, List.prod_cons]

theorem sound_seqOf (hes : ∀ d ∈ es, d.Sound) : (seqOf es).Sound := by
  unfold seqOf
  split
  · exact .empty
  · exact hes _ (List.mem_singleton_self _)
  · exact .seq hes

theorem lang_seqOf (es : List Plain) : (seqOf es).lang = (es.map lang).prod := by
  unfold seqOf
  split
  · rw [lang]
    rfl
  · rw [List.map_singleton, List.prod_singleton]
  · exact lang_seq _

theorem sound_sequence (hes : ∀ e ∈ es, e.Sound) : (sequence es).Sound := by
  apply sound_seqOf
  apply sound_of_mem_foldr_joinPart
  intro d hd
  obtain ⟨e, he, hd⟩ := List.mem_flatMap.1 hd
  exact sound_of_mem_sequenceParts (hes e he) d hd

theorem lang_sequence (es : List Plain) : (sequence es).lang = (es.map lang).prod := by
  rw [sequence, lang_seqOf, prod_foldr_joinPart, prod_flatMap_sequenceParts]

end Plain

end RegLan
