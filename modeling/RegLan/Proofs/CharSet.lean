import Mathlib.Data.List.Basic
import Mathlib.Data.Set.Lattice
import RegLan.CharSet

/-! What the operations on character sets do to the characters in them. A span is sound if it
runs forwards from one character to another. Merging and cutting sound spans gives sound spans, and
no character is lost or gained on the way. -/

namespace RegLan

/-- The number of a character lies on either side of the surrogates. -/
theorem toNat_lt_or_gt (c : Char) : c.toNat < 0xD800 ∨ 0xDFFF < c.toNat ∧ c.toNat < 0x110000 :=
  c.valid

namespace Span

structure Sound (s : Span) : Prop where
  le : s.lo ≤ s.hi
  lo_valid : s.lo < 0xD800 ∨ 0xDFFF < s.lo ∧ s.lo < 0x110000
  hi_valid : s.hi < 0xD800 ∨ 0xDFFF < s.hi ∧ s.hi < 0x110000

variable {s t u : Span} {ss ts : List Span} {c : Char} {n : ℕ}

theorem contains_iff : s.contains c = true ↔ s.lo ≤ c.toNat ∧ c.toNat ≤ s.hi := by
  rw [contains, Bool.and_eq_true, decide_eq_true_iff, decide_eq_true_iff]

theorem before_eq (n : ℕ) : n = 0xE000 ∧ before n = 0xD7FF ∨ n ≠ 0xE000 ∧ before n = n - 1 := by
  unfold before
  split
  · rename_i h
    exact Or.inl ⟨h, rfl⟩
  · rename_i h
    exact Or.inr ⟨h, rfl⟩

theorem after_eq (n : ℕ) : n = 0xD7FF ∧ after n = 0xE000 ∨ n ≠ 0xD7FF ∧ after n = n + 1 := by
  unfold after
  split
  · rename_i h
    exact Or.inl ⟨h, rfl⟩
  · rename_i h
    exact Or.inr ⟨h, rfl⟩

theorem le_before_iff (hn : n ≠ 0) : c.toNat ≤ before n ↔ c.toNat < n := by
  have hc := toNat_lt_or_gt c
  have hb := before_eq n
  omega

theorem after_le_iff : after n ≤ c.toNat ↔ n < c.toNat := by
  have hc := toNat_lt_or_gt c
  have ha := after_eq n
  omega

theorem meet_eq_some : s.meet t = some u ↔
    max s.lo t.lo ≤ min s.hi t.hi ∧ u = ⟨max s.lo t.lo, min s.hi t.hi⟩ := by
  rw [eq_comm (a := u)]
  simp only [meet, Option.ite_none_right_eq_some, Option.some.injEq]

theorem sound_meet (hs : s.Sound) (ht : t.Sound) (h : s.meet t = some u) : u.Sound := by
  obtain ⟨-, hslo, hshi⟩ := hs
  obtain ⟨-, htlo, hthi⟩ := ht
  obtain ⟨hle, rfl⟩ := meet_eq_some.1 h
  constructor <;> dsimp only <;> omega

theorem exists_meet_iff :
    (∃ u, s.meet t = some u ∧ u.contains c = true) ↔ s.contains c = true ∧ t.contains c = true := by
  simp only [meet_eq_some, contains_iff]
  refine ⟨fun h => ?_, fun h => ?_⟩
  · obtain ⟨-, ⟨-, rfl⟩, hlo, hhi⟩ := h
    dsimp only at hlo hhi
    omega
  · exact ⟨_, ⟨by omega, rfl⟩, by dsimp only; omega, by dsimp only; omega⟩

theorem mem_minus : u ∈ s.minus t ↔
    s.lo < t.lo ∧ u = ⟨s.lo, min s.hi (before t.lo)⟩ ∨
      t.hi < s.hi ∧ u = ⟨max s.lo (after t.hi), s.hi⟩ := by
  simp [minus]

theorem sound_minus (hs : s.Sound) (ht : t.Sound) (hu : u ∈ s.minus t) : u.Sound := by
  obtain ⟨hs, hslo, hshi⟩ := hs
  obtain ⟨-, htlo, hthi⟩ := ht
  rcases mem_minus.1 hu with ⟨h, rfl⟩ | ⟨h, rfl⟩
  · have hb := before_eq t.lo
    constructor <;> dsimp only <;> omega
  · have ha := after_eq t.hi
    constructor <;> dsimp only <;> omega

theorem exists_mem_minus_iff :
    (∃ u ∈ s.minus t, u.contains c = true) ↔ s.contains c = true ∧ ¬t.contains c = true := by
  have hafter := after_le_iff (c := c) (n := t.hi)
  simp only [mem_minus, contains_iff]
  refine ⟨fun h => ?_, fun h => ?_⟩
  · rcases h with ⟨-, ⟨hlt, rfl⟩ | ⟨hlt, rfl⟩, hlo, hhi⟩
    · have hbefore := le_before_iff (c := c) (n := t.lo) (by omega)
      dsimp only at hlo hhi
      omega
    · dsimp only at hlo hhi
      omega
  · by_cases hlo : c.toNat < t.lo
    · have hbefore := le_before_iff (c := c) (n := t.lo) (by omega)
      exact ⟨_, Or.inl ⟨by omega, rfl⟩, by dsimp only; omega, by dsimp only; omega⟩
    · exact ⟨_, Or.inr ⟨by omega, rfl⟩, by dsimp only; omega, by dsimp only; omega⟩

theorem sound_hull (hs : s.Sound) (ht : t.Sound) : Sound ⟨min s.lo t.lo, max s.hi t.hi⟩ := by
  obtain ⟨hs, hslo, hshi⟩ := hs
  obtain ⟨ht, htlo, hthi⟩ := ht
  constructor <;> dsimp only <;> omega

theorem sound_insert (hs : s.Sound) (hts : ∀ t ∈ ts, t.Sound) (hu : u ∈ insert s ts) :
    u.Sound := by
  induction ts generalizing s with
  | nil =>
    obtain rfl := List.mem_singleton.1 hu
    exact hs
  | cons t ts ih =>
    obtain ⟨ht, hts'⟩ := List.forall_mem_cons.1 hts
    rw [insert] at hu
    split at hu
    · rcases List.mem_cons.1 hu with rfl | hu
      · exact hs
      · exact hts u hu
    · split at hu
      · rcases List.mem_cons.1 hu with rfl | hu
        · exact ht
        · exact ih hs hts' hu
      · exact ih (sound_hull hs ht) hts' hu

theorem exists_mem_insert_iff (hs : s.Sound) (hts : ∀ t ∈ ts, t.Sound) :
    (∃ u ∈ insert s ts, u.contains c = true) ↔
      s.contains c = true ∨ ∃ t ∈ ts, t.contains c = true := by
  induction ts generalizing s with
  | nil => simp [insert]
  | cons t ts ih =>
    obtain ⟨ht, hts'⟩ := List.forall_mem_cons.1 hts
    rw [insert, List.exists_mem_cons_iff]
    split
    · simp only [List.exists_mem_cons_iff]
    · split
      · rw [List.exists_mem_cons_iff, ih hs hts', or_left_comm]
      · -- the spans overlap or touch, so between them they leave no gap
        have hboth : Span.contains ⟨min s.lo t.lo, max s.hi t.hi⟩ c = true ↔
            s.contains c = true ∨ t.contains c = true := by
          have hs := hs.le
          have ht := ht.le
          simp only [contains_iff]
          omega
        rw [ih (sound_hull hs ht) hts', hboth, or_assoc]

end Span

namespace CharSet

variable {a b : CharSet} {c : Char}

def Sound (a : CharSet) : Prop := ∀ s ∈ a.spans, s.Sound

/-- The characters in the set. -/
def chars (a : CharSet) : Set Char := {c | a.contains c = true}

theorem mem_chars : c ∈ a.chars ↔ ∃ s ∈ a.spans, s.contains c = true := by
  rw [chars, Set.mem_ofPred_eq, contains, List.any_eq_true]

theorem sound_empty : empty.Sound := fun _ h => nomatch h

theorem chars_empty : empty.chars = ∅ := by
  ext c
  simp [mem_chars, empty]

theorem sound_range (lo hi : Char) : (range lo hi).Sound := by
  unfold range
  split
  · rename_i h
    intro s hs
    obtain rfl := List.mem_singleton.1 hs
    exact ⟨h, toNat_lt_or_gt lo, toNat_lt_or_gt hi⟩
  · exact sound_empty

theorem chars_range (lo hi : Char) : (range lo hi).chars = {c | lo ≤ c ∧ c ≤ hi} := by
  ext c
  unfold range
  split
  · rw [mem_chars]
    simp only [List.mem_singleton, exists_eq_left, Span.contains_iff]
    rfl
  · rename_i h
    rw [chars_empty]
    refine ⟨fun hc => hc.elim, fun hc => h ?_⟩
    exact Char.le_trans hc.1 hc.2

theorem sound_singleton (c : Char) : (singleton c).Sound := sound_range c c

theorem chars_singleton (c : Char) : (singleton c).chars = {c} := by
  ext d
  rw [singleton, chars_range]
  refine ⟨fun h => Char.le_antisymm h.2 h.1, fun h => ?_⟩
  obtain rfl := h
  exact ⟨Char.le_refl d, Char.le_refl d⟩

/-- Spans are added one by one. -/
theorem sound_foldl_insert {ss ts : List Span} (hs : ∀ s ∈ ss, s.Sound) (ht : ∀ t ∈ ts, t.Sound) :
    ∀ u ∈ ts.foldl (fun ss s => s.insert ss) ss, u.Sound := by
  induction ts generalizing ss with
  | nil => exact hs
  | cons t ts ih =>
    obtain ⟨ht, hts⟩ := List.forall_mem_cons.1 ht
    exact ih (fun u hu => Span.sound_insert ht hs hu) hts

theorem exists_mem_foldl_insert_iff {ss ts : List Span} (hs : ∀ s ∈ ss, s.Sound)
    (ht : ∀ t ∈ ts, t.Sound) :
    (∃ u ∈ ts.foldl (fun ss s => s.insert ss) ss, u.contains c = true) ↔
      (∃ s ∈ ss, s.contains c = true) ∨ ∃ t ∈ ts, t.contains c = true := by
  induction ts generalizing ss with
  | nil => simp
  | cons t ts ih =>
    obtain ⟨ht, hts⟩ := List.forall_mem_cons.1 ht
    rw [List.foldl_cons, ih (fun u hu => Span.sound_insert ht hs hu) hts,
      Span.exists_mem_insert_iff ht hs, List.exists_mem_cons_iff, or_assoc, or_left_comm]

theorem sound_union (ha : a.Sound) (hb : b.Sound) : (a.union b).Sound :=
  sound_foldl_insert ha hb

theorem chars_union (ha : a.Sound) (hb : b.Sound) : (a.union b).chars = a.chars ∪ b.chars := by
  ext c
  rw [Set.mem_union, mem_chars, mem_chars, mem_chars]
  exact exists_mem_foldl_insert_iff ha hb

theorem sound_inter (ha : a.Sound) (hb : b.Sound) : (a.inter b).Sound := by
  intro u hu
  obtain ⟨s, hs, hu⟩ := List.mem_flatMap.1 hu
  obtain ⟨t, ht, hst⟩ := List.mem_filterMap.1 hu
  exact Span.sound_meet (ha s hs) (hb t ht) hst

theorem chars_inter (a b : CharSet) : (a.inter b).chars = a.chars ∩ b.chars := by
  ext c
  simp only [Set.mem_inter_iff, mem_chars, inter, List.mem_flatMap, List.mem_filterMap]
  refine ⟨fun h => ?_, fun h => ?_⟩
  · obtain ⟨u, ⟨s, hs, t, ht, hst⟩, hu⟩ := h
    have hc := Span.exists_meet_iff.1 ⟨u, hst, hu⟩
    exact ⟨⟨s, hs, hc.1⟩, ⟨t, ht, hc.2⟩⟩
  · obtain ⟨⟨s, hs, hcs⟩, t, ht, hct⟩ := h
    obtain ⟨u, hst, hu⟩ := Span.exists_meet_iff.2 ⟨hcs, hct⟩
    exact ⟨u, ⟨s, hs, t, ht, hst⟩, hu⟩

/-- Spans are cut out one by one. -/
theorem sound_foldl_minus {ss ts : List Span} (hs : ∀ s ∈ ss, s.Sound) (ht : ∀ t ∈ ts, t.Sound) :
    ∀ u ∈ ts.foldl (fun ss t => ss.flatMap (·.minus t)) ss, u.Sound := by
  induction ts generalizing ss with
  | nil => exact hs
  | cons t ts ih =>
    obtain ⟨ht, hts⟩ := List.forall_mem_cons.1 ht
    refine ih (fun u hu => ?_) hts
    obtain ⟨s, hmem, hu⟩ := List.mem_flatMap.1 hu
    exact Span.sound_minus (hs s hmem) ht hu

theorem exists_mem_foldl_minus_iff {ss ts : List Span} :
    (∃ u ∈ ts.foldl (fun ss t => ss.flatMap (·.minus t)) ss, u.contains c = true) ↔
      (∃ s ∈ ss, s.contains c = true) ∧ ¬∃ t ∈ ts, t.contains c = true := by
  induction ts generalizing ss with
  | nil => simp
  | cons t ts ih =>
    have hcut : (∃ u ∈ ss.flatMap (·.minus t), u.contains c = true) ↔
        (∃ s ∈ ss, s.contains c = true) ∧ ¬t.contains c = true := by
      refine ⟨fun h => ?_, fun h => ?_⟩
      · obtain ⟨u, hu, hc⟩ := h
        obtain ⟨s, hs, hu⟩ := List.mem_flatMap.1 hu
        have hcs := Span.exists_mem_minus_iff.1 ⟨u, hu, hc⟩
        exact ⟨⟨s, hs, hcs.1⟩, hcs.2⟩
      · obtain ⟨⟨s, hs, hcs⟩, hct⟩ := h
        obtain ⟨u, hu, hc⟩ := Span.exists_mem_minus_iff.2 ⟨hcs, hct⟩
        exact ⟨u, List.mem_flatMap.2 ⟨s, hs, hu⟩, hc⟩
    rw [List.foldl_cons, ih, hcut, List.exists_mem_cons_iff, not_or, and_assoc]

theorem sound_diff (ha : a.Sound) (hb : b.Sound) : (a.diff b).Sound :=
  sound_foldl_minus ha hb

theorem chars_diff (a b : CharSet) : (a.diff b).chars = a.chars \ b.chars := by
  ext c
  rw [Set.mem_sdiff, mem_chars, mem_chars, mem_chars]
  exact exists_mem_foldl_minus_iff

theorem sound_foldl_union {as : List CharSet} (ha : a.Sound) (has : ∀ b ∈ as, b.Sound) :
    (as.foldl union a).Sound := by
  induction as generalizing a with
  | nil => exact ha
  | cons b as ih =>
    obtain ⟨hb, has⟩ := List.forall_mem_cons.1 has
    exact ih (sound_union ha hb) has

theorem mem_chars_foldl_union {as : List CharSet} (ha : a.Sound) (has : ∀ b ∈ as, b.Sound) :
    c ∈ (as.foldl union a).chars ↔ c ∈ a.chars ∨ ∃ b ∈ as, c ∈ b.chars := by
  induction as generalizing a with
  | nil => simp
  | cons b as ih =>
    obtain ⟨hb, has⟩ := List.forall_mem_cons.1 has
    rw [List.foldl_cons, ih (sound_union ha hb) has, chars_union ha hb, Set.mem_union,
      List.exists_mem_cons_iff, or_assoc]

theorem sound_foldl_inter {as : List CharSet} (ha : a.Sound) (has : ∀ b ∈ as, b.Sound) :
    (as.foldl inter a).Sound := by
  induction as generalizing a with
  | nil => exact ha
  | cons b as ih =>
    obtain ⟨hb, has⟩ := List.forall_mem_cons.1 has
    exact ih (sound_inter ha hb) has

theorem mem_chars_foldl_inter {as : List CharSet} :
    c ∈ (as.foldl inter a).chars ↔ c ∈ a.chars ∧ ∀ b ∈ as, c ∈ b.chars := by
  induction as generalizing a with
  | nil => simp
  | cons b as ih =>
    rw [List.foldl_cons, ih, chars_inter, Set.mem_inter_iff, List.forall_mem_cons, and_assoc]

end CharSet

end RegLan
