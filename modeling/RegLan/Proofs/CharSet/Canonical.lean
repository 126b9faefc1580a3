import RegLan.Proofs.CharSet

/-! Sets of characters in canonical form: spans of characters in ascending order, none of which
overlaps or touches the next. The operations on sets keep to that form. -/

namespace RegLan

namespace Span

variable {s t u v : Span} {ss ts : List Span}

/-- The first span ends before the second begins, and a code point lies between them. -/
def Apart (s t : Span) : Prop := s.hi + 1 < t.lo

structure Within (u s : Span) : Prop where
  lo : s.lo ≤ u.lo
  hi : u.hi ≤ s.hi

theorem Apart.within (h : s.Apart t) (hu : u.Within s) (hv : v.Within t) : u.Apart v := by
  obtain ⟨-, hu⟩ := hu
  obtain ⟨hv, -⟩ := hv
  unfold Apart at h ⊢
  omega

theorem within_meet (h : s.meet t = some u) : u.Within s ∧ u.Within t := by
  obtain ⟨-, rfl⟩ := meet_eq_some.1 h
  exact ⟨⟨Nat.le_max_left _ _, Nat.min_le_left _ _⟩, ⟨Nat.le_max_right _ _, Nat.min_le_right _ _⟩⟩

theorem within_minus (h : u ∈ s.minus t) : u.Within s := by
  rcases mem_minus.1 h with ⟨-, rfl⟩ | ⟨-, rfl⟩
  · exact ⟨Nat.le_refl _, Nat.min_le_left _ _⟩
  · exact ⟨Nat.le_max_left _ _, Nat.le_refl _⟩

/-- What is left of a span on either side of another has that one in between. -/
theorem pairwise_minus (s : Span) (ht : t.Sound) : (s.minus t).Pairwise Apart := by
  refine List.pairwise_append.2 ⟨?_, ?_, ?_⟩
  · split <;> simp
  · split <;> simp
  · intro u hu v hv
    have hle := ht.le
    have hb := before_eq t.lo
    have ha := after_eq t.hi
    split at hu
    · split at hv
      · obtain rfl := List.mem_singleton.1 hu
        obtain rfl := List.mem_singleton.1 hv
        unfold Apart
        dsimp only
        omega
      · cases hv
    · cases hu

theorem pairwise_flatMap_minus (ht : t.Sound) (h : ss.Pairwise Apart) :
    (ss.flatMap (·.minus t)).Pairwise Apart := by
  refine List.pairwise_flatMap.2 ⟨fun s _ => pairwise_minus s ht, h.imp ?_⟩
  intro s s' hs u hu v hv
  exact hs.within (within_minus hu) (within_minus hv)

theorem pairwise_filterMap_meet (s : Span) (h : ts.Pairwise Apart) :
    (ts.filterMap s.meet).Pairwise Apart := by
  refine h.filterMap s.meet fun t t' ht u hu v hv => ?_
  exact ht.within (within_meet hu).2 (within_meet hv).2

theorem le_lo_of_mem_insert {n : ℕ} (hs : n ≤ s.lo) (hts : ∀ t ∈ ts, n ≤ t.lo)
    (hu : u ∈ insert s ts) : n ≤ u.lo := by
  induction ts generalizing s with
  | nil =>
    obtain rfl := List.mem_singleton.1 hu
    exact hs
  | cons t ts ih =>
    obtain ⟨ht, hts'⟩ := List.forall_mem_cons.1 hts
    rw [insert] at hu
    split at hu
    · rcases List.mem_cons.1 hu with rfl | hu
      · exact hs
      · exact hts u hu
    · split at hu
      · rcases List.mem_cons.1 hu with rfl | hu
        · exact ht
        · exact ih hs hts' hu
      · exact ih (Nat.le_min.2 ⟨hs, ht⟩) hts' hu

theorem pairwise_insert (hs : s.Sound) (hts : ∀ t ∈ ts, t.Sound) (h : ts.Pairwise Apart) :
    (insert s ts).Pairwise Apart := by
  induction ts generalizing s with
  | nil => exact List.pairwise_singleton _ _
  | cons t ts ih =>
    obtain ⟨ht, hts'⟩ := List.forall_mem_cons.1 hts
    obtain ⟨htts, h'⟩ := List.pairwise_cons.1 h
    rw [insert]
    split
    · -- all the rest lies beyond the first span, and that beyond `s`
      rename_i hst
      refine List.pairwise_cons.2 ⟨List.forall_mem_cons.2 ⟨hst, fun u hu => ?_⟩, h⟩
      have hle := ht.le
      have htu := htts u hu
      unfold Apart at htu ⊢
      omega
    · split
      · rename_i hts
        refine List.pairwise_cons.2 ⟨fun u hu => ?_, ih hs hts' h'⟩
        exact le_lo_of_mem_insert hts htts hu
      · exact ih (sound_hull hs ht) hts' h'

end Span

namespace CharSet

variable {a b : CharSet}

/-- The spans run between characters, ascend, and neither overlap nor touch. -/
structure Canonical (a : CharSet) : Prop where
  sound : a.Sound
  apart : a.spans.Pairwise Span.Apart

theorem canonical_empty : empty.Canonical := ⟨sound_empty, List.Pairwise.nil⟩

theorem canonical_range (lo hi : Char) : (range lo hi).Canonical := by
  refine ⟨sound_range lo hi, ?_⟩
  unfold range
  split
  · exact List.pairwise_singleton _ _
  · exact List.Pairwise.nil

/-- Spans are added one by one. -/
theorem pairwise_foldl_insert {ss ts : List Span} (hs : ∀ s ∈ ss, s.Sound) (ht : ∀ t ∈ ts, t.Sound)
    (h : ss.Pairwise Span.Apart) :
    (ts.foldl (fun ss s => s.insert ss) ss).Pairwise Span.Apart := by
  induction ts generalizing ss with
  | nil => exact h
  | cons t ts ih =>
    obtain ⟨ht, hts⟩ := List.forall_mem_cons.1 ht
    exact ih (fun u hu => Span.sound_insert ht hs hu) hts (Span.pairwise_insert ht hs h)

theorem Canonical.union (ha : a.Canonical) (hb : b.Canonical) : (a.union b).Canonical :=
  ⟨sound_union ha.sound hb.sound, pairwise_foldl_insert ha.sound hb.sound ha.apart⟩

theorem Canonical.inter (ha : a.Canonical) (hb : b.Canonical) : (a.inter b).Canonical := by
  refine ⟨sound_inter ha.sound hb.sound, List.pairwise_flatMap.2 ⟨?_, ha.apart.imp ?_⟩⟩
  · intro s _
    exact Span.pairwise_filterMap_meet s hb.apart
  · intro s s' hs u hu v hv
    obtain ⟨t, -, hu⟩ := List.mem_filterMap.1 hu
    obtain ⟨t', -, hv⟩ := List.mem_filterMap.1 hv
    exact hs.within (Span.within_meet hu).1 (Span.within_meet hv).1

/-- Spans are cut out one by one. -/
theorem pairwise_foldl_minus {ss ts : List Span} (ht : ∀ t ∈ ts, t.Sound)
    (h : ss.Pairwise Span.Apart) :
    (ts.foldl (fun ss t => ss.flatMap (·.minus t)) ss).Pairwise Span.Apart := by
  induction ts generalizing ss with
  | nil => exact h
  | cons t ts ih =>
    obtain ⟨ht, hts⟩ := List.forall_mem_cons.1 ht
    exact ih hts (Span.pairwise_flatMap_minus ht h)

theorem Canonical.diff (ha : a.Canonical) (hb : b.Canonical) : (a.diff b).Canonical :=
  ⟨sound_diff ha.sound hb.sound, pairwise_foldl_minus hb.sound ha.apart⟩

end CharSet

end RegLan
