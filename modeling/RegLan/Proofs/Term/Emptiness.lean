import RegLan.Proofs.Term.Canonical

/-! Terms without complements and intersections are simplified to `none` exactly if they accept no
word, and to the empty literal exactly if they accept the empty word alone. A construct has one of
these languages only if enough of its operands do, and then its own rule finds them simplified. -/

namespace RegLan

namespace Term

open Computability Language

/-- A regular expression proper: no complement and no intersection in it. -/
inductive Regular : Term → Prop
  | none : Regular .none
  | literal (w : Word) : Regular (.literal w)
  | range (lo hi : Char) : Regular (.range lo hi)
  | concat {ts : List Term} : (∀ t ∈ ts, Regular t) → Regular (.concat ts)
  | union {ts : List Term} : (∀ t ∈ ts, Regular t) → Regular (.union ts)
  | star {t : Term} : Regular t → Regular (.star t)
  | plus {t : Term} : Regular t → Regular (.plus t)
  | opt {t : Term} : Regular t → Regular (.opt t)
  | loop {t : Term} (min max : ℕ) : Regular t → Regular (.loop t min max)

/-- What the term accepts decides whether simplification ends in `none` or the empty literal. -/
structure Decided (t : Term) : Prop where
  none : t.lang = 0 → t.simplify = .none
  epsilon : t.lang = 1 → t.simplify = epsilon

variable {t : Term} {ts : List Term}

theorem Decided.of_le_one (ht : Decided t) (h : t.lang ≤ 1) :
    t.simplify = .none ∨ t.simplify = Term.epsilon :=
  (eq_zero_or_eq_one_of_le_one h).imp ht.none ht.epsilon

theorem decided_literal (w : Word) : Decided (.literal w) where
  none h := by
    have hmem : w ∈ (literal w).lang := rfl
    rw [h] at hmem
    exact absurd hmem (notMem_zero w)
  epsilon h := by
    have hmem : w ∈ (literal w).lang := rfl
    rw [h, mem_one] at hmem
    rw [hmem]
    rfl

theorem decided_range (lo hi : Char) : Decided (.range lo hi) where
  none h := by
    rw [simplify, normRange]
    refine if_neg fun hle => ?_
    have hmem : [lo] ∈ (range lo hi).lang := mem_lang_range.2 ⟨lo, ⟨Char.le_refl lo, hle⟩, rfl⟩
    rw [h] at hmem
    exact notMem_zero [lo] hmem
  epsilon h := by
    have hmem : [] ∈ (range lo hi).lang := h ▸ nil_mem_one
    obtain ⟨c, -, hc⟩ := mem_lang_range.1 hmem
    exact absurd hc (List.cons_ne_nil c []).symm

theorem normConcat_eq_epsilon (h : ∀ t ∈ ts, t = epsilon) : normConcat ts = epsilon := by
  have hspine : ts.flatMap spine = [].flatMap spine := by
    rw [List.flatMap_nil, List.flatMap_eq_nil_iff]
    intro t ht
    rw [h t ht]
    rfl
  rw [normConcat_congr hspine]
  rfl

theorem decided_concat (hts : ∀ t ∈ ts, Decided t) : Decided (.concat ts) where
  none h := by
    rw [lang_concat, List.prod_eq_zero_iff, List.mem_map] at h
    obtain ⟨t, ht, hzero⟩ := h
    rw [simplify_concat]
    exact normConcat_eq_none (List.mem_map.2 ⟨t, ht, (hts t ht).none hzero⟩)
  epsilon h := by
    rw [lang_concat] at h
    have hone := List.forall_mem_map.1 (eq_one_of_prod_eq_one h)
    rw [simplify_concat]
    exact normConcat_eq_epsilon (List.forall_mem_map.2 fun t ht => (hts t ht).epsilon (hone t ht))

theorem normUnion_eq_none (h : ∀ t ∈ ts, t = .none) : normUnion ts = .none := by
  have hoperands : ts.flatMap unionOperands = [] := by
    rw [List.flatMap_eq_nil_iff]
    intro t ht
    rw [h t ht]
    rfl
  rw [normUnion, hoperands]
  rfl

theorem normUnion_eq_epsilon (h : ∀ t ∈ ts, t = .none ∨ t = epsilon) (hmem : epsilon ∈ ts) :
    normUnion ts = epsilon := by
  have hoperands : ∀ u, u ∈ ts.flatMap unionOperands ↔ u ∈ [epsilon].flatMap unionOperands := by
    intro u
    simp only [List.mem_flatMap, List.mem_singleton, exists_eq_left]
    constructor
    · rintro ⟨t, ht, hu⟩
      rcases h t ht with rfl | rfl
      · cases hu
      · exact hu
    · intro hu
      exact ⟨epsilon, hmem, hu⟩
  rw [normUnion_congr hoperands]
  rfl

theorem lang_le_of_mem (ht : t ∈ ts) : t.lang ≤ (union ts).lang :=
  fun _ hw => mem_lang_union.2 ⟨t, ht, hw⟩

theorem decided_union (hts : ∀ t ∈ ts, Decided t) : Decided (.union ts) where
  none h := by
    have hnone : ∀ t ∈ ts, t.simplify = .none := by
      intro t ht
      have hle := lang_le_of_mem ht
      rw [h, le_zero_iff] at hle
      exact (hts t ht).none hle
    rw [simplify_union]
    exact normUnion_eq_none (List.forall_mem_map.2 hnone)
  epsilon h := by
    have hcases : ∀ t ∈ ts, t.simplify = .none ∨ t.simplify = Term.epsilon :=
      fun t ht => (hts t ht).of_le_one (h ▸ lang_le_of_mem ht)
    have hmem : [] ∈ (union ts).lang := h ▸ nil_mem_one
    obtain ⟨t, ht, hnil⟩ := mem_lang_union.1 hmem
    have hepsilon : t.simplify = Term.epsilon := by
      refine (hcases t ht).resolve_left fun hnone => ?_
      rw [← mem_lang_simplify_iff, hnone] at hnil
      exact notMem_zero [] hnil
    rw [simplify_union]
    exact normUnion_eq_epsilon (List.forall_mem_map.2 hcases) (List.mem_map.2 ⟨t, ht, hepsilon⟩)

theorem norm_eq_epsilon (h : t = .none ∨ t = epsilon) :
    normStar t = epsilon ∧ normOpt t = epsilon := by
  rcases h with rfl | rfl
  · exact ⟨rfl, rfl⟩
  · exact ⟨rfl, rfl⟩

theorem decided_star (ht : Decided t) : Decided (.star t) where
  none h := absurd h (kstar_ne_zero t.lang)
  epsilon h := by
    have hle : t.lang ≤ (star t).lang := le_kstar
    rw [simplify]
    exact (norm_eq_epsilon (ht.of_le_one (h ▸ hle))).1

theorem decided_plus (ht : Decided t) : Decided (.plus t) where
  none h := by
    rw [lang, mul_eq_zero] at h
    rw [simplify, ht.none (h.resolve_right (kstar_ne_zero t.lang))]
    rfl
  epsilon h := by
    rw [lang] at h
    rw [simplify, ht.epsilon (eq_one_of_mul_eq_one h).1]
    rfl

theorem decided_opt (ht : Decided t) : Decided (.opt t) where
  none h := by
    have hmem : [] ∈ (opt t).lang := Or.inl nil_mem_one
    rw [h] at hmem
    exact absurd hmem (notMem_zero [])
  epsilon h := by
    have hle : t.lang ≤ (opt t).lang := fun _ hw => Or.inr hw
    rw [simplify]
    exact (norm_eq_epsilon (ht.of_le_one (h ▸ hle))).2

theorem normLoop_none {min max : ℕ} (hle : min ≤ max) :
    normLoop .none min max = if min = 0 then epsilon else .none := by
  rw [normLoop, if_neg (Nat.not_lt.2 hle)]
  by_cases hmax : max = 0
  · rw [if_pos (.inl hmax), if_pos (Nat.le_zero.1 (hmax ▸ hle))]
  · rw [if_neg (by simp [hmax, isEpsilon]), isNone, if_pos rfl]

theorem normLoop_epsilon {min max : ℕ} (hle : min ≤ max) : normLoop epsilon min max = epsilon := by
  rw [normLoop, if_neg (Nat.not_lt.2 hle), if_pos (.inr rfl)]

theorem decided_loop (min max : ℕ) (ht : Decided t) : Decided (.loop t min max) where
  none h := by
    rw [lang] at h
    rw [simplify]
    by_cases hlt : max < min
    · exact if_pos hlt
    · rw [Nat.not_lt] at hlt
      have hpow : t.lang ^ min ≤ 0 := h ▸ pow_le_between le_rfl hlt
      rw [le_zero_iff] at hpow
      have hmin : min ≠ 0 := by
        rintro rfl
        simp at hpow
      rw [ht.none ((pow_eq_zero_iff hmin).1 hpow), normLoop_none hlt, if_neg hmin]
  epsilon h := by
    rw [lang] at h
    rw [simplify]
    have hle : min ≤ max := by
      by_contra hlt
      rw [between_of_lt (Nat.lt_of_not_le hlt)] at h
      exact zero_ne_one h
    by_cases hmax : max = 0
    · rw [normLoop, if_neg (Nat.not_lt.2 hle), if_pos (.inl hmax)]
    · -- the longest repetition tells whether the body accepts nothing or the empty word
      obtain ⟨n, rfl⟩ := Nat.exists_eq_succ_of_ne_zero hmax
      have hpow : t.lang ^ (n + 1) ≤ 1 := h ▸ pow_le_between hle le_rfl
      rcases eq_zero_or_eq_one_of_le_one hpow with hzero | hone
      · have hlang : t.lang = 0 := (pow_eq_zero_iff hmax).1 hzero
        have hmin : min = 0 := by
          by_contra hmin
          rw [hlang, zero_between hmin] at h
          exact zero_ne_one h
        rw [ht.none hlang, normLoop_none hle, if_pos hmin]
      · rw [pow_succ] at hone
        rw [ht.epsilon (eq_one_of_mul_eq_one hone).2, normLoop_epsilon hle]

theorem Regular.decided (h : Regular t) : Decided t := by
  induction h with
  | none => exact ⟨fun _ => rfl, fun hone => absurd hone zero_ne_one⟩
  | literal w => exact decided_literal w
  | range lo hi => exact decided_range lo hi
  | concat _ ih => exact decided_concat ih
  | union _ ih => exact decided_union ih
  | star _ ih => exact decided_star ih
  | plus _ ih => exact decided_plus ih
  | opt _ ih => exact decided_opt ih
  | loop min max _ ih => exact decided_loop min max ih

/-- A term without complements and intersections is simplified to `none` exactly if it accepts no
word, and to the empty literal exactly if it accepts the empty word and no other. -/
theorem simplify_eq_none_iff_and_eq_epsilon_iff (t : Term) (h : Regular t) :
    (t.simplify = .none ↔ ∀ w, w ∉ t.lang) ∧
      (t.simplify = epsilon ↔ ∀ w, w ∈ t.lang ↔ w = []) := by
  refine ⟨⟨fun hs w hw => ?_, fun hw => ?_⟩, ⟨fun hs w => ?_, fun hw => ?_⟩⟩
  · rw [← mem_lang_simplify_iff, hs] at hw
    exact notMem_zero w hw
  · exact h.decided.none (Set.eq_empty_iff_forall_notMem.2 hw)
  · rw [← mem_lang_simplify_iff, hs]
    exact mem_lang_literal
  · exact h.decided.epsilon (Language.ext hw)

/-- Backwards ranges, empty unions and impossible loops, under operators that can do without a
match and under one that cannot. -/
theorem simplify_residues :
    (∀ w, w ∈ (concat [.loop (.range 'z' 'a') 0 3, .opt (.loop (.union []) 2 1)]).lang ↔ w = []) ∧
      ∀ w, w ∉ (concat [.star (.literal ['a']), .plus (.loop (.union []) 2 5)]).lang := by
  have hunion : Regular (.union []) := .union (List.forall_mem_nil _)
  have hempty : Regular (.concat [.loop (.range 'z' 'a') 0 3, .opt (.loop (.union []) 2 1)]) := by
    apply Regular.concat
    simp [Regular.loop, Regular.opt, Regular.range, hunion]
  have hnone : Regular (.concat [.star (.literal ['a']), .plus (.loop (.union []) 2 5)]) := by
    apply Regular.concat
    simp [Regular.loop, Regular.star, Regular.plus, Regular.literal, hunion]
  exact ⟨(simplify_eq_none_iff_and_eq_epsilon_iff _ hempty).2.1 (by cbv),
    (simplify_eq_none_iff_and_eq_epsilon_iff _ hnone).1.1 (by cbv)⟩

end Term

end RegLan
