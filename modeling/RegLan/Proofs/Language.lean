import Mathlib.Computability.MyhillNerode
import Mathlib.Order.CompletePartialOrder

/-! Facts about languages that hold of no particular notation for them: repetition between two
bounds, words of one character, the quotient by one character, and the laws by which stars absorb
what is around them. -/

namespace Language

open Computability

variable {α : Type} {l m : Language α} {c : α} {w : List α}

/-- The words made of at least `min` and at most `max` words of `l`, none if `max < min`. -/
def between (l : Language α) (min max : ℕ) : Language α := {w | ∃ i, min ≤ i ∧ i ≤ max ∧ w ∈ l ^ i}

theorem mem_between {min max : ℕ} :
    w ∈ l.between min max ↔ ∃ i, min ≤ i ∧ i ≤ max ∧ w ∈ l ^ i := Iff.rfl

theorem between_of_lt {min max : ℕ} (h : max < min) : l.between min max = 0 := by
  ext w
  rw [mem_between]
  refine ⟨fun hw => ?_, fun hw => absurd hw (notMem_zero w)⟩
  obtain ⟨i, hmin, hmax, -⟩ := hw
  omega

theorem between_self (n : ℕ) : l.between n n = l ^ n := by
  ext w
  rw [mem_between]
  refine ⟨fun h => ?_, fun hw => ?_⟩
  · obtain ⟨i, hmin, hmax, hw⟩ := h
    rwa [show n = i by omega]
  · exact ⟨n, le_rfl, le_rfl, hw⟩

theorem one_between {min max : ℕ} (h : min ≤ max) : (1 : Language α).between min max = 1 := by
  ext w
  simp only [mem_between, one_pow]
  exact ⟨fun ⟨_, _, _, hw⟩ => hw, fun hw => ⟨min, le_rfl, h, hw⟩⟩

theorem zero_between_zero (max : ℕ) : (0 : Language α).between 0 max = 1 := by
  ext w
  rw [mem_between]
  refine ⟨fun h => ?_, fun hw => ?_⟩
  · obtain ⟨i, -, -, hw⟩ := h
    cases i with
    | zero => simpa using hw
    | succ i => exact absurd hw (by simp [pow_succ])
  · exact ⟨0, le_rfl, Nat.zero_le _, by simpa using hw⟩

theorem zero_between {min max : ℕ} (h : min ≠ 0) : (0 : Language α).between min max = 0 := by
  ext w
  rw [mem_between]
  refine ⟨fun hw => ?_, fun hw => absurd hw (notMem_zero w)⟩
  obtain ⟨i, hmin, -, hw⟩ := hw
  rwa [zero_pow (by omega)] at hw

theorem between_zero_one (l : Language α) : l.between 0 1 = 1 + l := by
  ext w
  rw [mem_between, mem_add]
  refine ⟨fun h => ?_, fun h => ?_⟩
  · obtain ⟨i, -, hi, hw⟩ := h
    rcases Nat.le_one_iff_eq_zero_or_eq_one.1 hi with rfl | rfl
    · exact Or.inl (by simpa using hw)
    · exact Or.inr (by simpa using hw)
  · rcases h with hw | hw
    · exact ⟨0, le_rfl, Nat.zero_le 1, by simpa using hw⟩
    · exact ⟨1, Nat.zero_le 1, le_rfl, by simpa using hw⟩

/-- The words made of at least `min` words of `l` and, if there is a maximum, of at most so many. -/
def repeated (l : Language α) (min : ℕ) (max : Option ℕ) : Language α :=
  {w | ∃ i, min ≤ i ∧ (∀ n ∈ max, i ≤ n) ∧ w ∈ l ^ i}

theorem mem_repeated {min : ℕ} {max : Option ℕ} :
    w ∈ l.repeated min max ↔ ∃ i, min ≤ i ∧ (∀ n ∈ max, i ≤ n) ∧ w ∈ l ^ i := Iff.rfl

theorem repeated_some (l : Language α) (min max : ℕ) :
    l.repeated min (some max) = l.between min max := by
  ext w
  simp [mem_repeated, mem_between]

theorem repeated_none (l : Language α) (k : ℕ) : l.repeated k none = l ^ k * l∗ := by
  ext w
  simp only [mem_repeated, kstar_eq_iSup_pow, mul_iSup, mem_iSup, ← pow_add]
  refine ⟨fun h => ?_, fun h => ?_⟩
  · obtain ⟨i, hi, -, hw⟩ := h
    exact ⟨i - k, by rwa [Nat.add_sub_cancel' hi]⟩
  · obtain ⟨i, hw⟩ := h
    exact ⟨k + i, Nat.le_add_right k i, by simp, hw⟩

theorem repeated_zero_none (l : Language α) : l.repeated 0 none = l∗ := by
  rw [repeated_none, pow_zero, one_mul]

theorem repeated_one_none (l : Language α) : l.repeated 1 none = l * l∗ := by
  rw [repeated_none, pow_one]

theorem eq_zero_or_eq_one_of_le_one (h : l ≤ 1) : l = 0 ∨ l = 1 := Set.subset_singleton_iff_eq.1 h

theorem pow_succ_of_le_one (h : l ≤ 1) (n : ℕ) : l ^ (n + 1) = l := by
  rcases eq_zero_or_eq_one_of_le_one h with rfl | rfl
  · rw [zero_pow (Nat.succ_ne_zero n)]
  · rw [one_pow]

/-- Of words that are all empty, one copy is as good as many. -/
theorem repeated_of_le_one {k : ℕ} {m : Option ℕ} (h : l ≤ 1) (hkm : ∀ n ∈ m, k ≤ n) :
    l.repeated (min k 1) (some (min (m.getD 1) 1)) = l.repeated k m := by
  ext w
  simp only [mem_repeated, Option.mem_def, Option.some.injEq, forall_eq']
  refine ⟨fun hw => ?_, fun hw => ?_⟩
  · obtain ⟨i, hk, hm, hw⟩ := hw
    cases i with
    | zero => exact ⟨0, by omega, fun n _ => Nat.zero_le n, hw⟩
    | succ i =>
      refine ⟨k - 1 + 1, by omega, fun n hn => ?_, ?_⟩
      · have hkn := hkm n hn
        rw [hn, Option.getD_some] at hm
        omega
      · rw [pow_succ_of_le_one h] at hw ⊢
        exact hw
  · obtain ⟨i, hk, hm, hw⟩ := hw
    cases i with
    | zero => exact ⟨0, by omega, Nat.zero_le _, hw⟩
    | succ i =>
      refine ⟨0 + 1, by omega, ?_, ?_⟩
      · cases m with
        | none => exact le_rfl
        | some n =>
          have hn := hm n rfl
          rw [Option.getD_some]
          omega
      · rw [pow_succ_of_le_one h] at hw ⊢
        exact hw

/-- The words of one character that lies in a set. -/
def ofChars (s : Set α) : Language α := {w | ∃ c ∈ s, w = [c]}

theorem mem_ofChars {s : Set α} : w ∈ ofChars s ↔ ∃ c ∈ s, w = [c] := Iff.rfl

theorem ofChars_empty : ofChars (∅ : Set α) = 0 := by
  ext w
  rw [mem_ofChars]
  refine ⟨fun h => ?_, fun hw => absurd hw (notMem_zero w)⟩
  obtain ⟨c, hc, -⟩ := h
  exact hc.elim

theorem ofChars_singleton (c : α) : ofChars {c} = {[c]} := by
  ext w
  rw [mem_ofChars]
  refine ⟨fun h => ?_, fun hw => ?_⟩
  · obtain ⟨d, rfl, rfl⟩ := h
    rfl
  · exact ⟨c, rfl, hw⟩

theorem ofChars_union (s t : Set α) : ofChars (s ∪ t) = ofChars s + ofChars t := by
  ext w
  rw [mem_add, mem_ofChars, mem_ofChars, mem_ofChars]
  refine ⟨fun h => ?_, fun h => ?_⟩
  · obtain ⟨c, hs | ht, rfl⟩ := h
    · exact Or.inl ⟨c, hs, rfl⟩
    · exact Or.inr ⟨c, ht, rfl⟩
  · rcases h with ⟨c, hs, rfl⟩ | ⟨c, ht, rfl⟩
    · exact ⟨c, Or.inl hs, rfl⟩
    · exact ⟨c, Or.inr ht, rfl⟩

theorem ofChars_diff (s t : Set α) : ofChars (s \ t) = ofChars s ⊓ (ofChars t)ᶜ := by
  ext w
  rw [mem_inf, mem_ofChars, mem_ofChars]
  refine ⟨fun h => ?_, fun h => ?_⟩
  · obtain ⟨c, ⟨hs, ht⟩, rfl⟩ := h
    refine ⟨⟨c, hs, rfl⟩, ?_⟩
    intro hc
    obtain ⟨d, hd, hcd⟩ := hc
    obtain rfl := List.singleton_inj.1 hcd
    exact ht hd
  · obtain ⟨⟨c, hs, rfl⟩, ht⟩ := h
    exact ⟨c, ⟨hs, fun hc => ht ⟨c, hc, rfl⟩⟩, rfl⟩

theorem mem_kstar_ofChars {s : Set α} : w ∈ (ofChars s)∗ ↔ ∀ c ∈ w, c ∈ s := by
  rw [mem_kstar]
  constructor
  · rintro ⟨ws, rfl, hws⟩ c hc
    obtain ⟨v, hv, hc⟩ := List.mem_flatten.1 hc
    obtain ⟨d, hd, rfl⟩ := hws v hv
    rwa [List.mem_singleton.1 hc]
  · intro hw
    refine ⟨w.map ([·]), (List.flatMap_singleton' w).symm, ?_⟩
    rw [List.forall_mem_map]
    exact fun c hc => ⟨c, hw c hc, rfl⟩

theorem nil_mem_mul : [] ∈ l * m ↔ [] ∈ l ∧ [] ∈ m := by
  rw [mem_mul]
  refine ⟨fun h => ?_, fun h => ?_⟩
  · obtain ⟨u, hu, v, hv, huv⟩ := h
    obtain ⟨rfl, rfl⟩ := List.append_eq_nil_iff.1 huv
    exact ⟨hu, hv⟩
  · obtain ⟨hl, hm⟩ := h
    exact ⟨[], hl, [], hm, rfl⟩

theorem nil_mem_pow {n : ℕ} : [] ∈ l ^ n ↔ n = 0 ∨ [] ∈ l := by
  induction n with
  | zero => simp
  | succ n ih =>
    rw [pow_succ, nil_mem_mul, ih]
    have := Nat.succ_ne_zero n
    tauto

theorem nil_mem_between {min max : ℕ} :
    [] ∈ l.between min max ↔ min ≤ max ∧ (min = 0 ∨ [] ∈ l) := by
  simp only [mem_between, nil_mem_pow]
  refine ⟨fun h => ?_, fun h => ?_⟩
  · obtain ⟨i, hmin, hmax, rfl | hl⟩ := h
    · exact ⟨by omega, Or.inl (by omega)⟩
    · exact ⟨by omega, Or.inr hl⟩
  · obtain ⟨h, h0⟩ := h
    exact ⟨min, le_rfl, h, h0⟩

instance instNontrivial : Nontrivial (Language α) :=
  ⟨0, 1, fun h => notMem_zero [] (h ▸ nil_mem_one)⟩

instance instNoZeroDivisors : NoZeroDivisors (Language α) where
  eq_zero_or_eq_zero_of_mul_eq_zero := by
    intro l m h
    by_contra hne
    rw [not_or] at hne
    obtain ⟨u, hu⟩ := Set.nonempty_iff_ne_empty.2 hne.1
    obtain ⟨v, hv⟩ := Set.nonempty_iff_ne_empty.2 hne.2
    exact notMem_zero (u ++ v) (h ▸ append_mem_mul hu hv)

theorem eq_one_of_mul_eq_one (h : l * m = 1) : l = 1 ∧ m = 1 := by
  obtain ⟨hl, hm⟩ := nil_mem_mul.1 (h ▸ nil_mem_one)
  constructor
  · ext u
    rw [mem_one]
    refine ⟨fun hu => ?_, fun hu => hu ▸ hl⟩
    have hmem : u ++ [] ∈ (1 : Language α) := h ▸ append_mem_mul hu hm
    simpa using hmem
  · ext v
    rw [mem_one]
    refine ⟨fun hv => ?_, fun hv => hv ▸ hm⟩
    have hmem : [] ++ v ∈ (1 : Language α) := h ▸ append_mem_mul hl hv
    simpa using hmem

theorem eq_one_of_prod_eq_one {ls : List (Language α)} (h : ls.prod = 1) : ∀ l ∈ ls, l = 1 := by
  induction ls with
  | nil => exact nofun
  | cons l ls ih =>
    rw [List.prod_cons] at h
    obtain ⟨hl, hls⟩ := eq_one_of_mul_eq_one h
    exact List.forall_mem_cons.2 ⟨hl, ih hls⟩

theorem kstar_ne_zero (l : Language α) : l∗ ≠ 0 := fun h => notMem_zero [] (h ▸ nil_mem_kstar l)

theorem pow_le_between {min max i : ℕ} (hmin : min ≤ i) (hmax : i ≤ max) :
    l ^ i ≤ l.between min max := fun _ hw => ⟨i, hmin, hmax, hw⟩

theorem mem_leftQuotient_singleton : w ∈ l.leftQuotient [c] ↔ c :: w ∈ l := Iff.rfl

/-- A word of a product begins in the first factor, or after it if that can be empty. -/
theorem cons_mem_mul :
    c :: w ∈ l * m ↔ w ∈ l.leftQuotient [c] * m ∨ [] ∈ l ∧ c :: w ∈ m := by
  simp only [mem_mul, mem_leftQuotient_singleton]
  refine ⟨fun h => ?_, fun h => ?_⟩
  · obtain ⟨u, hu, v, hv, huv⟩ := h
    cases u with
    | nil =>
      rw [List.nil_append] at huv
      exact Or.inr ⟨hu, huv ▸ hv⟩
    | cons a u =>
      obtain ⟨rfl, rfl⟩ := List.cons.inj huv
      exact Or.inl ⟨u, hu, v, hv, rfl⟩
  · rcases h with ⟨u, hu, v, hv, rfl⟩ | ⟨hl, hw⟩
    · exact ⟨c :: u, hu, v, hv, rfl⟩
    · exact ⟨[], hl, c :: w, hw, rfl⟩

/-- Factors that are empty may as well come last, so the first one can be taken to hold `c`. -/
theorem leftQuotient_pow_succ (l : Language α) (c : α) (n : ℕ) :
    (l ^ (n + 1)).leftQuotient [c] = l.leftQuotient [c] * l ^ n := by
  induction n with
  | zero => simp
  | succ n ih =>
    ext w
    rw [mem_leftQuotient_singleton, pow_succ', cons_mem_mul]
    refine ⟨fun hw => ?_, Or.inl⟩
    rcases hw with hw | ⟨hnil, hw⟩
    · exact hw
    · rw [← mem_leftQuotient_singleton, ih] at hw
      obtain ⟨u, hu, v, hv, rfl⟩ := mem_mul.1 hw
      refine append_mem_mul hu ?_
      rw [pow_succ']
      exact append_mem_mul hnil hv

theorem cons_mem_pow {n : ℕ} :
    c :: w ∈ l ^ n ↔ ∃ k, n = k + 1 ∧ w ∈ l.leftQuotient [c] * l ^ k := by
  cases n with
  | zero => simp
  | succ n =>
    rw [← mem_leftQuotient_singleton, leftQuotient_pow_succ]
    simp

theorem leftQuotient_one (c : α) : (1 : Language α).leftQuotient [c] = 0 := by
  ext w
  rw [mem_leftQuotient_singleton, mem_one]
  exact ⟨fun h => absurd h (List.cons_ne_nil c w), fun h => absurd h (notMem_zero w)⟩

theorem leftQuotient_kstar (l : Language α) (c : α) :
    l∗.leftQuotient [c] = l.leftQuotient [c] * l∗ := by
  ext w
  simp only [mem_leftQuotient_singleton, kstar_eq_iSup_pow, mul_iSup, mem_iSup, cons_mem_pow]
  refine ⟨fun h => ?_, fun h => ?_⟩
  · obtain ⟨-, k, -, hw⟩ := h
    exact ⟨k, hw⟩
  · obtain ⟨k, hw⟩ := h
    exact ⟨k + 1, k, rfl, hw⟩

theorem leftQuotient_mul_kstar (l : Language α) (c : α) :
    (l * l∗).leftQuotient [c] = l.leftQuotient [c] * l∗ := by
  ext w
  rw [mem_leftQuotient_singleton, cons_mem_mul, ← mem_leftQuotient_singleton (l := l∗),
    leftQuotient_kstar]
  tauto

theorem leftQuotient_between (l : Language α) (c : α) {min max : ℕ} (h : min ≤ max)
    (hmax : max ≠ 0) :
    (l.between min max).leftQuotient [c] = l.leftQuotient [c] * l.between (min - 1) (max - 1) := by
  ext w
  simp only [mem_leftQuotient_singleton, mem_between, cons_mem_pow, mem_mul]
  refine ⟨fun h => ?_, fun h => ?_⟩
  · obtain ⟨-, hk, hk', k, rfl, u, hu, v, hv, rfl⟩ := h
    exact ⟨u, hu, v, ⟨k, by omega, by omega, hv⟩, rfl⟩
  · obtain ⟨u, hu, v, ⟨k, hk, hk', hv⟩, rfl⟩ := h
    exact ⟨k + 1, by omega, by omega, k, rfl, u, hu, v, hv, rfl⟩

theorem mul_kstar_kstar (l : Language α) : (l * l∗)∗ = l∗ := by
  apply le_antisymm
  · exact (kstar_mono mul_kstar_le_kstar).trans (kstar_idem l).le
  · apply kstar_mono
    calc l = l * 1 := (mul_one l).symm
      _ ≤ l * l∗ := mul_le_mul_right one_le_kstar l

theorem one_add_kstar (l : Language α) : (1 + l)∗ = l∗ := by
  apply le_antisymm
  · exact (kstar_mono (add_le one_le_kstar le_kstar)).trans (kstar_idem l).le
  · exact kstar_mono (le_add_of_nonneg_left bot_le)

theorem kstar_add_kstar (l m : Language α) : (l∗ + m)∗ = (l + m)∗ := by
  apply le_antisymm
  · have hl : l∗ ≤ (l + m)∗ := kstar_mono (le_add_of_nonneg_right bot_le)
    have hm : m ≤ (l + m)∗ := (le_add_of_nonneg_left bot_le).trans le_kstar
    exact (kstar_mono (add_le hl hm)).trans (kstar_idem (l + m)).le
  · exact kstar_mono (add_le_add_left le_kstar m)

theorem singleton_mul_singleton (v w : List α) : ({v} * {w} : Language α) = {v ++ w} :=
  Set.image2_singleton

end Language
