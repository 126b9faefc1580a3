import Mathlib.Algebra.BigOperators.Ring.List
import RegLan.Proofs.Term.Language
import RegLan.Proofs.Term.Order
import RegLan.Term.Simplify

/-! Simplification keeps the language. Each `norm…` function gives a term with the language of
its constructor applied to the same operands, whether these are normal forms or not. -/

namespace RegLan

namespace Term

open Computability Language

variable {t : Term} {ts : List Term} {w : Word}

theorem eq_none_of_isNone (h : t.isNone = true) : t = .none := by
  cases t with
  | none => rfl
  | _ => cases h

theorem eq_epsilon_of_isEpsilon (h : t.isEpsilon = true) : t = epsilon := by
  unfold isEpsilon at h
  split at h
  · rfl
  · cases h

theorem lang_concatOf (ts : List Term) : (concatOf ts).lang = (ts.map lang).prod := by
  unfold concatOf
  split
  · exact lang_epsilon
  · rw [List.map_singleton, List.prod_singleton]
  · exact lang_concat _

theorem prod_concatOperands (t : Term) : ((concatOperands t).map lang).prod = t.lang := by
  unfold concatOperands
  split
  · exact (lang_concat _).symm
  · rw [List.map_singleton, List.prod_singleton]

theorem prod_flatMap_concatOperands (ts : List Term) :
    ((ts.flatMap concatOperands).map lang).prod = (ts.map lang).prod := by
  induction ts with
  | nil => rfl
  | cons t ts ih =>
    rw [List.flatMap_cons, List.map_append, List.prod_append, prod_concatOperands, ih,
      List.map_cons, List.prod_cons]

theorem prod_joinOperand (t : Term) (ts : List Term) :
    ((joinOperand t ts).map lang).prod = t.lang * (ts.map lang).prod := by
  unfold joinOperand
  split
  · rw [show lang (.literal []) = 1 from lang_epsilon, one_mul]
  · -- two literals: their words are joined, and so are the one-word languages
    rename_i v w ts
    simp only [List.map_cons, List.prod_cons, lang]
    rw [← mul_assoc, singleton_mul_singleton]
  · rw [List.map_cons, List.prod_cons]

theorem prod_foldr_joinOperand (ts : List Term) :
    ((ts.foldr joinOperand []).map lang).prod = (ts.map lang).prod := by
  induction ts with
  | nil => rfl
  | cons t ts ih => rw [List.foldr_cons, prod_joinOperand, ih, List.map_cons, List.prod_cons]

/-- A product with a factor that accepts nothing accepts nothing. -/
theorem prod_eq_zero_of_any_isNone (h : ts.any isNone = true) : (ts.map lang).prod = 0 := by
  obtain ⟨t, ht, hnone⟩ := List.any_eq_true.1 h
  apply List.prod_eq_zero
  rw [List.mem_map]
  refine ⟨t, ht, ?_⟩
  rw [eq_none_of_isNone hnone, lang]

theorem lang_normConcat (ts : List Term) : (normConcat ts).lang = (concat ts).lang := by
  rw [lang_concat, ← prod_flatMap_concatOperands, normConcat]
  split
  · rename_i h
    rw [prod_eq_zero_of_any_isNone h, lang]
  · rw [lang_concatOf, prod_foldr_joinOperand]

theorem mem_lang_unionOf : w ∈ (unionOf ts).lang ↔ ∃ t ∈ ts, w ∈ t.lang := by
  unfold unionOf
  split
  · simp [lang]
  · simp
  · exact mem_lang_union

theorem exists_mem_unionOperands : (∃ u ∈ unionOperands t, w ∈ u.lang) ↔ w ∈ t.lang := by
  unfold unionOperands
  split
  · simp [lang]
  · exact mem_lang_union.symm
  · simp

theorem lang_normUnion (ts : List Term) : (normUnion ts).lang = (union ts).lang := by
  ext w
  rw [normUnion, mem_lang_unionOf, mem_lang_union]
  refine ⟨fun h => ?_, fun h => ?_⟩
  · obtain ⟨u, hu, hw⟩ := h
    obtain ⟨t, ht, hut⟩ := List.mem_flatMap.1 (mem_toSet.1 hu)
    exact ⟨t, ht, exists_mem_unionOperands.1 ⟨u, hut, hw⟩⟩
  · obtain ⟨t, ht, hw⟩ := h
    obtain ⟨u, hut, hw⟩ := exists_mem_unionOperands.2 hw
    exact ⟨u, mem_toSet.2 (List.mem_flatMap.2 ⟨t, ht, hut⟩), hw⟩

theorem mem_lang_interOf : w ∈ (interOf ts).lang ↔ ∀ t ∈ ts, w ∈ t.lang := by
  unfold interOf
  split
  · rw [mem_lang_compl]
    simp [lang]
  · simp
  · exact mem_lang_inter

theorem forall_mem_interOperands : (∀ u ∈ interOperands t, w ∈ u.lang) ↔ w ∈ t.lang := by
  unfold interOperands
  split
  · exact mem_lang_inter.symm
  · simp

theorem lang_normInter (ts : List Term) : (normInter ts).lang = (inter ts).lang := by
  ext w
  rw [normInter, mem_lang_inter]
  split
  · rename_i h
    obtain ⟨t, ht, hnone⟩ := List.any_eq_true.1 h
    rw [eq_none_of_isNone hnone] at ht
    exact ⟨fun hw => absurd hw (notMem_zero w), fun hw => hw _ ht⟩
  · rw [mem_lang_interOf]
    refine ⟨fun hw t ht => ?_, fun hw u hu => ?_⟩
    · refine forall_mem_interOperands.1 fun u hut => ?_
      exact hw u (mem_toSet.2 (List.mem_flatMap.2 ⟨t, ht, hut⟩))
    · obtain ⟨t, ht, hut⟩ := List.mem_flatMap.1 (mem_toSet.1 hu)
      exact forall_mem_interOperands.2 (hw t ht) u hut

theorem lang_normRange (lo hi : Char) : (normRange lo hi).lang = (range lo hi).lang := by
  unfold normRange
  split
  · rfl
  · rename_i h
    ext w
    rw [mem_lang_range, lang]
    refine ⟨fun hw => absurd hw (notMem_zero w), fun hw => ?_⟩
    obtain ⟨c, ⟨hlo, hhi⟩, -⟩ := hw
    exact absurd (Char.le_trans hlo hhi) h

theorem lang_normCompl (t : Term) : (normCompl t).lang = (compl t).lang := by
  unfold normCompl
  split
  · rename_i t
    simp only [lang, compl_compl]
  · rfl

theorem lang_normStar (t : Term) : (normStar t).lang = (star t).lang := by
  unfold normStar
  split
  · simp only [lang_epsilon, lang, kstar_zero]
  · rw [lang_epsilon, lang, ← epsilon, lang_epsilon, kstar_one]
  · simp only [lang, kstar_idem]
  · simp only [lang, mul_kstar_kstar]
  · simp only [lang, one_add_kstar]
  · rfl

theorem lang_normPlus (t : Term) : (normPlus t).lang = (plus t).lang := by
  unfold normPlus
  split
  · simp only [lang, zero_mul]
  · rw [lang_epsilon, lang, ← epsilon, lang_epsilon, kstar_one, mul_one]
  · simp only [lang, kstar_idem, kstar_mul_kstar]
  · simp only [lang, mul_kstar_kstar, mul_assoc, kstar_mul_kstar]
  · rename_i t
    simp only [lang, one_add_kstar]
    rw [add_mul, one_mul, add_eq_left_iff_le.2 mul_kstar_le_kstar]
  · rfl

theorem lang_normOpt (t : Term) : (normOpt t).lang = (opt t).lang := by
  unfold normOpt
  split
  · simp only [lang_epsilon, lang, add_zero]
  · rw [lang_epsilon, lang, ← epsilon, lang_epsilon, add_idem]
  · rename_i t
    simp only [lang]
    exact (add_eq_right_iff_le.2 one_le_kstar).symm
  · simp only [lang, one_add_mul_kstar]
  · simp only [lang, ← add_assoc, add_idem]
  · rfl

theorem lang_normLoop (t : Term) (min max : ℕ) :
    (normLoop t min max).lang = (loop t min max).lang := by
  unfold normLoop
  split
  · rename_i h
    simp only [lang, between_of_lt h]
  · rename_i hle
    rw [not_lt] at hle
    split
    · rename_i h
      rw [lang_epsilon, lang]
      rcases h with rfl | h
      · obtain rfl := Nat.le_zero.1 hle
        rw [between_self, pow_zero]
      · rw [eq_epsilon_of_isEpsilon h, lang_epsilon, one_between hle]
    · split
      · rename_i h
        rw [eq_none_of_isNone h]
        split
        · rename_i h0
          subst h0
          simp only [lang_epsilon, lang, zero_between_zero]
        · rename_i h0
          simp only [lang, zero_between h0]
      · split
        · rename_i h
          obtain ⟨rfl, rfl⟩ := h
          rw [lang, between_self, pow_one]
        · rfl

theorem lang_simplify (t : Term) : t.simplify.lang = t.lang := by
  induction t with
  | none => rw [simplify]
  | literal w => rw [simplify]
  | range lo hi => rw [simplify, lang_normRange]
  | concat ts ih =>
    have hmap : ts.map (lang ∘ simplify) = ts.map lang := List.map_congr_left ih
    rw [simplify_concat, lang_normConcat, lang_concat, lang_concat, List.map_map, hmap]
  | union ts ih =>
    ext w
    rw [simplify_union, lang_normUnion, mem_lang_union, mem_lang_union]
    refine ⟨fun h => ?_, fun h => ?_⟩
    · obtain ⟨u, hu, hw⟩ := h
      obtain ⟨t, ht, rfl⟩ := List.mem_map.1 hu
      exact ⟨t, ht, ih t ht ▸ hw⟩
    · obtain ⟨t, ht, hw⟩ := h
      exact ⟨t.simplify, List.mem_map_of_mem ht, (ih t ht).symm ▸ hw⟩
  | inter ts ih =>
    ext w
    rw [simplify_inter, lang_normInter, mem_lang_inter, mem_lang_inter, List.forall_mem_map]
    exact forall₂_congr fun t ht => by rw [ih t ht]
  | compl t ih => rw [simplify, lang_normCompl, lang, lang, ih]
  | star t ih => rw [simplify, lang_normStar, lang, lang, ih]
  | plus t ih => rw [simplify, lang_normPlus, lang, lang, ih]
  | opt t ih => rw [simplify, lang_normOpt, lang, lang, ih]
  | loop t min max ih => rw [simplify, lang_normLoop, lang, lang, ih]

/-- A word belongs to the normal form of a term exactly if it belongs to the term. -/
theorem mem_lang_simplify_iff (t : Term) (w : Word) : w ∈ t.simplify.lang ↔ w ∈ t.lang := by
  rw [lang_simplify]

end Term

end RegLan
