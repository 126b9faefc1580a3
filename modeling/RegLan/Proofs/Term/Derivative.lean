import RegLan.Proofs.Term.Simplify
import RegLan.Term.Derivative

/-! Derivatives are quotients of the language, and matching decides membership in it. One step of
matching turns a term for `l` into a term for the quotient of `l`, simplified or not; a
whole run is an induction on the word. -/

namespace RegLan

namespace Term

open Computability Language

variable {t : Term} {ts : List Term} {w : Word} {c : Char}

theorem nil_mem_prod : [] ∈ (ts.map lang).prod ↔ ∀ t ∈ ts, [] ∈ t.lang := by
  induction ts with
  | nil => simp
  | cons t ts ih => rw [List.map_cons, List.prod_cons, nil_mem_mul, ih, List.forall_mem_cons]

theorem nullable_iff (t : Term) : t.nullable = true ↔ [] ∈ t.lang := by
  induction t with
  | none => simp [nullable, lang]
  | literal w =>
    rw [nullable, lang, List.isEmpty_iff]
    exact eq_comm
  | range lo hi => simp [nullable, mem_lang_range]
  | concat ts ih =>
    rw [nullable, allNullable_eq_all, List.all_eq_true, lang_concat, nil_mem_prod]
    exact forall₂_congr ih
  | union ts ih =>
    rw [nullable, anyNullable_eq_any, List.any_eq_true, mem_lang_union]
    exact exists_congr fun t => and_congr_right (ih t)
  | inter ts ih =>
    rw [nullable, allNullable_eq_all, List.all_eq_true, mem_lang_inter]
    exact forall₂_congr ih
  | compl t ih => rw [nullable, mem_lang_compl, ← ih, Bool.not_eq_true', Bool.not_eq_true]
  | star t ih => simp [nullable, lang, nil_mem_kstar]
  | plus t ih => simp [nullable, lang, nil_mem_mul, nil_mem_kstar, ih]
  | opt t ih =>
    rw [nullable, lang, mem_add]
    exact ⟨fun _ => Or.inl nil_mem_one, fun _ => rfl⟩
  | loop t min max ih =>
    rw [nullable, lang, nil_mem_between, ← ih, Bool.and_eq_true, Bool.or_eq_true, decide_eq_true_iff,
      beq_iff_eq]

/-- Past a nullable operand the derivative goes on to the next one. -/
theorem lang_derivConcat (ih : ∀ t ∈ ts, (deriv c t).lang = t.lang.leftQuotient [c]) :
    (derivConcat c ts).lang = (ts.map lang).prod.leftQuotient [c] := by
  induction ts with
  | nil =>
    ext w
    rw [derivConcat, lang, mem_leftQuotient_singleton]
    simp
  | cons t ts ihs =>
    rw [List.forall_mem_cons] at ih
    ext w
    have hhead : (concat [deriv c t, concat ts]).lang =
        t.lang.leftQuotient [c] * (ts.map lang).prod := by
      rw [lang_concat_pair, ih.1, lang_concat]
    rw [derivConcat, mem_leftQuotient_singleton, List.map_cons, List.prod_cons, cons_mem_mul,
      ← nullable_iff]
    split
    · rename_i h
      rw [lang_union_pair, mem_add, hhead, ihs ih.2, mem_leftQuotient_singleton]
      simp only [h, true_and]
    · rename_i h
      rw [hhead, or_iff_left fun hw => h hw.1]

theorem lang_deriv (c : Char) (t : Term) : (deriv c t).lang = t.lang.leftQuotient [c] := by
  induction t with
  | none => rfl
  | literal v =>
    ext w
    rw [mem_leftQuotient_singleton, mem_lang_literal]
    cases v with
    | nil => simp [deriv, lang]
    | cons a v =>
      rw [deriv]
      split
      · rename_i h
        rw [mem_lang_literal, h, List.cons.injEq]
        simp
      · rename_i h
        simp [lang, h]
  | range lo hi =>
    ext w
    rw [deriv, mem_leftQuotient_singleton, mem_lang_range]
    split
    · rename_i h
      rw [lang_epsilon, mem_one]
      refine ⟨fun h => ?_, fun h => ?_⟩
      · subst h
        exact ⟨c, h, rfl⟩
      · obtain ⟨d, -, hw⟩ := h
        exact (List.cons.inj hw).2
    · rename_i h
      refine ⟨fun hw => absurd hw (notMem_zero w), fun hw => ?_⟩
      obtain ⟨d, hd, hw⟩ := hw
      obtain ⟨rfl, -⟩ := List.cons.inj hw
      exact absurd hd h
  | concat ts ih => rw [deriv, lang_derivConcat ih, lang_concat]
  | union ts ih =>
    ext w
    rw [deriv, derivAll_eq_map, mem_leftQuotient_singleton, mem_lang_union, mem_lang_union]
    refine ⟨fun h => ?_, fun h => ?_⟩
    · obtain ⟨u, hu, hw⟩ := h
      obtain ⟨t, ht, rfl⟩ := List.mem_map.1 hu
      rw [ih t ht] at hw
      exact ⟨t, ht, hw⟩
    · obtain ⟨t, ht, hw⟩ := h
      refine ⟨deriv c t, List.mem_map_of_mem ht, ?_⟩
      rw [ih t ht]
      exact hw
  | inter ts ih =>
    ext w
    rw [deriv, derivAll_eq_map, mem_leftQuotient_singleton, mem_lang_inter, mem_lang_inter,
      List.forall_mem_map]
    refine forall₂_congr fun t ht => ?_
    rw [ih t ht, mem_leftQuotient_singleton]
  | compl t ih =>
    ext w
    rw [deriv, mem_leftQuotient_singleton, mem_lang_compl, mem_lang_compl, ih,
      mem_leftQuotient_singleton]
  | star t ih => rw [deriv, lang_concat_pair, ih, lang, leftQuotient_kstar]
  | plus t ih => rw [deriv, lang_concat_pair, ih, lang, lang, leftQuotient_mul_kstar]
  | opt t ih =>
    ext w
    rw [deriv, ih, lang, mem_leftQuotient_singleton, mem_leftQuotient_singleton, mem_add, mem_one]
    simp
  | loop t min max ih =>
    rw [deriv]
    split
    · rename_i h
      rw [lang, lang]
      rcases h with h | rfl
      · rw [between_of_lt h]
        rfl
      · cases min with
        | zero => rw [between_self, pow_zero, leftQuotient_one]
        | succ min =>
          rw [between_of_lt (Nat.succ_pos min)]
          rfl
    · rename_i h
      rw [not_or, not_lt] at h
      rw [lang_concat_pair, ih, lang, lang, leftQuotient_between t.lang c h.1 h.2]

/-- The early end at a term without words loses none, and simplifying between steps changes
none. -/
theorem acceptsFrom_iff (t : Term) (w : Word) : acceptsFrom t w = true ↔ w ∈ t.lang := by
  induction w generalizing t with
  | nil => rw [acceptsFrom, nullable_iff]
  | cons c w ih =>
    rw [acceptsFrom, Bool.and_eq_true, Bool.not_eq_true', ih, lang_simplify, lang_deriv,
      mem_leftQuotient_singleton]
    refine ⟨fun h => h.2, fun h => ⟨?_, h⟩⟩
    by_contra hnone
    rw [Bool.not_eq_false] at hnone
    rw [eq_none_of_isNone hnone] at h
    exact notMem_zero _ h

/-- Matching accepts exactly the words that belong to the term. -/
theorem accepts_iff_mem_lang (t : Term) (w : Word) : t.accepts w = true ↔ w ∈ t.lang := by
  rw [accepts, acceptsFrom_iff, lang_simplify]

/-- The term in normal form, or as it is. -/
def simplifyIf (b : Bool) (t : Term) : Term := if b then t.simplify else t

/-- The derivative by a word. After `n` characters the term is simplified if `s n` is true. -/
def derivBy (s : ℕ → Bool) (t : Term) : Word → Term
  | [] => simplifyIf (s 0) t
  | c :: w => derivBy (fun n => s (n + 1)) (deriv c (simplifyIf (s 0) t)) w

theorem lang_simplifyIf (b : Bool) (t : Term) : (simplifyIf b t).lang = t.lang := by
  unfold simplifyIf
  split
  · exact lang_simplify t
  · rfl

theorem lang_derivBy (s : ℕ → Bool) (t : Term) (w : Word) :
    (derivBy s t w).lang = t.lang.leftQuotient w := by
  induction w generalizing s t with
  | nil => rw [derivBy, lang_simplifyIf, leftQuotient_nil]
  | cons c w ih =>
    rw [derivBy, ih, lang_deriv, lang_simplifyIf, ← leftQuotient_append, List.singleton_append]

theorem nullable_derivBy_iff (s : ℕ → Bool) (t : Term) (w : Word) :
    (derivBy s t w).nullable = true ↔ w ∈ t.lang := by
  rw [nullable_iff, lang_derivBy, mem_leftQuotient, List.append_nil]

/-- The derivative by a word stands for the rests of the words that begin with it, and is nullable
exactly if the word is accepted, whenever the term is simplified on the way. So it makes no
difference to whether the term is nullable, after any beginning of the word. -/
theorem derivBy_denotes_quotient (s : ℕ → Bool) (t : Term) (w : Word) :
    (∀ v, v ∈ (derivBy s t w).lang ↔ w ++ v ∈ t.lang) ∧
      ((derivBy s t w).nullable = true ↔ w ∈ t.lang) ∧
      ∀ (s' : ℕ → Bool) (u : Word), u <+: w →
        (derivBy s t u).nullable = (derivBy s' t u).nullable := by
  refine ⟨fun v => ?_, nullable_derivBy_iff s t w, fun s' u _ => ?_⟩
  · rw [lang_derivBy, mem_leftQuotient]
  · rw [Bool.eq_iff_iff, nullable_derivBy_iff, nullable_derivBy_iff]

end Term

end RegLan
