import RegLan.Proofs.Term.Spine

/-! What simplification does not tell apart. A concatenation is known by the spines of its
simplified operands, one after the other, and a union or an intersection by the set of what these
contribute to it. So grouping makes no difference to any of the three, order and repetition make
none to the last two, and it does not matter where a literal is cut. -/

namespace RegLan

namespace Term

variable {ts us xs ys zs : List Term}

theorem flatMap_spine (ts : List Term) :
    ts.flatMap spine = (ts.flatMap concatOperands).flatMap spread :=
  List.flatMap_assoc.symm

theorem any_isNone_spread (t : Term) : (spread t).any isNone = t.isNone := by
  cases t with
  | literal w => simp [spread, isNone]
  | _ => rfl

theorem normConcat_eq_of_spines (ts : List Term) :
    normConcat ts = if (ts.flatMap spine).any isNone then .none
      else concatOf ((ts.flatMap spine).foldr joinOperand []) := by
  rw [flatMap_spine, foldr_joinOperand_flatMap, List.any_flatMap]
  simp only [any_isNone_spread]
  rfl

theorem normConcat_congr (h : ts.flatMap spine = us.flatMap spine) :
    normConcat ts = normConcat us := by
  rw [normConcat_eq_of_spines, h, ← normConcat_eq_of_spines]

theorem FactorList.concatOf_ne_none (h : FactorList ts) : concatOf ts ≠ .none := by
  unfold concatOf
  split
  · exact nofun
  · exact (h.factor _ List.mem_cons_self).ne_none
  · exact nofun

theorem any_isNone_of_normConcat_eq_none (h : ∀ t ∈ ts, Normal t) (hnone : normConcat ts = .none) :
    (ts.flatMap concatOperands).any isNone = true := by
  by_contra hany
  rw [normConcat, if_neg hany] at hnone
  exact (factorList_of_normal h hany).concatOf_ne_none hnone

theorem normConcat_nested (h : ∀ t ∈ ys, Normal t) :
    normConcat (xs ++ [normConcat ys] ++ zs) = normConcat (xs ++ ys ++ zs) := by
  by_cases hnone : normConcat ys = .none
  · have hany := any_isNone_of_normConcat_eq_none h hnone
    rw [hnone, normConcat_eq_none (by simp), normConcat, if_pos (by simp [hany])]
  · apply normConcat_congr
    simp [spine_normConcat h hnone]

theorem normUnion_congr
    (h : ∀ u, u ∈ ts.flatMap unionOperands ↔ u ∈ us.flatMap unionOperands) :
    normUnion ts = normUnion us := by
  rw [normUnion, normUnion, toSet_congr h]

theorem normUnion_nested (h : ∀ t ∈ ys, Normal t) :
    normUnion (xs ++ [normUnion ys] ++ zs) = normUnion (xs ++ ys ++ zs) := by
  apply normUnion_congr
  simp [unionOperands_normUnion h, mem_toSet]

theorem normInter_congr (hany : ts.any isNone = us.any isNone)
    (h : ∀ u, u ∈ ts.flatMap interOperands ↔ u ∈ us.flatMap interOperands) :
    normInter ts = normInter us := by
  rw [normInter, normInter, hany, toSet_congr h]

theorem normInter_ne_none (h : ∀ t ∈ ts, Normal t) (hts : ts ≠ [])
    (hany : ¬ts.any isNone = true) : normInter ts ≠ .none := by
  intro hnone
  have hoperands := interOperands_normInter h hts hany
  have hmem : Term.none ∈ toSet (ts.flatMap interOperands) := by
    rw [← hoperands, hnone]
    exact List.mem_cons_self
  exact (conjuncts_of_normal h hany _ hmem).2.ne_none rfl

theorem normInter_nested (h : ∀ t ∈ ys, Normal t) (hys : ys ≠ []) :
    normInter (xs ++ [normInter ys] ++ zs) = normInter (xs ++ ys ++ zs) := by
  by_cases hany : ys.any isNone = true
  · -- the inner intersection is `none` for the same reason as the whole
    have hnone : normInter ys = .none := if_pos hany
    rw [hnone, normInter, if_pos (by simp [isNone]), normInter, if_pos (by simp [hany])]
  · apply normInter_congr
    · simp [isNone_eq_false (normInter_ne_none h hys hany), hany]
    · simp [interOperands_normInter h hys hany, mem_toSet]

theorem normal_of_mem_map_simplify (ts : List Term) : ∀ t ∈ ts.map simplify, Normal t :=
  List.forall_mem_map.2 fun t _ => normal_simplify t

theorem simplify_concat_nested (xs ys zs : List Term) :
    (concat (xs ++ [concat ys] ++ zs)).simplify = (concat (xs ++ ys ++ zs)).simplify := by
  simp only [simplify_concat, List.map_append, List.map_singleton]
  exact normConcat_nested (normal_of_mem_map_simplify ys)

theorem simplify_union_nested (xs ys zs : List Term) :
    (union (xs ++ [union ys] ++ zs)).simplify = (union (xs ++ ys ++ zs)).simplify := by
  simp only [simplify_union, List.map_append, List.map_singleton]
  exact normUnion_nested (normal_of_mem_map_simplify ys)

theorem simplify_inter_nested (xs zs : List Term) (hys : ys ≠ []) :
    (inter (xs ++ [inter ys] ++ zs)).simplify = (inter (xs ++ ys ++ zs)).simplify := by
  simp only [simplify_inter, List.map_append, List.map_singleton]
  exact normInter_nested (normal_of_mem_map_simplify ys) (by simpa using hys)

/-- An intersection of nothing is not undone. -/
example : (inter [.literal ['a'], .inter []]).simplify = .inter [.literal ['a'], .compl .none] := by
  cbv

theorem simplify_concat_cut (xs zs : List Term) (v w : Word) :
    (concat (xs ++ [literal v, literal w] ++ zs)).simplify =
      (concat (xs ++ [literal (v ++ w)] ++ zs)).simplify := by
  rw [simplify_concat, simplify_concat]
  apply normConcat_congr
  simp [simplify, spine_literal]

/-- A union depends on which operands it has, an intersection likewise. -/
theorem simplify_union_congr (h : ∀ t, t ∈ xs ↔ t ∈ ys) :
    (union xs).simplify = (union ys).simplify := by
  rw [simplify_union, simplify_union]
  apply normUnion_congr
  simp [h]

theorem simplify_inter_congr (h : ∀ t, t ∈ xs ↔ t ∈ ys) :
    (inter xs).simplify = (inter ys).simplify := by
  rw [simplify_inter, simplify_inter]
  apply normInter_congr
  · rw [Bool.eq_iff_iff]
    simp [h]
  · simp [h]

/-- Simplification comes to the same term however operands are grouped, in whatever order and
however often those of a union or an intersection are given, and wherever a literal is cut. An
intersection of nothing is no group: it stays in the term as the operand that accepts all words. -/
theorem simplify_eq_of_regrouped (xs ys zs : List Term) (v w : Word) :
    (concat (xs ++ [concat ys] ++ zs)).simplify = (concat (xs ++ ys ++ zs)).simplify ∧
    (union (xs ++ [union ys] ++ zs)).simplify = (union (xs ++ ys ++ zs)).simplify ∧
    (ys ≠ [] →
      (inter (xs ++ [inter ys] ++ zs)).simplify = (inter (xs ++ ys ++ zs)).simplify) ∧
    (xs.Perm ys → (union xs).simplify = (union ys).simplify ∧
      (inter xs).simplify = (inter ys).simplify) ∧
    (∀ t ∈ xs ++ zs, (union (xs ++ [t] ++ zs)).simplify = (union (xs ++ zs)).simplify ∧
      (inter (xs ++ [t] ++ zs)).simplify = (inter (xs ++ zs)).simplify) ∧
    (concat (xs ++ [literal v, literal w] ++ zs)).simplify =
      (concat (xs ++ [literal (v ++ w)] ++ zs)).simplify := by
  refine ⟨simplify_concat_nested xs ys zs, simplify_union_nested xs ys zs,
    simplify_inter_nested xs zs, fun hperm => ?_, fun t ht => ?_, simplify_concat_cut xs zs v w⟩
  · have hmem : ∀ t, t ∈ xs ↔ t ∈ ys := fun t => hperm.mem_iff
    exact ⟨simplify_union_congr hmem, simplify_inter_congr hmem⟩
  · have hmem : ∀ u, u ∈ xs ++ [t] ++ zs ↔ u ∈ xs ++ zs := by
      intro u
      simp only [List.mem_append, List.mem_singleton] at ht ⊢
      constructor
      · rintro ((hu | rfl) | hu)
        · exact .inl hu
        · exact ht
        · exact .inr hu
      · rintro (hu | hu)
        · exact .inl (.inl hu)
        · exact .inr hu
    exact ⟨simplify_union_congr hmem, simplify_inter_congr hmem⟩

/-- Operands that come to nothing, to the empty word or to all words, in a group, turned around and
given twice. -/
theorem simplify_eq_of_regrouped_degenerate :
    (inter ([star none] ++ [inter [inter [], range 'a' 'z']] ++ [])).simplify =
      (inter ([star none] ++ [inter [], range 'a' 'z'] ++ [])).simplify ∧
    (union [range 'z' 'a', opt none]).simplify = (union [opt none, range 'z' 'a']).simplify ∧
    (inter ([range 'z' 'a'] ++ [opt none] ++ [opt none])).simplify =
      (inter ([range 'z' 'a'] ++ [opt none])).simplify := by
  have hgroup := simplify_eq_of_regrouped [star none] [inter [], range 'a' 'z'] [] [] []
  have hswap := simplify_eq_of_regrouped [range 'z' 'a', opt none] [opt none, range 'z' 'a']
    [] [] []
  have htwice := simplify_eq_of_regrouped [range 'z' 'a'] [] [opt none] [] []
  exact ⟨hgroup.2.2.1 (List.cons_ne_nil _ _), (hswap.2.2.2.1 (List.Perm.swap _ _ [])).1,
    (htwice.2.2.2.2.1 (opt none) (by simp)).2⟩

end Term

end RegLan
