import RegLan.Proofs.Term.Spine
import RegLan.Term.Resimplify

/-! Simplifying twice changes nothing. The weight of a term allows for what simplification adds, so
no call has to nest deeper than the weight of its term, and what the calls end with is what splicing
the operands of a nested concatenation in as they are comes to. -/

namespace RegLan

namespace Term

variable {t u : Term} {ts us kept : List Term} {n : ℕ}

theorem weightAll_append (ts us : List Term) :
    weightAll (ts ++ us) = weightAll ts + weightAll us := by
  induction ts with
  | nil => simp
  | cons t ts ih =>
    simp only [List.cons_append, weightAll, ih]
    omega

theorem weightAll_flatMap_le {f : Term → List Term} (hf : ∀ t, weightAll (f t) ≤ t.weight + 1)
    (ts : List Term) : weightAll (ts.flatMap f) ≤ weightAll ts := by
  induction ts with
  | nil => simp
  | cons t ts ih =>
    have ht := hf t
    simp only [List.flatMap_cons, weightAll_append, weightAll]
    omega

theorem weightAll_concatOperands_le (t : Term) : weightAll (concatOperands t) ≤ t.weight + 1 := by
  cases t <;> simp only [concatOperands, weightAll, weight] <;> omega

theorem weightAll_unionOperands_le (t : Term) : weightAll (unionOperands t) ≤ t.weight + 1 := by
  cases t <;> simp only [unionOperands, weightAll, weight] <;> omega

theorem weightAll_interOperands_le (t : Term) : weightAll (interOperands t) ≤ t.weight + 1 := by
  cases t <;> simp only [interOperands, weightAll, weight] <;> omega

theorem weightAll_foldr_joinOperand_le (ts : List Term) :
    weightAll (ts.foldr joinOperand []) ≤ weightAll ts := by
  induction ts with
  | nil => exact Nat.le_refl _
  | cons t ts ih =>
    rw [List.foldr_cons, weightAll]
    generalize ts.foldr joinOperand [] = us at ih
    unfold joinOperand
    split
    · omega
    · simp only [weightAll, weight] at ih ⊢
      omega
    · simp only [weightAll]
      omega

theorem weightAll_insert_le (t : Term) (ts : List Term) :
    weightAll (insert t ts) ≤ t.weight + weightAll ts + 1 := by
  induction ts with
  | nil => exact Nat.le_refl _
  | cons u us ih =>
    rw [insert]
    split
    · exact Nat.le_refl _
    · simp only [weightAll]
      omega
    · simp only [weightAll]
      omega

theorem weightAll_toSet_le (ts : List Term) : weightAll (toSet ts) ≤ weightAll ts := by
  induction ts with
  | nil => exact Nat.le_refl _
  | cons t ts ih =>
    have hinsert := weightAll_insert_le t (toSet ts)
    rw [weightAll]
    exact hinsert.trans (by omega)

theorem weight_concatOf_le (ts : List Term) : (concatOf ts).weight ≤ weightAll ts + 1 := by
  unfold concatOf
  split <;> simp only [epsilon, weight, weightAll] <;> omega

theorem weight_unionOf_le (ts : List Term) : (unionOf ts).weight ≤ weightAll ts + 1 := by
  unfold unionOf
  split <;> simp only [weight, weightAll] <;> omega

theorem weight_interOf_le (ts : List Term) : (interOf ts).weight ≤ weightAll ts + 2 := by
  unfold interOf
  split <;> simp only [weight, weightAll] <;> omega

theorem weight_normConcat_le (ts : List Term) : (normConcat ts).weight ≤ weightAll ts + 1 := by
  rw [normConcat]
  split
  · simp only [weight]
    omega
  · have hjoin := weightAll_foldr_joinOperand_le (ts.flatMap concatOperands)
    have hflat := weightAll_flatMap_le weightAll_concatOperands_le ts
    have hof := weight_concatOf_le ((ts.flatMap concatOperands).foldr joinOperand [])
    omega

theorem weight_normUnion_le (ts : List Term) : (normUnion ts).weight ≤ weightAll ts + 1 := by
  have hset := weightAll_toSet_le (ts.flatMap unionOperands)
  have hflat := weightAll_flatMap_le weightAll_unionOperands_le ts
  have hof := weight_unionOf_le (toSet (ts.flatMap unionOperands))
  unfold normUnion
  omega

theorem weight_normInter_le (ts : List Term) : (normInter ts).weight ≤ weightAll ts + 2 := by
  unfold normInter
  split
  · simp only [weight]
    omega
  · have hset := weightAll_toSet_le (ts.flatMap interOperands)
    have hflat := weightAll_flatMap_le weightAll_interOperands_le ts
    have hof := weight_interOf_le (toSet (ts.flatMap interOperands))
    omega

theorem weight_normCompl_le (t : Term) : (normCompl t).weight ≤ t.weight + 1 := by
  unfold normCompl
  split <;> simp only [weight] <;> omega

theorem weight_normStar_le (t : Term) : (normStar t).weight ≤ t.weight + 1 := by
  unfold normStar
  split <;> simp only [epsilon, weight] <;> omega

theorem weight_normPlus_le (t : Term) : (normPlus t).weight ≤ t.weight + 1 := by
  unfold normPlus
  split <;> simp only [epsilon, weight] <;> omega

theorem weight_normOpt_le (t : Term) : (normOpt t).weight ≤ t.weight + 1 := by
  unfold normOpt
  split <;> simp only [epsilon, weight] <;> omega

theorem weight_normLoop_le (t : Term) (min max : ℕ) :
    (normLoop t min max).weight ≤ t.weight + 1 := by
  unfold normLoop
  split_ifs <;> simp [epsilon]

theorem weightAll_map_le {f : Term → Term} (h : ∀ t ∈ ts, (f t).weight ≤ t.weight) :
    weightAll (ts.map f) ≤ weightAll ts := by
  induction ts with
  | nil => exact Nat.le_refl _
  | cons t ts ih =>
    obtain ⟨ht, hts⟩ := List.forall_mem_cons.1 h
    have := ih hts
    simp only [List.map_cons, weightAll]
    omega

/-- Simplification makes no term heavier. -/
theorem weight_simplify_le (t : Term) : t.simplify.weight ≤ t.weight := by
  induction t with
  | none => exact Nat.le_refl _
  | literal w => exact Nat.le_refl _
  | range lo hi =>
    rw [simplify, normRange]
    split <;> simp only [weight, Nat.le_refl]
  | concat ts ih =>
    rw [simplify_concat, weight]
    exact (weight_normConcat_le _).trans (Nat.add_le_add_right (weightAll_map_le ih) 1)
  | union ts ih =>
    rw [simplify_union, weight]
    exact (weight_normUnion_le _).trans (Nat.add_le_add_right (weightAll_map_le ih) 1)
  | inter ts ih =>
    rw [simplify_inter, weight]
    exact (weight_normInter_le _).trans (Nat.add_le_add_right (weightAll_map_le ih) 2)
  | compl t ih => exact (weight_normCompl_le _).trans (Nat.add_le_add_right ih 1)
  | star t ih => exact (weight_normStar_le _).trans (Nat.add_le_add_right ih 1)
  | plus t ih => exact (weight_normPlus_le _).trans (Nat.add_le_add_right ih 1)
  | opt t ih => exact (weight_normOpt_le _).trans (Nat.add_le_add_right ih 1)
  | loop t min max ih => exact (weight_normLoop_le _ min max).trans (Nat.add_le_add_right ih 1)

theorem joinOperand_append (v w : Word) (ts : List Term) :
    joinOperand (.literal (v ++ w)) ts =
      joinOperand (.literal v) (joinOperand (.literal w) ts) := by
  simp only [← foldr_joinOperand_map, List.map_append, List.foldr_append]

theorem foldr_joinOperand_pushOperand (kept : List Term) (t : Term) (us : List Term) :
    (pushOperand kept t).reverse.foldr joinOperand us =
      kept.reverse.foldr joinOperand (joinOperand t us) := by
  unfold pushOperand
  split
  · rfl
  · simp only [List.reverse_cons, List.foldr_append, List.foldr_cons, List.foldr_nil,
      joinOperand_append]
  · simp only [List.reverse_cons, List.foldr_append, List.foldr_cons, List.foldr_nil]

theorem foldr_joinOperand_foldl (ts kept us : List Term) :
    (ts.foldl pushOperand kept).reverse.foldr joinOperand us =
      kept.reverse.foldr joinOperand (ts.foldr joinOperand us) := by
  induction ts generalizing kept with
  | nil => rfl
  | cons t ts ih => rw [List.foldl_cons, ih, foldr_joinOperand_pushOperand, List.foldr_cons]

/-- No literal is empty or stands next to another. -/
structure Joined (ts : List Term) : Prop where
  ne_epsilon : ∀ t ∈ ts, t ≠ epsilon
  apart : LiteralsApart ts

theorem Joined.pushOperand (h : Joined kept) (t : Term) : Joined (pushOperand kept t) := by
  obtain ⟨hne, hapart⟩ := h
  unfold Term.pushOperand
  split
  · exact ⟨hne, hapart⟩
  · rename_i v kept w hw
    rw [List.forall_mem_cons] at hne
    refine ⟨List.forall_mem_cons.2 ⟨fun heq => hw ?_, hne.2⟩, hapart.exchange⟩
    exact (List.append_eq_nil_iff.1 (literal.inj heq)).2
  · rename_i hepsilon hliteral
    refine ⟨List.forall_mem_cons.2 ⟨hepsilon, hne⟩, hapart.cons fun w v us ht hkept => ?_⟩
    exact hliteral v us w hkept ht

theorem Joined.foldl_pushOperand (h : Joined kept) (ts : List Term) :
    Joined (ts.foldl Term.pushOperand kept) := by
  induction ts generalizing kept with
  | nil => exact h
  | cons t ts ih => exact ih (h.pushOperand t)

/-- Literals joined from the left are those joined from the right. -/
theorem reverse_foldl_pushOperand (ts : List Term) :
    (ts.foldl pushOperand []).reverse = ts.foldr joinOperand [] := by
  have hjoined : Joined (ts.foldl pushOperand []) :=
    Joined.foldl_pushOperand ⟨List.forall_mem_nil _, List.isChain_nil⟩ ts
  have hapart : LiteralsApart (ts.foldl pushOperand []).reverse :=
    List.isChain_reverse.2 (hjoined.apart.imp fun _ _ h h' => h h'.symm)
  rw [← foldr_joinOperand_eq_self (fun t ht => hjoined.ne_epsilon t (List.mem_reverse.1 ht)) hapart,
    foldr_joinOperand_foldl, List.reverse_nil, List.foldr_nil]

/-- Calls nested `n` deep are enough for what weighs no more than `n`, and come to what simplifying
once comes to. -/
structure Enough (n : ℕ) : Prop where
  simplify : ∀ t, t.weight ≤ n → resimplify n t = some t.simplify
  factors : ∀ kept ts, weightAll ts ≤ n → gatherFactors n kept ts =
    some (if ((ts.map Term.simplify).flatMap concatOperands).any isNone then .none
      else some (((ts.map Term.simplify).flatMap concatOperands).foldl pushOperand kept))
  alternatives : ∀ kept ts, weightAll ts ≤ n → gatherAlternatives n kept ts =
    some (kept ++ (ts.map Term.simplify).flatMap unionOperands)
  conjuncts : ∀ kept ts, weightAll ts ≤ n → gatherConjuncts n kept ts =
    some (if (ts.map Term.simplify).any isNone then .none
      else some (kept ++ (ts.map Term.simplify).flatMap interOperands))

theorem Enough.simplify_succ (h : Enough n) (ht : t.weight ≤ n + 1) :
    resimplify (n + 1) t = some t.simplify := by
  cases t with
  | none => rfl
  | literal w => rfl
  | range lo hi => rfl
  | concat ts =>
    rw [weight] at ht
    rw [resimplify, h.factors [] ts (by omega), simplify_concat, normConcat]
    split
    · rfl
    · rw [← reverse_foldl_pushOperand]
      rfl
  | union ts =>
    rw [weight] at ht
    rw [resimplify, h.alternatives [] ts (by omega), simplify_union]
    rfl
  | inter ts =>
    rw [weight] at ht
    rw [resimplify, h.conjuncts [] ts (by omega), simplify_inter, normInter]
    split
    · rfl
    · rfl
  | compl t | star t | plus t | opt t | loop t min max =>
    rw [weight] at ht
    rw [resimplify, h.simplify t (by omega)]
    rfl

theorem gatherFactors_keep (ht : resimplify n t = some u) (hnone : u ≠ .none)
    (hconcat : ∀ us, u ≠ .concat us) :
    gatherFactors (n + 1) kept (t :: ts) = gatherFactors n (pushOperand kept u) ts := by
  rw [gatherFactors, ht]
  cases u with
  | none => exact absurd rfl hnone
  | concat us => exact absurd rfl (hconcat us)
  | _ => rfl

theorem Normal.any_isNone_eq_false (h : Normal (.concat us)) : us.any isNone = false := by
  cases h with
  | concat _ _ hfactor _ => exact Term.any_isNone_eq_false fun u hu => (hfactor u hu).ne_none

/-- A concatenation found among simplified operands is a normal form, so its operands come out of
the second simplification as they are. -/
theorem Enough.factors_of_normal (h : Enough n) (kept : List Term) (hus : Normal (.concat us))
    (hweight : weightAll us ≤ n) :
    gatherFactors n kept us = some (some (us.foldl pushOperand kept)) := by
  have hany := hus.any_isNone_eq_false
  rw [h.factors kept us hweight]
  cases hus with
  | concat _ hnormal hfactor _ =>
    rw [map_simplify_eq_self fun u hu => (hnormal u hu).simplify_eq_self,
      flatMap_concatOperands_eq_self fun u hu => (hfactor u hu).ne_concat, hany]
    rfl

theorem Enough.factors_succ (h : Enough n) (kept ts : List Term) (hts : weightAll ts ≤ n + 1) :
    gatherFactors (n + 1) kept ts =
      some (if ((ts.map Term.simplify).flatMap concatOperands).any isNone then .none
        else some (((ts.map Term.simplify).flatMap concatOperands).foldl pushOperand kept)) := by
  cases ts with
  | nil => rfl
  | cons t ts =>
    rw [weightAll] at hts
    have ht := h.simplify t (by omega)
    have hrest := fun kept => h.factors kept ts (by omega)
    have hnormal := normal_simplify t
    have hweight := weight_simplify_le t
    rw [List.map_cons, List.flatMap_cons, List.any_append, List.foldl_append]
    generalize t.simplify = u at ht hnormal hweight
    by_cases hconcat : ∃ us, u = .concat us
    · obtain ⟨us, rfl⟩ := hconcat
      rw [weight] at hweight
      have hus := h.factors_of_normal kept hnormal (by omega)
      rw [gatherFactors, ht]
      simp only [Option.bind_eq_bind, Option.bind_some, hus, hrest, concatOperands,
        hnormal.any_isNone_eq_false, Bool.false_or]
    · by_cases hnone : u = .none
      · subst hnone
        rw [gatherFactors, ht]
        rfl
      · rw [gatherFactors_keep ht hnone fun us hus => hconcat ⟨us, hus⟩, hrest,
          concatOperands_eq_self fun us hus => hconcat ⟨us, hus⟩]
        simp [isNone_eq_false hnone]

theorem Enough.alternatives_succ (h : Enough n) (kept ts : List Term) (hts : weightAll ts ≤ n + 1) :
    gatherAlternatives (n + 1) kept ts =
      some (kept ++ (ts.map Term.simplify).flatMap unionOperands) := by
  cases ts with
  | nil => simp [gatherAlternatives]
  | cons t ts =>
    rw [weightAll] at hts
    rw [gatherAlternatives, h.simplify t (by omega), List.map_cons, List.flatMap_cons,
      ← List.append_assoc]
    exact h.alternatives _ ts (by omega)

theorem Enough.conjuncts_succ (h : Enough n) (kept ts : List Term) (hts : weightAll ts ≤ n + 1) :
    gatherConjuncts (n + 1) kept ts = some (if (ts.map Term.simplify).any isNone then .none
      else some (kept ++ (ts.map Term.simplify).flatMap interOperands)) := by
  cases ts with
  | nil => simp [gatherConjuncts]
  | cons t ts =>
    rw [weightAll] at hts
    have hrest := fun kept => h.conjuncts kept ts (by omega)
    rw [gatherConjuncts, h.simplify t (by omega), List.map_cons, List.flatMap_cons, List.any_cons,
      ← List.append_assoc]
    generalize t.simplify = u
    cases u with
    | none => rfl
    | _ => exact hrest _

theorem eq_nil_of_weightAll_le_zero (h : weightAll ts ≤ 0) : ts = [] := by
  cases ts with
  | nil => rfl
  | cons t ts => simp at h

theorem enough_zero : Enough 0 where
  simplify t ht := by
    cases t <;> simp at ht
  factors kept ts hts := by
    obtain rfl := eq_nil_of_weightAll_le_zero hts
    rfl
  alternatives kept ts hts := by
    obtain rfl := eq_nil_of_weightAll_le_zero hts
    simp [gatherAlternatives]
  conjuncts kept ts hts := by
    obtain rfl := eq_nil_of_weightAll_le_zero hts
    simp [gatherConjuncts]

theorem enough (n : ℕ) : Enough n := by
  induction n with
  | zero => exact enough_zero
  | succ n ih =>
    exact ⟨fun _ => ih.simplify_succ, ih.factors_succ, ih.alternatives_succ, ih.conjuncts_succ⟩

/-- Calls that may nest as deep as the weight of the term come to an end, and the second
simplification has changed nothing. -/
theorem resimplify_eq_some_simplify (t : Term) (n : ℕ) (h : t.weight ≤ n) :
    resimplify n t = some t.simplify := (enough n).simplify t h

/-- A concatenation within a concatenation, next to an intersection of nothing. -/
theorem resimplify_nested :
    (concat [concat [literal ['a'], star (literal ['b'])], inter []]).weight ≤ 11 ∧
    resimplify 11 (concat [concat [literal ['a'], star (literal ['b'])], inter []]) =
      some (concat [literal ['a'], star (literal ['b']), compl none]) := by
  have h : (concat [concat [literal ['a'], star (literal ['b'])], inter []]).weight ≤ 11 := by
    decide
  have hsimplify : (concat [concat [literal ['a'], star (literal ['b'])], inter []]).simplify =
      concat [literal ['a'], star (literal ['b']), compl none] := by cbv
  rw [← hsimplify]
  exact ⟨h, resimplify_eq_some_simplify _ 11 h⟩

end Term

end RegLan
