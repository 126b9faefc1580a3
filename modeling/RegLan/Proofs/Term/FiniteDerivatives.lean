import Mathlib.Data.Set.Finite.Lattice
import RegLan.Proofs.Term.Spine
import RegLan.Term.Derivative

/-! A term has finitely many derivatives, if each is simplified before the next is taken.

A derivative of a concatenation is a union of concatenations, each of which has for its spine a
derivative of one operand followed by the operands after that. So the terms to count are the
unions over a finite set of spines. Such a set has to be closed under taking the first term of
a spine off and under putting a derivative in its place. Since a union, an intersection or a
complement may fall apart when it is simplified, its operands have to be covered as well. -/

namespace RegLan

namespace Term

/-- What may take the place of a term at the head of a spine. -/
inductive Successor : Term → Term → Prop
  | deriv (c : Char) (t : Term) : Successor t (deriv c t).simplify
  | union {t : Term} {ts : List Term} : t ∈ ts → Successor (.union ts) t
  | inter {t : Term} {ts : List Term} : t ∈ ts → Successor (.inter ts) t
  | compl (t : Term) : Successor (.compl t) t

structure Closed (S : Set (List Term)) : Prop where
  nil : [] ∈ S
  tail : ∀ {t r}, t :: r ∈ S → r ∈ S
  step : ∀ {t r u}, t :: r ∈ S → Successor t u → u ≠ .none → spine u ++ r ∈ S

/-- The normal forms whose alternatives have their spines in `S`. -/
def states (S : Set (List Term)) : Set Term :=
  {t | Normal t ∧ ∀ u ∈ unionOperands t, spine u ∈ S}

variable {S T : Set (List Term)} {t u : Term} {ts : List Term} {c : Char}

theorem Closed.step_singleton (hS : Closed S) (h : [t] ∈ S) (hu : Successor t u)
    (hnone : u ≠ .none) : spine u ∈ S := by
  have hspine := hS.step h hu hnone
  rwa [List.append_nil] at hspine

theorem none_mem_states : Term.none ∈ states S := ⟨.none, nofun⟩

theorem Closed.mem_states (hS : Closed S) (ht : Normal t) (h : spine t ∈ S) : t ∈ states S := by
  refine ⟨ht, fun u hu => ?_⟩
  have hu' := (ht.of_mem_unionOperands hu).2
  cases ht with
  | none => cases hu
  | union =>
    rw [spine_eq_singleton (t := .union _) nofun nofun] at h
    exact hS.step_singleton h (.union hu) hu'.ne_none
  | _ =>
    obtain rfl := List.mem_singleton.1 hu
    exact h

theorem normUnion_mem_states (h : ∀ t ∈ ts, t ∈ states S) : normUnion ts ∈ states S := by
  have hnormal : ∀ t ∈ ts, Normal t := fun t ht => (h t ht).1
  refine ⟨normal_normUnion hnormal, fun u hu => ?_⟩
  rw [unionOperands_normUnion hnormal, mem_toSet] at hu
  obtain ⟨t, ht, hut⟩ := List.mem_flatMap.1 hu
  exact (h t ht).2 u hut

theorem Closed.spine_deriv_append (hS : Closed S) {r : List Term} (h : spread t ++ r ∈ S)
    (hnone : (deriv c t).simplify ≠ .none) : spine (deriv c t).simplify ++ r ∈ S := by
  by_cases hlit : t.IsLiteral
  · obtain ⟨w, rfl⟩ := hlit
    cases w with
    | nil => exact absurd rfl hnone
    | cons a w =>
      rw [deriv] at hnone ⊢
      split at hnone
      · rename_i hca
        rw [if_pos hca, simplify, spine_literal]
        exact hS.tail h
      · exact absurd rfl hnone
  · rw [spread_eq_singleton hlit] at h
    exact hS.step h (.deriv c t) hnone

/-- One summand of the derivative of a concatenation. -/
theorem Closed.concat_deriv_mem_states (hS : Closed S) (hts : FactorList ts)
    (h : spread t ++ ts.flatMap spread ∈ S) :
    (concat [deriv c t, .concat ts]).simplify ∈ states S := by
  have hsimp : (concat [deriv c t, .concat ts]).simplify =
      normConcat [(deriv c t).simplify, normConcat ts] := by
    rw [simplify_concat_pair, simplify_concat,
      map_simplify_eq_self fun t ht => (hts.normal t ht).simplify_eq_self]
  by_cases hnone : (concat [deriv c t, .concat ts]).simplify = .none
  · rw [hnone]
    exact none_mem_states
  · refine hS.mem_states (normal_simplify _) ?_
    rw [hsimp] at hnone ⊢
    have hderiv : (deriv c t).simplify ≠ .none := by
      intro heq
      exact hnone (normConcat_eq_none (by simp [heq]))
    have hrest : normConcat ts ≠ .none := by
      intro heq
      exact hnone (normConcat_eq_none (by simp [heq]))
    rw [spine_normConcat (by simp [normal_simplify, normal_normConcat hts.normal]) hnone,
      List.flatMap_cons, List.flatMap_singleton, spine_normConcat hts.normal hrest,
      flatMap_spine_eq fun t ht => (hts.factor t ht).ne_concat]
    exact hS.spine_deriv_append h hderiv

/-- The tails of a list of factors have their spines in the set too, since the factors before them
can be taken off. -/
theorem Closed.append_right (hS : Closed S) {l r : List Term} (h : l ++ r ∈ S) : r ∈ S := by
  induction l with
  | nil => exact h
  | cons t l ih => exact ih (hS.tail h)

theorem Closed.derivConcat_mem_states (hS : Closed S) (hts : FactorList ts)
    (h : ts.flatMap spread ∈ S) : (derivConcat c ts).simplify ∈ states S := by
  induction ts with
  | nil => exact none_mem_states
  | cons t ts ih =>
    rw [List.flatMap_cons] at h
    have hhead := hS.concat_deriv_mem_states (c := c) hts.of_cons h
    rw [derivConcat]
    split
    · rw [simplify_union_pair]
      apply normUnion_mem_states
      have hrest := ih hts.of_cons (hS.append_right h)
      simp [hhead, hrest]
    · exact hhead

theorem Closed.deriv_mem_states_of_spine (hS : Closed S) (ht : Normal t) (h : spine t ∈ S) :
    (deriv c t).simplify ∈ states S := by
  by_cases hconcat : ∃ ts, t = .concat ts
  · obtain ⟨ts, rfl⟩ := hconcat
    cases ht with
    | concat _ hts hfactor hapart => exact hS.derivConcat_mem_states ⟨hts, hfactor, hapart⟩ h
  · rw [not_exists] at hconcat
    by_cases hnone : (deriv c t).simplify = .none
    · rw [hnone]
      exact none_mem_states
    · refine hS.mem_states (normal_simplify _) ?_
      rw [spine_eq_spread hconcat, ← List.append_nil (spread t)] at h
      have hspine := hS.spine_deriv_append h hnone
      rwa [List.append_nil] at hspine

/-- One step stays among the states of a closed set. -/
theorem Closed.deriv_mem_states (hS : Closed S) (c : Char) (h : t ∈ states S) :
    (deriv c t).simplify ∈ states S := by
  obtain ⟨ht, hoperands⟩ := h
  have hself := ht
  cases ht with
  | none => exact none_mem_states
  | union _ hts _ _ =>
    rw [deriv, derivAll_eq_map, simplify_union, List.map_map]
    apply normUnion_mem_states
    rw [List.forall_mem_map]
    exact fun t ht => hS.deriv_mem_states_of_spine (hts t ht) (hoperands t ht)
  | _ => exact hS.deriv_mem_states_of_spine hself (hoperands _ List.mem_cons_self)

theorem finite_ascending {P : Set Term} (hP : P.Finite) :
    {ts : List Term | Ascending ts ∧ ∀ t ∈ ts, t ∈ P}.Finite := by
  refine Set.Finite.of_finite_image (f := fun ts => {t | t ∈ ts}) ?_ ?_
  · refine hP.finite_subsets.subset ?_
    rintro _ ⟨ts, hts, rfl⟩
    exact hts.2
  · intro ts hts us hus heq
    exact hts.1.eq_of_mem_iff hus.1 fun t => iff_of_eq (congrFun heq t)

theorem unionOf_unionOperands (h : Normal t) : unionOf (unionOperands t) = t := by
  cases h with
  | union hlen => exact unionOf_eq_union hlen
  | _ => rfl

theorem ascending_unionOperands (h : Normal t) : Ascending (unionOperands t) := by
  cases h with
  | none => exact List.Pairwise.nil
  | union _ _ _ hasc => exact hasc
  | _ => exact List.pairwise_singleton _ _

theorem finite_states (hS : S.Finite) : (states S).Finite := by
  have hP : {t | Normal t ∧ spine t ∈ S}.Finite := by
    refine (hS.image fun l => concatOf (l.foldr joinOperand [])).subset ?_
    intro t ht
    exact ⟨spine t, ht.2, concatOf_spine ht.1⟩
  refine ((finite_ascending hP).image unionOf).subset ?_
  intro t ht
  refine ⟨unionOperands t, ⟨ascending_unionOperands ht.1, fun u hu => ?_⟩,
    unionOf_unionOperands ht.1⟩
  exact ⟨(ht.1.of_mem_unionOperands hu).1, ht.2 u hu⟩

theorem closed_nil : Closed {[]} where
  nil := rfl
  tail := nofun
  step := nofun

theorem Closed.union (hS : Closed S) (hT : Closed T) : Closed (S ∪ T) where
  nil := .inl hS.nil
  tail := Or.imp hS.tail hT.tail
  step h hu hnone := h.imp (hS.step · hu hnone) (hT.step · hu hnone)

/-- Terms may be added if their successors are covered. -/
theorem Closed.union_singletons {A : Set Term} (hS : Closed S)
    (h : ∀ t ∈ A, ∀ u, Successor t u → u ≠ .none → spine u ∈ S ∪ (fun t => [t]) '' A) :
    Closed (S ∪ (fun t => [t]) '' A) where
  nil := .inl hS.nil
  tail := by
    rintro t r (hr | ⟨a, -, heq⟩)
    · exact .inl (hS.tail hr)
    · cases heq
      exact .inl hS.nil
  step := by
    rintro t r u (hr | ⟨a, ha, heq⟩) hu hnone
    · exact .inl (hS.step hr hu hnone)
    · cases heq
      rw [List.append_nil]
      exact h t ha u hu hnone

/-- The set with its states as terms on their own. -/
def completion (S : Set (List Term)) : Set (List Term) := S ∪ (fun t => [t]) '' states S

theorem spine_mem_completion (h : t ∈ states S) : spine t ∈ completion S := by
  obtain ⟨ht, hoperands⟩ := id h
  cases ht with
  | none => exact .inr ⟨.none, h, rfl⟩
  | union => exact .inr ⟨.union _, h, rfl⟩
  | _ => exact .inl (hoperands _ List.mem_cons_self)

theorem closed_completion (hS : Closed S) : Closed (completion S) := by
  apply hS.union_singletons
  intro t ht u hu hnone
  cases hu with
  | deriv c => exact spine_mem_completion (hS.deriv_mem_states c ht)
  | union hu => exact .inl (ht.2 u hu)
  | inter hu => exact .inl (hS.step_singleton (ht.2 _ List.mem_cons_self) (.inter hu) hnone)
  | compl => exact .inl (hS.step_singleton (ht.2 _ List.mem_cons_self) (.compl u) hnone)

theorem finite_completion (hS : S.Finite) : (completion S).Finite :=
  hS.union ((finite_states hS).image _)

/-- The spines of `S` followed by `r`, with what follows from `r` alone. -/
theorem Closed.append {r : List Term} (hS : Closed S) (hr : r ∈ T) (hnil : [] ∈ T)
    (htail : ∀ {t r}, t :: r ∈ T → r ∈ T)
    (hstep : ∀ {t q u}, t :: q ∈ T → Successor t u → u ≠ .none →
      spine u ++ q ∈ (· ++ r) '' S ∪ T) : Closed ((· ++ r) '' S ∪ T) where
  nil := .inr hnil
  tail := by
    rintro t q (⟨l, hl, heq⟩ | hq)
    · cases l with
      | nil =>
        obtain rfl : r = t :: q := heq
        exact .inr (htail hr)
      | cons a l =>
        cases heq
        exact .inl ⟨l, hS.tail hl, rfl⟩
    · exact .inr (htail hq)
  step := by
    rintro t q u (⟨l, hl, heq⟩ | hq) hu hnone
    · cases l with
      | nil =>
        obtain rfl : r = t :: q := heq
        exact hstep hr hu hnone
      | cons a l =>
        cases heq
        exact .inl ⟨spine u ++ l, hS.step hl hu hnone, List.append_assoc _ _ _⟩
    · exact hstep hq hu hnone

/-- The list is in some finite closed set. -/
def Bounded (l : List Term) : Prop := ∃ S : Set (List Term), S.Finite ∧ Closed S ∧ l ∈ S

theorem bounded_nil : Bounded [] := ⟨{[]}, Set.finite_singleton _, closed_nil, rfl⟩

theorem Bounded.append {l r : List Term} (hl : Bounded l) (hr : Bounded r) : Bounded (l ++ r) := by
  obtain ⟨S, hSfin, hS, hl⟩ := hl
  obtain ⟨T, hTfin, hT, hr⟩ := hr
  exact ⟨(· ++ r) '' S ∪ T, (hSfin.image _).union hTfin,
    hS.append hr hT.nil hT.tail fun h hu hnone => .inr (hT.step h hu hnone), .inl ⟨l, hl, rfl⟩⟩

theorem exists_closed_of_bounded (h : ∀ t ∈ ts, Bounded (spine t)) :
    ∃ S : Set (List Term), S.Finite ∧ Closed S ∧ ∀ t ∈ ts, spine t ∈ S := by
  induction ts with
  | nil => exact ⟨{[]}, Set.finite_singleton _, closed_nil, nofun⟩
  | cons t ts ih =>
    rw [List.forall_mem_cons] at h
    obtain ⟨S, hSfin, hS, ht⟩ := h.1
    obtain ⟨T, hTfin, hT, hts⟩ := ih h.2
    refine ⟨S ∪ T, hSfin.union hTfin, hS.union hT, ?_⟩
    rw [List.forall_mem_cons]
    exact ⟨.inl ht, fun u hu => .inr (hts u hu)⟩

theorem bounded_flatMap (h : ∀ t ∈ ts, Bounded (spine t)) : Bounded (ts.flatMap spine) := by
  induction ts with
  | nil => exact bounded_nil
  | cons t ts ih =>
    rw [List.forall_mem_cons] at h
    exact h.1.append (ih h.2)

theorem Closed.bounded_singleton (hS : Closed S) (hfin : S.Finite)
    (h : ∀ u, Successor t u → u ≠ .none → spine u ∈ S) : Bounded [t] := by
  refine ⟨S ∪ (fun t => [t]) '' {t}, hfin.union ((Set.finite_singleton t).image _),
    hS.union_singletons ?_, .inr ⟨t, rfl, rfl⟩⟩
  rintro _ rfl u hu hnone
  exact .inl (h u hu hnone)

/-- A term that is used up by one character. -/
theorem bounded_of_successor (h : ∀ u, Successor t u → u = .none ∨ u = epsilon) : Bounded [t] := by
  refine closed_nil.bounded_singleton (Set.finite_singleton _) ?_
  intro u hu hnone
  rw [(h u hu).resolve_left hnone]
  rfl

theorem bounded_none : Bounded [.none] := by
  apply bounded_of_successor
  intro u hu
  cases hu with
  | deriv => exact .inl rfl

theorem bounded_range (lo hi : Char) : Bounded [.range lo hi] := by
  apply bounded_of_successor
  intro u hu
  cases hu with
  | deriv c =>
    rw [deriv]
    split
    · exact .inr rfl
    · exact .inl rfl

theorem bounded_char (a : Char) : Bounded [.literal [a]] := by
  apply bounded_of_successor
  intro u hu
  cases hu with
  | deriv c =>
    rw [deriv]
    split
    · exact .inr rfl
    · exact .inl rfl

theorem bounded_literal (w : Word) : Bounded (spine (.literal w)) := by
  rw [spine_literal]
  induction w with
  | nil => exact bounded_nil
  | cons a w ih => exact (bounded_char a).append ih

theorem bounded_union (ht : Normal (.union ts)) (h : ∀ t ∈ ts, Bounded (spine t)) :
    Bounded (spine (.union ts)) := by
  obtain ⟨S, hfin, hS, hts⟩ := exists_closed_of_bounded h
  exact ⟨completion S, finite_completion hfin, closed_completion hS, spine_mem_completion ⟨ht, hts⟩⟩

/-- The derivative of a term that something follows. -/
theorem spine_concat_deriv_mem (hS : Closed S) (ht : Normal t) (h : spine t ∈ S)
    (hnone : (concat [deriv c t, u]).simplify ≠ .none) :
    spine (concat [deriv c t, u]).simplify ∈ (· ++ spine u.simplify) '' completion S := by
  rw [simplify_concat_pair] at hnone ⊢
  refine ⟨_, spine_mem_completion (hS.deriv_mem_states_of_spine (c := c) ht h), ?_⟩
  rw [spine_normConcat (by simp [normal_simplify]) hnone, List.flatMap_cons, List.flatMap_singleton]

/-- A star comes back after each round of its body. -/
theorem exists_closed_star (ht : Normal (.star t)) (h : Bounded (spine t)) :
    ∃ S : Set (List Term), S.Finite ∧ Closed S ∧ [.star t] ∈ S ∧
      ∀ c, (concat [deriv c t, .star t]).simplify ≠ .none →
        spine (concat [deriv c t, .star t]).simplify ∈ S := by
  obtain ⟨S, hfin, hS, hspine⟩ := h
  have hround : ∀ c, (concat [deriv c t, .star t]).simplify ≠ .none →
      spine (concat [deriv c t, .star t]).simplify ∈ (· ++ [.star t]) '' completion S := by
    intro c hnone
    cases ht with
    | star ht hbody =>
      have hmem := spine_concat_deriv_mem hS ht hspine hnone
      rwa [Normal.simplify_eq_self (.star ht hbody)] at hmem
  refine ⟨(· ++ [.star t]) '' completion S ∪ {[], [Term.star t]},
    ((finite_completion hfin).image _).union (Set.toFinite _), ?_, .inr (.inr rfl),
    fun c hnone => .inl (hround c hnone)⟩
  apply (closed_completion hS).append
  · exact .inr rfl
  · exact .inl rfl
  · rintro u r (hr | hr)
    · cases hr
    · cases hr
      exact .inl rfl
  · rintro u r v (hr | hr) hv hnone
    · cases hr
    · cases hr
      cases hv with
      | deriv c =>
        rw [List.append_nil]
        exact .inl (hround c hnone)

theorem bounded_star (ht : Normal (.star t)) (h : Bounded (spine t)) :
    Bounded [.star t] := by
  obtain ⟨S, hfin, hS, hstar, -⟩ := exists_closed_star ht h
  exact ⟨S, hfin, hS, hstar⟩

theorem bounded_plus (ht : Normal (.plus t)) (h : Bounded (spine t)) :
    Bounded [.plus t] := by
  cases ht with
  | plus ht hbody =>
    obtain ⟨S, hfin, hS, -, hround⟩ := exists_closed_star (.star ht hbody) h
    refine hS.bounded_singleton hfin ?_
    intro u hu hnone
    cases hu with
    | deriv c => exact hround c hnone

theorem bounded_opt (ht : Normal (.opt t)) (h : Bounded (spine t)) : Bounded [.opt t] := by
  obtain ⟨S, hfin, hS, hspine⟩ := h
  refine (closed_completion hS).bounded_singleton (finite_completion hfin) ?_
  intro u hu hnone
  cases ht with
  | opt ht =>
    cases hu with
    | deriv c =>
      rw [deriv]
      exact spine_mem_completion (hS.deriv_mem_states_of_spine ht hspine)

/-- A loop counts down. -/
theorem bounded_normLoop (ht : Normal t) (h : Bounded (spine t)) (min max : ℕ) :
    Bounded (spine (normLoop t min max)) := by
  induction max generalizing min with
  | zero =>
    unfold normLoop
    split
    · exact bounded_none
    · rw [if_pos (.inl rfl)]
      exact bounded_nil
  | succ max ih =>
    unfold normLoop
    split_ifs with hlt hmax hnone hmin hone
    · exact bounded_none
    · exact bounded_nil
    · exact bounded_nil
    · exact bounded_none
    · exact h
    · obtain ⟨S, hSfin, hS, hspine⟩ := h
      obtain ⟨T, hTfin, hT, hrest⟩ := ih (min - 1)
      have hST := (closed_completion hS).append hrest hT.nil hT.tail
        fun hq hu hnone => .inr (hT.step hq hu hnone)
      refine hST.bounded_singleton (((finite_completion hSfin).image _).union hTfin) ?_
      intro u hu hnone
      cases hu with
      | deriv c =>
        rw [deriv, if_neg (by omega)] at hnone ⊢
        have hmem := spine_concat_deriv_mem hS ht hspine hnone
        have hloop : (loop t (min - 1) max).simplify = normLoop t (min - 1) max := by
          rw [simplify, ht.simplify_eq_self]
        rw [Nat.add_sub_cancel] at hmem ⊢
        rw [hloop] at hmem
        exact .inl hmem

theorem bounded_compl (ht : Normal t) (h : Bounded (spine t)) : Bounded [.compl t] := by
  obtain ⟨S, hfin, hS, hspine⟩ := h
  have hclosed : Closed (completion S ∪ (fun t => [t]) '' (compl '' states S)) := by
    apply (closed_completion hS).union_singletons
    rintro _ ⟨s, hs, rfl⟩ u hu hnone
    cases hu with
    | deriv c =>
      have hderiv := hS.deriv_mem_states c hs
      rw [deriv, simplify] at hnone ⊢
      by_cases hcompl : ∃ v, (deriv c s).simplify = .compl v
      · obtain ⟨v, hv⟩ := hcompl
        rw [hv] at hderiv hnone ⊢
        exact .inl (.inl (hS.step_singleton (hderiv.2 _ List.mem_cons_self) (.compl v) hnone))
      · rw [normCompl_eq_compl (not_exists.1 hcompl)]
        exact .inr ⟨_, ⟨_, hderiv, rfl⟩, rfl⟩
    | compl => exact .inl (spine_mem_completion hs)
  exact ⟨_, (finite_completion hfin).union (((finite_states hfin).image _).image _), hclosed,
    .inr ⟨_, ⟨t, hS.mem_states ht hspine, rfl⟩, rfl⟩⟩

theorem Closed.mem_states_of_mem_interOperands (hS : Closed S) (ht : t ∈ states S)
    (hnone : t ≠ .none) (hu : u ∈ interOperands t) : u ∈ states S := by
  obtain ⟨hu', hconj⟩ := ht.1.of_mem_interOperands hnone hu
  by_cases hinter : ∃ us, t = .inter us
  · obtain ⟨us, rfl⟩ := hinter
    have hspine := hS.step_singleton (ht.2 _ List.mem_cons_self) (.inter hu) hconj.ne_none
    exact hS.mem_states hu' hspine
  · rw [interOperands_eq_self ⟨hnone, not_exists.1 hinter⟩] at hu
    exact List.mem_singleton.1 hu ▸ ht

/-- What is left of an intersection is one of the states or an intersection of them. -/
theorem Closed.normInter_cases (hS : Closed S) (h : ∀ t ∈ ts, t ∈ states S) (hts : ts ≠ [])
    (hnone : normInter ts ≠ .none) :
    normInter ts ∈ states S ∨ ∃ us, normInter ts = .inter us ∧ ∀ u ∈ us, u ∈ states S := by
  rw [normInter] at hnone ⊢
  split at hnone
  · exact absurd rfl hnone
  · rename_i hany
    rw [if_neg hany]
    have hstates : ∀ u ∈ toSet (ts.flatMap interOperands), u ∈ states S := by
      intro u hu
      obtain ⟨t, ht, hut⟩ := List.mem_flatMap.1 (mem_toSet.1 hu)
      exact hS.mem_states_of_mem_interOperands (h t ht) (ne_none_of_any_isNone hany ht) hut
    have hne := toSet_interOperands_ne_nil (fun t ht => (h t ht).1) hts
    unfold interOf
    split
    · rename_i heq
      exact absurd heq hne
    · rename_i u heq
      exact .inl (hstates u (heq ▸ List.mem_cons_self))
    · exact .inr ⟨_, rfl, hstates⟩

/-- An intersection is known by its operands, which are states of the set. -/
theorem bounded_inter (ht : Normal (.inter ts)) (h : ∀ t ∈ ts, Bounded (spine t)) :
    Bounded [.inter ts] := by
  obtain ⟨S, hfin, hS, hspine⟩ := exists_closed_of_bounded h
  let A : Set Term := inter '' {us | Normal (.inter us) ∧ ∀ u ∈ us, u ∈ states S}
  have hA : A.Finite := by
    refine ((finite_ascending (finite_states hfin)).subset ?_).image _
    rintro us ⟨hus, hstates⟩
    cases hus with
    | inter _ _ _ hasc => exact ⟨hasc, hstates⟩
  have hclosed : Closed (completion S ∪ (fun t => [t]) '' A) := by
    apply (closed_completion hS).union_singletons
    rintro _ ⟨us, ⟨hus, hstates⟩, rfl⟩ u hu hnone
    cases hu with
    | deriv c =>
      have hnormal := normal_simplify (deriv c (.inter us))
      have hne : us.map (simplify ∘ deriv c) ≠ [] := by
        rw [ne_eq, List.map_eq_nil_iff]
        exact interOperands_ne_nil hus
      rw [deriv, derivAll_eq_map, simplify_inter, List.map_map] at hnone hnormal ⊢
      have hderiv : ∀ v ∈ us.map (simplify ∘ deriv c), v ∈ states S :=
        List.forall_mem_map.2 fun v hv => hS.deriv_mem_states c (hstates v hv)
      rcases hS.normInter_cases hderiv hne hnone with h | ⟨vs, heq, hvs⟩
      · exact .inl (spine_mem_completion h)
      · rw [heq] at hnormal ⊢
        exact .inr ⟨_, ⟨vs, ⟨hnormal, hvs⟩, rfl⟩, rfl⟩
    | inter hu => exact .inl (spine_mem_completion (hstates u hu))
  have hstates : ∀ t ∈ ts, t ∈ states S := by
    intro t ht'
    cases ht with
    | inter _ hts => exact hS.mem_states (hts t ht') (hspine t ht')
  exact ⟨_, (finite_completion hfin).union (hA.image _), hclosed,
    .inr ⟨_, ⟨ts, ⟨ht, hstates⟩, rfl⟩, rfl⟩⟩

theorem Normal.bounded (ht : Normal t) : Bounded (spine t) := by
  induction ht with
  | none => exact bounded_none
  | literal w => exact bounded_literal w
  | @range lo hi _ => exact bounded_range lo hi
  | concat _ _ hfactor _ ih =>
    have hspine := bounded_flatMap ih
    rwa [flatMap_spine_eq fun t ht => (hfactor t ht).ne_concat] at hspine
  | union hlen hts halt hasc ih => exact bounded_union (.union hlen hts halt hasc) ih
  | inter hlen hts hconj hasc ih => exact bounded_inter (.inter hlen hts hconj hasc) ih
  | compl ht _ ih => exact bounded_compl ht ih
  | star ht hbody ih => exact bounded_star (.star ht hbody) ih
  | plus ht hbody ih => exact bounded_plus (.plus ht hbody) ih
  | opt ht hbody ih => exact bounded_opt (.opt ht hbody) ih
  | @loop t min max ht hnone hepsilon hle hmax hone ih =>
    have hspine := bounded_normLoop ht ih min max
    rwa [normLoop_eq_loop hnone hepsilon hle hmax hone] at hspine

theorem Closed.derivatives_subset_states (hS : Closed S) (w : Word) (h : t.simplify ∈ states S) :
    ∀ u ∈ derivatives simplify t w, u ∈ states S := by
  induction w generalizing t with
  | nil =>
    rw [derivatives, List.forall_mem_singleton]
    exact h
  | cons c w ih =>
    rw [derivatives, List.forall_mem_cons]
    exact ⟨h, ih (hS.deriv_mem_states c h)⟩

/-- There are finitely many terms among which every run of simplified derivatives stays, whatever
its word. -/
theorem exists_list_derivatives_subset (t : Term) :
    ∃ us : List Term, ∀ w, derivatives simplify t w ⊆ us := by
  obtain ⟨S, hfin, hS, hspine⟩ := (normal_simplify t).bounded
  have hstates := finite_states hfin
  refine ⟨hstates.toFinset.toList, fun w u hu => ?_⟩
  rw [Finset.mem_toList, hstates.mem_toFinset]
  exact hS.derivatives_subset_states w (hS.mem_states (normal_simplify t) hspine) u hu

end Term

end RegLan
