import RegLan.Proofs.Term.Simplify

/-! Normal forms. Simplifying a term gives one, and a term that is one already stays as it is, so
simplifying twice is simplifying once. -/

namespace RegLan

namespace Term

def IsLiteral (t : Term) : Prop := ∃ w, t = .literal w

/-- An operand that a concatenation keeps. -/
structure IsFactor (t : Term) : Prop where
  ne_none : t ≠ .none
  ne_epsilon : t ≠ epsilon
  ne_concat : ∀ ts, t ≠ .concat ts

/-- An operand that a union keeps. -/
structure IsAlternative (t : Term) : Prop where
  ne_none : t ≠ .none
  ne_union : ∀ ts, t ≠ .union ts

/-- An operand that an intersection keeps. -/
structure IsConjunct (t : Term) : Prop where
  ne_none : t ≠ .none
  ne_inter : ∀ ts, t ≠ .inter ts

/-- An operand that a star, a plus or an option keeps. -/
structure IsBody (t : Term) : Prop where
  ne_none : t ≠ .none
  ne_epsilon : t ≠ epsilon
  ne_star : ∀ u, t ≠ .star u
  ne_plus : ∀ u, t ≠ .plus u
  ne_opt : ∀ u, t ≠ .opt u

/-- No literal stands next to another. -/
def LiteralsApart (ts : List Term) : Prop := ts.IsChain fun t u => ¬(t.IsLiteral ∧ u.IsLiteral)

/-- No rule of simplification applies to the term or to a part of it. -/
inductive Normal : Term → Prop
  | none : Normal .none
  | literal (w : Word) : Normal (.literal w)
  | range {lo hi : Char} : lo ≤ hi → Normal (.range lo hi)
  | concat {ts : List Term} : 2 ≤ ts.length → (∀ t ∈ ts, Normal t) → (∀ t ∈ ts, IsFactor t) →
      LiteralsApart ts → Normal (.concat ts)
  | union {ts : List Term} : 2 ≤ ts.length → (∀ t ∈ ts, Normal t) → (∀ t ∈ ts, IsAlternative t) →
      Ascending ts → Normal (.union ts)
  | inter {ts : List Term} : 2 ≤ ts.length → (∀ t ∈ ts, Normal t) → (∀ t ∈ ts, IsConjunct t) →
      Ascending ts → Normal (.inter ts)
  | compl {t : Term} : Normal t → (∀ u, t ≠ .compl u) → Normal (.compl t)
  | star {t : Term} : Normal t → IsBody t → Normal (.star t)
  | plus {t : Term} : Normal t → IsBody t → Normal (.plus t)
  | opt {t : Term} : Normal t → IsBody t → Normal (.opt t)
  | loop {t : Term} {min max : ℕ} : Normal t → t ≠ .none → t ≠ epsilon → min ≤ max → max ≠ 0 →
      ¬(min = 1 ∧ max = 1) → Normal (.loop t min max)

variable {t u : Term} {ts us : List Term}

theorem isNone_eq_false (h : t ≠ .none) : t.isNone = false := by
  cases t with
  | none => exact absurd rfl h
  | _ => rfl

theorem any_isNone_eq_false (h : ∀ t ∈ ts, t ≠ .none) : ts.any isNone = false := by
  rw [List.any_eq_false]
  intro t ht
  rw [isNone_eq_false (h t ht)]
  exact Bool.false_ne_true

theorem ne_none_of_any_isNone (h : ¬ts.any isNone = true) (ht : t ∈ ts) : t ≠ .none := by
  rintro rfl
  exact h (List.any_eq_true.2 ⟨.none, ht, rfl⟩)

theorem concatOperands_eq_self (h : ∀ ts, t ≠ .concat ts) : concatOperands t = [t] := by
  cases t with
  | concat ts => exact absurd rfl (h ts)
  | _ => rfl

theorem flatMap_concatOperands_eq_self (h : ∀ t ∈ ts, ∀ us, t ≠ .concat us) :
    ts.flatMap concatOperands = ts := by
  rw [List.flatMap_congr fun t ht => concatOperands_eq_self (h t ht), List.flatMap_singleton']

theorem two_le_length {α : Type} {l : List α} (hnil : l ≠ []) (hsingle : ∀ a, l ≠ [a]) :
    2 ≤ l.length := by
  match l with
  | [] => exact absurd rfl hnil
  | [a] => exact absurd rfl (hsingle a)
  | _ :: _ :: _ => simp

theorem concatOf_eq_concat (h : 2 ≤ ts.length) : concatOf ts = .concat ts := by
  match ts with
  | _ :: _ :: _ => rfl

theorem joinOperand_eq_cons (ht : t ≠ epsilon) (h : LiteralsApart (t :: ts)) :
    joinOperand t ts = t :: ts := by
  unfold joinOperand
  split
  · exact absurd rfl ht
  · rename_i v w us _
    exact absurd ⟨⟨v, rfl⟩, ⟨w, rfl⟩⟩ (List.isChain_cons_cons.1 h).1
  · rfl

theorem foldr_joinOperand_eq_self (hne : ∀ t ∈ ts, t ≠ epsilon) (h : LiteralsApart ts) :
    ts.foldr joinOperand [] = ts := by
  induction ts with
  | nil => rfl
  | cons t ts ih =>
    rw [List.forall_mem_cons] at hne
    rw [List.foldr_cons, ih hne.2 h.tail, joinOperand_eq_cons hne.1 h]

theorem normConcat_eq_concat (hlen : 2 ≤ ts.length) (h : ∀ t ∈ ts, IsFactor t)
    (hapart : LiteralsApart ts) : normConcat ts = .concat ts := by
  rw [normConcat, flatMap_concatOperands_eq_self fun t ht => (h t ht).ne_concat,
    any_isNone_eq_false fun t ht => (h t ht).ne_none,
    foldr_joinOperand_eq_self (fun t ht => (h t ht).ne_epsilon) hapart, concatOf_eq_concat hlen]
  rfl

/-- A list that a concatenation may have for its operands, if it is long enough. -/
structure FactorList (ts : List Term) : Prop where
  normal : ∀ t ∈ ts, Normal t
  factor : ∀ t ∈ ts, IsFactor t
  apart : LiteralsApart ts

theorem FactorList.cons (ht : Normal t) (hfactor : IsFactor t) (hts : FactorList ts)
    (hapart : LiteralsApart (t :: ts)) : FactorList (t :: ts) where
  normal := List.forall_mem_cons.2 ⟨ht, hts.normal⟩
  factor := List.forall_mem_cons.2 ⟨hfactor, hts.factor⟩
  apart := hapart

theorem FactorList.of_cons (h : FactorList (t :: ts)) : FactorList ts where
  normal := (List.forall_mem_cons.1 h.normal).2
  factor := (List.forall_mem_cons.1 h.factor).2
  apart := h.apart.tail

theorem isFactor_literal {w : Word} (h : w ≠ []) : IsFactor (.literal w) where
  ne_none := nofun
  ne_epsilon := fun heq => h (literal.inj heq)
  ne_concat := nofun

/-- What stands next to a literal may stand next to any other. -/
theorem LiteralsApart.exchange {v w : Word} (h : LiteralsApart (.literal v :: ts)) :
    LiteralsApart (.literal w :: ts) := by
  cases ts with
  | nil => exact List.isChain_singleton _
  | cons u us =>
    obtain ⟨hu, hus⟩ := List.isChain_cons_cons.1 h
    exact List.isChain_cons_cons.2 ⟨fun h => hu ⟨⟨v, rfl⟩, h.2⟩, hus⟩

theorem LiteralsApart.cons (h : LiteralsApart ts)
    (hhead : ∀ v w us, t = .literal v → ts = .literal w :: us → False) :
    LiteralsApart (t :: ts) := by
  cases ts with
  | nil => exact List.isChain_singleton _
  | cons u us =>
    refine List.isChain_cons_cons.2 ⟨?_, h⟩
    rintro ⟨⟨v, rfl⟩, ⟨w, rfl⟩⟩
    exact hhead v w us rfl rfl

theorem FactorList.joinOperand (hts : FactorList ts) (ht : Normal t) (hnone : t ≠ .none)
    (hconcat : ∀ us, t ≠ .concat us) : FactorList (joinOperand t ts) := by
  unfold Term.joinOperand
  split
  · exact hts
  · -- only the first literal gets longer, so the next operand still is none
    rename_i v w us hv
    have hvw : v ++ w ≠ [] := fun h => hv (List.append_eq_nil_iff.1 h).1
    exact .cons (.literal _) (isFactor_literal hvw) hts.of_cons hts.apart.exchange
  · rename_i hepsilon hliteral
    exact .cons ht ⟨hnone, hepsilon, hconcat⟩ hts (hts.apart.cons hliteral)

theorem factorList_foldr_joinOperand (h : ∀ t ∈ ts, Normal t) (hnone : ∀ t ∈ ts, t ≠ .none)
    (hconcat : ∀ t ∈ ts, ∀ us, t ≠ .concat us) : FactorList (ts.foldr joinOperand []) := by
  induction ts with
  | nil => exact ⟨nofun, nofun, List.isChain_nil⟩
  | cons t ts ih =>
    rw [List.forall_mem_cons] at h hnone hconcat
    exact (ih h.2 hnone.2 hconcat.2).joinOperand h.1 hnone.1 hconcat.1

theorem FactorList.normal_concatOf (h : FactorList ts) : Normal (concatOf ts) := by
  unfold concatOf
  split
  · exact .literal []
  · exact h.normal _ List.mem_cons_self
  · rename_i hnil hsingle
    exact .concat (two_le_length hnil hsingle) h.normal h.factor h.apart

theorem Normal.of_mem_concatOperands (ht : Normal t) (hu : u ∈ concatOperands t) :
    Normal u ∧ ∀ us, u ≠ .concat us := by
  have hself := ht
  cases ht with
  | concat _ hts hfactor _ => exact ⟨hts u hu, (hfactor u hu).ne_concat⟩
  | _ =>
    obtain rfl := List.mem_singleton.1 hu
    exact ⟨hself, nofun⟩

theorem factorList_of_normal (h : ∀ t ∈ ts, Normal t)
    (hany : ¬(ts.flatMap concatOperands).any isNone = true) :
    FactorList ((ts.flatMap concatOperands).foldr joinOperand []) := by
  have hoperands : ∀ u ∈ ts.flatMap concatOperands, Normal u ∧ ∀ us, u ≠ .concat us := by
    intro u hu
    obtain ⟨t, ht, hut⟩ := List.mem_flatMap.1 hu
    exact (h t ht).of_mem_concatOperands hut
  exact factorList_foldr_joinOperand (fun u hu => (hoperands u hu).1)
    (fun u hu => ne_none_of_any_isNone hany hu) fun u hu => (hoperands u hu).2

theorem normal_normConcat (h : ∀ t ∈ ts, Normal t) : Normal (normConcat ts) := by
  rw [normConcat]
  split
  · exact .none
  · rename_i hany
    exact (factorList_of_normal h hany).normal_concatOf

theorem unionOperands_eq_self (h : IsAlternative t) : unionOperands t = [t] := by
  cases t with
  | none => exact absurd rfl h.ne_none
  | union ts => exact absurd rfl (h.ne_union ts)
  | _ => rfl

theorem unionOf_eq_union (h : 2 ≤ ts.length) : unionOf ts = .union ts := by
  match ts with
  | _ :: _ :: _ => rfl

theorem normUnion_eq_union (hlen : 2 ≤ ts.length) (h : ∀ t ∈ ts, IsAlternative t)
    (hts : Ascending ts) : normUnion ts = .union ts := by
  rw [normUnion, List.flatMap_congr fun t ht => unionOperands_eq_self (h t ht),
    List.flatMap_singleton', hts.toSet_eq, unionOf_eq_union hlen]

theorem normal_unionOf (h : ∀ t ∈ ts, Normal t) (halt : ∀ t ∈ ts, IsAlternative t)
    (hts : Ascending ts) : Normal (unionOf ts) := by
  unfold unionOf
  split
  · exact .none
  · exact h _ List.mem_cons_self
  · rename_i hnil hsingle
    exact .union (two_le_length hnil hsingle) h halt hts

theorem unionOperands_unionOf (h : ∀ t ∈ ts, IsAlternative t) :
    unionOperands (unionOf ts) = ts := by
  unfold unionOf
  split
  · rfl
  · exact unionOperands_eq_self (h _ List.mem_cons_self)
  · rfl

theorem Normal.of_mem_unionOperands (ht : Normal t) (hu : u ∈ unionOperands t) :
    Normal u ∧ IsAlternative u := by
  have hself := ht
  cases ht with
  | none => cases hu
  | union _ hts halt _ => exact ⟨hts u hu, halt u hu⟩
  | _ =>
    obtain rfl := List.mem_singleton.1 hu
    exact ⟨hself, nofun, nofun⟩

theorem alternatives_of_normal (h : ∀ t ∈ ts, Normal t) :
    ∀ u ∈ toSet (ts.flatMap unionOperands), Normal u ∧ IsAlternative u := by
  intro u hu
  obtain ⟨t, ht, hut⟩ := List.mem_flatMap.1 (mem_toSet.1 hu)
  exact (h t ht).of_mem_unionOperands hut

theorem normal_normUnion (h : ∀ t ∈ ts, Normal t) : Normal (normUnion ts) := by
  have hoperands := alternatives_of_normal h
  exact normal_unionOf (fun u hu => (hoperands u hu).1) (fun u hu => (hoperands u hu).2)
    (ascending_toSet _)

/-- What a union contributes to a union around it is what its operands do. -/
theorem unionOperands_normUnion (h : ∀ t ∈ ts, Normal t) :
    unionOperands (normUnion ts) = toSet (ts.flatMap unionOperands) :=
  unionOperands_unionOf fun u hu => (alternatives_of_normal h u hu).2

theorem interOperands_eq_self (h : IsConjunct t) : interOperands t = [t] := by
  cases t with
  | inter ts => exact absurd rfl (h.ne_inter ts)
  | _ => rfl

theorem interOf_eq_inter (h : 2 ≤ ts.length) : interOf ts = .inter ts := by
  match ts with
  | _ :: _ :: _ => rfl

theorem normInter_eq_inter (hlen : 2 ≤ ts.length) (h : ∀ t ∈ ts, IsConjunct t)
    (hts : Ascending ts) : normInter ts = .inter ts := by
  rw [normInter, any_isNone_eq_false fun t ht => (h t ht).ne_none,
    List.flatMap_congr fun t ht => interOperands_eq_self (h t ht), List.flatMap_singleton',
    hts.toSet_eq, interOf_eq_inter hlen]
  rfl

theorem normal_interOf (h : ∀ t ∈ ts, Normal t) (hconj : ∀ t ∈ ts, IsConjunct t)
    (hts : Ascending ts) : Normal (interOf ts) := by
  unfold interOf
  split
  · exact .compl .none nofun
  · exact h _ List.mem_cons_self
  · rename_i hnil hsingle
    exact .inter (two_le_length hnil hsingle) h hconj hts

theorem interOperands_interOf (hts : ts ≠ []) (h : ∀ t ∈ ts, IsConjunct t) :
    interOperands (interOf ts) = ts := by
  unfold interOf
  split
  · exact absurd rfl hts
  · exact interOperands_eq_self (h _ List.mem_cons_self)
  · rfl

theorem Normal.of_mem_interOperands (ht : Normal t) (hnone : t ≠ .none)
    (hu : u ∈ interOperands t) : Normal u ∧ IsConjunct u := by
  have hself := ht
  cases ht with
  | inter _ hts hconj _ => exact ⟨hts u hu, hconj u hu⟩
  | _ =>
    obtain rfl := List.mem_singleton.1 hu
    exact ⟨hself, hnone, nofun⟩

theorem conjuncts_of_normal (h : ∀ t ∈ ts, Normal t) (hany : ¬ts.any isNone = true) :
    ∀ u ∈ toSet (ts.flatMap interOperands), Normal u ∧ IsConjunct u := by
  intro u hu
  obtain ⟨t, ht, hut⟩ := List.mem_flatMap.1 (mem_toSet.1 hu)
  exact (h t ht).of_mem_interOperands (ne_none_of_any_isNone hany ht) hut

theorem normal_normInter (h : ∀ t ∈ ts, Normal t) : Normal (normInter ts) := by
  rw [normInter]
  split
  · exact .none
  · rename_i hany
    have hoperands := conjuncts_of_normal h hany
    exact normal_interOf (fun u hu => (hoperands u hu).1) (fun u hu => (hoperands u hu).2)
      (ascending_toSet _)

theorem interOperands_ne_nil (ht : Normal t) : interOperands t ≠ [] := by
  cases ht with
  | inter hlen =>
    rintro rfl
    cases hlen
  | _ => exact List.cons_ne_nil _ _

theorem toSet_interOperands_ne_nil (h : ∀ t ∈ ts, Normal t) (hts : ts ≠ []) :
    toSet (ts.flatMap interOperands) ≠ [] := by
  obtain ⟨t, ht⟩ := List.exists_mem_of_ne_nil ts hts
  obtain ⟨u, hu⟩ := List.exists_mem_of_ne_nil _ (interOperands_ne_nil (h t ht))
  exact List.ne_nil_of_mem (mem_toSet.2 (List.mem_flatMap.2 ⟨t, ht, hu⟩))

/-- What an intersection contributes to an intersection around it is what its operands do, if it
has any and none of them is `none`. -/
theorem interOperands_normInter (h : ∀ t ∈ ts, Normal t) (hts : ts ≠ [])
    (hany : ¬ts.any isNone = true) :
    interOperands (normInter ts) = toSet (ts.flatMap interOperands) := by
  rw [normInter, if_neg hany]
  exact interOperands_interOf (toSet_interOperands_ne_nil h hts) fun u hu =>
    (conjuncts_of_normal h hany u hu).2

theorem normCompl_eq_compl (h : ∀ u, t ≠ .compl u) : normCompl t = .compl t := by
  cases t with
  | compl t => exact absurd rfl (h t)
  | _ => rfl

theorem normal_normCompl (h : Normal t) : Normal (normCompl t) := by
  unfold normCompl
  split
  · cases h with
    | compl ht _ => exact ht
  · rename_i hcompl
    exact .compl h hcompl

theorem norm_eq_of_isBody (h : IsBody t) :
    normStar t = .star t ∧ normPlus t = .plus t ∧ normOpt t = .opt t := by
  cases t with
  | none => exact absurd rfl h.ne_none
  | literal w =>
    cases w with
    | nil => exact absurd rfl h.ne_epsilon
    | cons c w => exact ⟨rfl, rfl, rfl⟩
  | star u => exact absurd rfl (h.ne_star u)
  | plus u => exact absurd rfl (h.ne_plus u)
  | opt u => exact absurd rfl (h.ne_opt u)
  | _ => exact ⟨rfl, rfl, rfl⟩

theorem normal_normStar (h : Normal t) : Normal (normStar t) := by
  unfold normStar
  split
  · exact .literal []
  · exact .literal []
  · exact h
  · cases h with
    | plus ht hbody => exact .star ht hbody
  · cases h with
    | opt ht hbody => exact .star ht hbody
  · rename_i hnone hepsilon hstar hplus hopt
    exact .star h ⟨hnone, hepsilon, hstar, hplus, hopt⟩

theorem normal_normPlus (h : Normal t) : Normal (normPlus t) := by
  unfold normPlus
  split
  · exact .none
  · exact .literal []
  · exact h
  · exact h
  · cases h with
    | opt ht hbody => exact .star ht hbody
  · rename_i hnone hepsilon hstar hplus hopt
    exact .plus h ⟨hnone, hepsilon, hstar, hplus, hopt⟩

theorem normal_normOpt (h : Normal t) : Normal (normOpt t) := by
  unfold normOpt
  split
  · exact .literal []
  · exact .literal []
  · exact h
  · cases h with
    | plus ht hbody => exact .star ht hbody
  · exact h
  · rename_i hnone hepsilon hstar hplus hopt
    exact .opt h ⟨hnone, hepsilon, hstar, hplus, hopt⟩

theorem normLoop_eq_loop {min max : ℕ} (hnone : t ≠ .none) (hepsilon : t ≠ epsilon)
    (hle : min ≤ max) (hmax : max ≠ 0) (hone : ¬(min = 1 ∧ max = 1)) :
    normLoop t min max = .loop t min max := by
  have hepsilon' : ¬(max = 0 ∨ t.isEpsilon = true) :=
    not_or.2 ⟨hmax, fun h => hepsilon (eq_epsilon_of_isEpsilon h)⟩
  rw [normLoop, if_neg (Nat.not_lt.2 hle), if_neg hepsilon', isNone_eq_false hnone,
    if_neg Bool.false_ne_true, if_neg hone]

theorem normal_normLoop (min max : ℕ) (h : Normal t) : Normal (normLoop t min max) := by
  unfold normLoop
  split_ifs with hlt hmax hnone _ hone
  · exact .none
  · exact .literal []
  · exact .literal []
  · exact .none
  · exact h
  · rw [not_or] at hmax
    refine .loop h ?_ ?_ (Nat.le_of_not_lt hlt) hmax.1 hone
    · rintro rfl
      exact hnone rfl
    · rintro rfl
      exact hmax.2 rfl

theorem simplify_concat_pair (t u : Term) :
    (concat [t, u]).simplify = normConcat [t.simplify, u.simplify] := simplify_concat [t, u]

theorem simplify_union_pair (t u : Term) :
    (union [t, u]).simplify = normUnion [t.simplify, u.simplify] := simplify_union [t, u]

theorem normal_simplify (t : Term) : Normal t.simplify := by
  induction t with
  | none => exact .none
  | literal w => exact .literal w
  | range lo hi =>
    rw [simplify, normRange]
    split
    · rename_i h
      exact .range h
    · exact .none
  | concat ts ih =>
    rw [simplify_concat]
    exact normal_normConcat (List.forall_mem_map.2 ih)
  | union ts ih =>
    rw [simplify_union]
    exact normal_normUnion (List.forall_mem_map.2 ih)
  | inter ts ih =>
    rw [simplify_inter]
    exact normal_normInter (List.forall_mem_map.2 ih)
  | compl t ih => exact normal_normCompl ih
  | star t ih => exact normal_normStar ih
  | plus t ih => exact normal_normPlus ih
  | opt t ih => exact normal_normOpt ih
  | loop t min max ih => exact normal_normLoop min max ih

theorem map_simplify_eq_self (h : ∀ t ∈ ts, t.simplify = t) : ts.map simplify = ts := by
  rw [List.map_congr_left h, List.map_id']

theorem Normal.simplify_eq_self (h : Normal t) : t.simplify = t := by
  induction h with
  | none => rfl
  | literal w => rfl
  | range h => rw [simplify, normRange, if_pos h]
  | concat hlen _ hfactor hapart ih =>
    rw [simplify_concat, map_simplify_eq_self ih, normConcat_eq_concat hlen hfactor hapart]
  | union hlen _ halt hasc ih =>
    rw [simplify_union, map_simplify_eq_self ih, normUnion_eq_union hlen halt hasc]
  | inter hlen _ hconj hasc ih =>
    rw [simplify_inter, map_simplify_eq_self ih, normInter_eq_inter hlen hconj hasc]
  | compl _ hcompl ih => rw [simplify, ih, normCompl_eq_compl hcompl]
  | star _ hbody ih => rw [simplify, ih, (norm_eq_of_isBody hbody).1]
  | plus _ hbody ih => rw [simplify, ih, (norm_eq_of_isBody hbody).2.1]
  | opt _ hbody ih => rw [simplify, ih, (norm_eq_of_isBody hbody).2.2]
  | loop _ hnone hepsilon hle hmax hone ih =>
    rw [simplify, ih, normLoop_eq_loop hnone hepsilon hle hmax hone]

theorem simplify_simplify (t : Term) : t.simplify.simplify = t.simplify :=
  (normal_simplify t).simplify_eq_self

theorem simplify_eq_self_iff (t : Term) : t.simplify = t ↔ Normal t := by
  refine ⟨fun h => ?_, fun h => h.simplify_eq_self⟩
  rw [← h]
  exact normal_simplify t

/-- Whether a term is in normal form can be found out by simplifying it. -/
instance (t : Term) : Decidable (Normal t) :=
  decidable_of_iff (cmp t.simplify t = .eq)
    ⟨fun h => (simplify_eq_self_iff t).1 (eq_of_cmp_eq h),
      fun h => by rw [h.simplify_eq_self, cmp_self]⟩

example : ¬Normal (.union [.literal ['b'], .literal ['a']]) := by decide

/-- Simplification ends in a normal form, leaves exactly the normal forms as they are, and so has
nothing left to do when it is repeated. -/
theorem normal_simplify_and_fixed_iff (t : Term) :
    Normal t.simplify ∧ (t.simplify = t ↔ Normal t) ∧ t.simplify.simplify = t.simplify :=
  ⟨normal_simplify t, simplify_eq_self_iff t, simplify_simplify t⟩

end Term

end RegLan
