import RegLan.Proofs.Term.Simplify

/-! Terms that use a complement only to leave a class of characters out of all others, as a negated
bracket does. Simplification keeps them so, but a class of which nothing is left becomes
the complement of nothing. -/

namespace RegLan

namespace Term

/-- Every character up to U+00FF but the line feed. -/
def anyChar : Term := .union [.range '\x00' '\x09', .range '\x0b' '\xff']

def anyExcept (c : Term) : Term := .inter [anyChar, .compl c]

/-- What the members of a bracket are made into. -/
inductive IsClass : Term → Prop
  | char (c : Char) : IsClass (.literal [c])
  | range (lo hi : Char) : IsClass (.range lo hi)
  | union {ts : List Term} : (∀ t ∈ ts, IsClass t) → IsClass (.union ts)
  | nothing : IsClass (anyExcept anyChar)

/-- Complements stand only in `anyExcept`, over a class or over nothing, and `q` holds if one of
them leaves no character out. The counts of a loop are in the relation `bounds`. -/
inductive Positive (bounds : ℕ → ℕ → Prop) (q : Prop) : Term → Prop
  | none : Positive bounds q .none
  | literal (w : Word) : Positive bounds q (.literal w)
  | range (lo hi : Char) : Positive bounds q (.range lo hi)
  | concat {ts : List Term} : (∀ t ∈ ts, Positive bounds q t) → Positive bounds q (.concat ts)
  | union {ts : List Term} : (∀ t ∈ ts, Positive bounds q t) → Positive bounds q (.union ts)
  | star {t : Term} : Positive bounds q t → Positive bounds q (.star t)
  | plus {t : Term} : Positive bounds q t → Positive bounds q (.plus t)
  | opt {t : Term} : Positive bounds q t → Positive bounds q (.opt t)
  | loop {t : Term} {min max : ℕ} : bounds min max → Positive bounds q t →
      Positive bounds q (.loop t min max)
  | except {c : Term} : c = .none ∨ IsClass c → (c.lang = 0 → q) → Positive bounds q (anyExcept c)

variable {t c : Term} {ts : List Term} {bounds : ℕ → ℕ → Prop} {q : Prop}

theorem concatOf_eq (ts : List Term) :
    concatOf ts = epsilon ∨ concatOf ts ∈ ts ∨ concatOf ts = .concat ts := by
  unfold concatOf
  split <;> simp

theorem unionOf_eq (ts : List Term) :
    unionOf ts = .none ∨ unionOf ts ∈ ts ∨ unionOf ts = .union ts := by
  unfold unionOf
  split <;> simp

theorem isClass_pair {u : Term} (ht : IsClass t) (hu : IsClass u) : IsClass (.union [t, u]) := by
  apply IsClass.union
  simp [ht, hu]

theorem isClass_anyChar : IsClass anyChar := isClass_pair (.range _ _) (.range _ _)

theorem simplify_anyChar : anyChar.simplify = anyChar := by cbv

theorem isClass_of_mem_unionOperands {u : Term} (ht : t = .none ∨ IsClass t)
    (hu : u ∈ unionOperands t) : IsClass u := by
  rcases ht with rfl | ht
  · cases hu
  · cases ht with
    | union hts => exact hts u hu
    | char c => exact List.mem_singleton.1 hu ▸ .char c
    | range lo hi => exact List.mem_singleton.1 hu ▸ .range lo hi
    | nothing => exact List.mem_singleton.1 hu ▸ .nothing

theorem isClass_normUnion (hts : ∀ t ∈ ts, t = .none ∨ IsClass t) :
    normUnion ts = .none ∨ IsClass (normUnion ts) := by
  have hoperands : ∀ u ∈ toSet (ts.flatMap unionOperands), IsClass u := by
    intro u hu
    obtain ⟨t, ht, hut⟩ := List.mem_flatMap.1 (mem_toSet.1 hu)
    exact isClass_of_mem_unionOperands (hts t ht) hut
  rw [normUnion]
  rcases unionOf_eq (toSet (ts.flatMap unionOperands)) with h | h | h
  · exact .inl h
  · exact .inr (hoperands _ h)
  · exact .inr (h ▸ .union hoperands)

theorem normCompl_eq (hc : c = .none ∨ IsClass c) : normCompl c = .compl c := by
  rcases hc with rfl | hc
  · rfl
  · cases hc <;> rfl

/-- In the order of terms a union comes before a complement, so neither operand moves. -/
theorem simplify_anyExcept (hc : c.simplify = .none ∨ IsClass c.simplify) :
    (anyExcept c).simplify = anyExcept c.simplify := by
  rw [anyExcept, simplify_inter, List.map_cons, List.map_singleton,
    simplify_anyChar, simplify, normCompl_eq hc]
  rfl

theorem IsClass.simplify (hc : IsClass c) : c.simplify = .none ∨ IsClass c.simplify := by
  induction hc with
  | char c =>
    rw [Term.simplify]
    exact .inr (.char c)
  | range lo hi =>
    rw [Term.simplify, normRange]
    split
    · exact .inr (.range lo hi)
    · exact .inl rfl
  | union hts ih =>
    rw [simplify_union]
    apply isClass_normUnion
    rw [List.forall_mem_map]
    exact ih
  | nothing =>
    have hany : IsClass anyChar.simplify := simplify_anyChar ▸ isClass_anyChar
    rw [simplify_anyExcept (.inr hany), simplify_anyChar]
    exact .inr .nothing

theorem Positive.mono {bounds' : ℕ → ℕ → Prop} (hb : ∀ m n, bounds m n → bounds' m n)
    (ht : Positive bounds q t) : Positive bounds' q t := by
  induction ht with
  | none => exact .none
  | literal w => exact .literal w
  | range lo hi => exact .range lo hi
  | concat _ ih => exact .concat ih
  | union _ ih => exact .union ih
  | star _ ih => exact .star ih
  | plus _ ih => exact .plus ih
  | opt _ ih => exact .opt ih
  | loop h _ ih => exact .loop (hb _ _ h) ih
  | except hc hq => exact .except hc hq

theorem positive_concat_pair {u : Term} (ht : Positive bounds q t) (hu : Positive bounds q u) :
    Positive bounds q (.concat [t, u]) := by
  apply Positive.concat
  simp [ht, hu]

theorem positive_union_pair {u : Term} (ht : Positive bounds q t) (hu : Positive bounds q u) :
    Positive bounds q (.union [t, u]) := by
  apply Positive.union
  simp [ht, hu]

theorem lang_anyChar_ne_zero : anyChar.lang ≠ 0 := by
  intro h
  have hmem : ['a'] ∈ anyChar.lang :=
    mem_lang_union.2 ⟨.range '\x0b' '\xff', by simp, mem_lang_range.2 ⟨'a', by decide, rfl⟩⟩
  rw [h] at hmem
  exact Language.notMem_zero ['a'] hmem

theorem IsClass.positive (hc : IsClass c) : Positive bounds q c := by
  induction hc with
  | char c => exact .literal [c]
  | range lo hi => exact .range lo hi
  | union _ ih => exact .union ih
  | nothing => exact .except (.inr isClass_anyChar) fun h => absurd h lang_anyChar_ne_zero

theorem positive_of_mem_concatOperands {u : Term} (ht : Positive bounds q t)
    (hu : u ∈ concatOperands t) : Positive bounds q u := by
  unfold concatOperands at hu
  split at hu
  · cases ht with
    | concat hts => exact hts u hu
  · exact List.mem_singleton.1 hu ▸ ht

theorem positive_of_mem_joinOperand {u : Term} (ht : Positive bounds q t)
    (hts : ∀ t ∈ ts, Positive bounds q t) (hu : u ∈ joinOperand t ts) : Positive bounds q u := by
  unfold joinOperand at hu
  split at hu
  · exact hts u hu
  · rcases List.mem_cons.1 hu with rfl | hu
    · exact .literal _
    · exact hts u (List.mem_cons_of_mem _ hu)
  · rcases List.mem_cons.1 hu with rfl | hu
    · exact ht
    · exact hts u hu

theorem positive_foldr_joinOperand (hts : ∀ t ∈ ts, Positive bounds q t) :
    ∀ u ∈ ts.foldr joinOperand [], Positive bounds q u := by
  induction ts with
  | nil => exact fun u hu => nomatch hu
  | cons t ts ih =>
    rw [List.forall_mem_cons] at hts
    exact fun u hu => positive_of_mem_joinOperand hts.1 (ih hts.2) hu

theorem positive_normConcat (hts : ∀ t ∈ ts, Positive bounds q t) :
    Positive bounds q (normConcat ts) := by
  have hoperands : ∀ u ∈ ts.flatMap concatOperands, Positive bounds q u := by
    intro u hu
    obtain ⟨t, ht, hut⟩ := List.mem_flatMap.1 hu
    exact positive_of_mem_concatOperands (hts t ht) hut
  have hjoined := positive_foldr_joinOperand hoperands
  rw [normConcat]
  split
  · exact .none
  · rcases concatOf_eq ((ts.flatMap concatOperands).foldr joinOperand []) with h | h | h
    · exact h ▸ .literal []
    · exact hjoined _ h
    · exact h ▸ .concat hjoined

theorem positive_of_mem_unionOperands {u : Term} (ht : Positive bounds q t)
    (hu : u ∈ unionOperands t) : Positive bounds q u := by
  unfold unionOperands at hu
  split at hu
  · cases hu
  · cases ht with
    | union hts => exact hts u hu
  · exact List.mem_singleton.1 hu ▸ ht

theorem positive_normUnion (hts : ∀ t ∈ ts, Positive bounds q t) :
    Positive bounds q (normUnion ts) := by
  have hoperands : ∀ u ∈ toSet (ts.flatMap unionOperands), Positive bounds q u := by
    intro u hu
    obtain ⟨t, ht, hut⟩ := List.mem_flatMap.1 (mem_toSet.1 hu)
    exact positive_of_mem_unionOperands (hts t ht) hut
  rw [normUnion]
  rcases unionOf_eq (toSet (ts.flatMap unionOperands)) with h | h | h
  · exact h ▸ .none
  · exact hoperands _ h
  · exact h ▸ .union hoperands

theorem positive_normStar (ht : Positive bounds q t) : Positive bounds q (normStar t) := by
  unfold normStar
  split
  · exact .literal []
  · exact ht
  · exact ht
  · cases ht with
    | plus ht => exact .star ht
  · cases ht with
    | opt ht => exact .star ht
  · exact .star ht

theorem positive_normPlus (ht : Positive bounds q t) : Positive bounds q (normPlus t) := by
  unfold normPlus
  split
  · exact ht
  · exact ht
  · exact ht
  · exact ht
  · cases ht with
    | opt ht => exact .star ht
  · exact .plus ht

theorem positive_normOpt (ht : Positive bounds q t) : Positive bounds q (normOpt t) := by
  unfold normOpt
  split
  · exact .literal []
  · exact ht
  · exact ht
  · cases ht with
    | plus ht => exact .star ht
  · exact ht
  · exact .opt ht

/-- A loop that asks for more than its maximum is gone. -/
theorem positive_normLoop (min max : ℕ) (ht : Positive (· ≤ ·) q t) :
    Positive (· ≤ ·) q (normLoop t min max) := by
  unfold normLoop
  split_ifs with hlt
  · exact .none
  · exact .literal []
  · exact .literal []
  · exact .none
  · exact ht
  · exact .loop (Nat.le_of_not_lt hlt) ht

theorem Positive.simplify (ht : Positive bounds q t) : Positive (· ≤ ·) q t.simplify := by
  induction ht with
  | none =>
    rw [Term.simplify]
    exact .none
  | literal w =>
    rw [Term.simplify]
    exact .literal w
  | range lo hi =>
    rw [Term.simplify, normRange]
    split
    · exact .range lo hi
    · exact .none
  | concat _ ih =>
    rw [simplify_concat]
    exact positive_normConcat (List.forall_mem_map.2 ih)
  | union _ ih =>
    rw [simplify_union]
    exact positive_normUnion (List.forall_mem_map.2 ih)
  | star _ ih =>
    rw [Term.simplify]
    exact positive_normStar ih
  | plus _ ih =>
    rw [Term.simplify]
    exact positive_normPlus ih
  | opt _ ih =>
    rw [Term.simplify]
    exact positive_normOpt ih
  | loop _ _ ih =>
    rw [Term.simplify]
    exact positive_normLoop _ _ ih
  | @except c hc hq =>
    have hsimp : c.simplify = .none ∨ IsClass c.simplify := by
      rcases hc with rfl | hc
      · rw [Term.simplify]
        exact .inl rfl
      · exact hc.simplify
    rw [simplify_anyExcept hsimp]
    refine .except hsimp fun h => hq ?_
    rwa [lang_simplify] at h

end Term

end RegLan
