import Mathlib.Data.List.Sort
import Mathlib.Order.Compare
import RegLan.Term.Order

/-! The order of terms is total, and terms that compare equal are equal. So a set of terms has the
members of the list it was made from, and it is the only ascending list that has them. -/

namespace RegLan

/-- A comparison that falls back on a second one is transitive if both are. -/
theorem then_lt_trans {α : Type} {f : α → α → Ordering} {a b c : α} {o o' o'' : Ordering}
    (heq : ∀ {a b}, f a b = .eq → a = b) (hf : f a b = .lt → f b c = .lt → f a c = .lt)
    (ho : o = .lt → o' = .lt → o'' = .lt) (hab : (f a b).then o = .lt)
    (hbc : (f b c).then o' = .lt) : (f a c).then o'' = .lt := by
  rw [Ordering.then_eq_lt] at hab hbc ⊢
  rcases hab with hab | ⟨hab, hlt⟩
  · rcases hbc with hbc | ⟨hbc, -⟩
    · exact .inl (hf hab hbc)
    · exact .inl (heq hbc ▸ hab)
  · rcases hbc with hbc | ⟨hbc, hlt'⟩
    · exact .inl ((heq hab).symm ▸ hbc)
    · exact .inr ⟨heq hbc ▸ hab, ho hlt hlt'⟩

theorem compare_lt_trans {k m n : ℕ} (hkm : compare k m = .lt) (hmn : compare m n = .lt) :
    compare k n = .lt :=
  Nat.compare_eq_lt.2 (Nat.lt_trans (Nat.compare_eq_lt.1 hkm) (Nat.compare_eq_lt.1 hmn))

theorem Word.eq_of_cmp_eq {v w : Word} (h : Word.cmp v w = .eq) : v = w := by
  induction v generalizing w with
  | nil =>
    cases w with
    | nil => rfl
    | cons b w => cases h
  | cons a v ih =>
    cases w with
    | nil => cases h
    | cons b w =>
      obtain ⟨hab, hvw⟩ := Ordering.then_eq_eq.1 h
      rw [ih hvw, Char.toNat_inj.1 (Nat.compare_eq_eq.1 hab)]

theorem Word.cmp_swap (v w : Word) : (Word.cmp v w).swap = Word.cmp w v := by
  induction v generalizing w with
  | nil => cases w <;> rfl
  | cons a v ih =>
    cases w with
    | nil => rfl
    | cons b w => rw [Word.cmp, Word.cmp, Ordering.swap_then, Nat.compare_swap, ih]

theorem Word.cmp_lt_trans {u v w : Word} (huv : Word.cmp u v = .lt) (hvw : Word.cmp v w = .lt) :
    Word.cmp u w = .lt := by
  induction u generalizing v w with
  | nil =>
    cases w with
    | nil => cases v <;> cases hvw
    | cons c w => rfl
  | cons a u ih =>
    cases v with
    | nil => cases huv
    | cons b v =>
      cases w with
      | nil => cases hvw
      | cons c w =>
        exact then_lt_trans Nat.compare_eq_eq.1 compare_lt_trans ih huv hvw

namespace Term

/-- Between different constructors the order is that of their places. -/
theorem cmp_of_rank_ne {t u : Term} (h : t.rank ≠ u.rank) : cmp t u = compare t.rank u.rank := by
  unfold cmp
  split
  all_goals first | rfl | exact absurd rfl h

theorem rank_eq_of_cmp_eq {t u : Term} (h : cmp t u = .eq) : t.rank = u.rank := by
  by_contra hne
  rw [cmp_of_rank_ne hne] at h
  exact hne (Nat.compare_eq_eq.1 h)

theorem eq_of_cmpAll_eq {ts us : List Term} (ih : ∀ t ∈ ts, ∀ {u}, cmp t u = .eq → t = u)
    (h : cmpAll ts us = .eq) : ts = us := by
  induction ts generalizing us with
  | nil =>
    cases us with
    | nil => rfl
    | cons u us => cases h
  | cons t ts ihs =>
    cases us with
    | nil => cases h
    | cons u us =>
      rw [cmpAll] at h
      obtain ⟨ht, hts⟩ := Ordering.then_eq_eq.1 h
      rw [List.forall_mem_cons] at ih
      rw [ih.1 ht, ihs ih.2 hts]

theorem eq_of_cmp_eq {t u : Term} (h : cmp t u = .eq) : t = u := by
  induction t generalizing u with
  | none =>
    cases u with
    | none => rfl
    | _ => cases rank_eq_of_cmp_eq h
  | literal v =>
    cases u with
    | literal w =>
      rw [cmp] at h
      rw [Word.eq_of_cmp_eq h]
    | _ => cases rank_eq_of_cmp_eq h
  | range a b =>
    cases u with
    | range c d =>
      rw [cmp] at h
      obtain ⟨hac, hbd⟩ := Ordering.then_eq_eq.1 h
      rw [Char.toNat_inj.1 (Nat.compare_eq_eq.1 hac), Char.toNat_inj.1 (Nat.compare_eq_eq.1 hbd)]
    | _ => cases rank_eq_of_cmp_eq h
  | concat ts ih =>
    cases u with
    | concat us =>
      rw [cmp] at h
      rw [eq_of_cmpAll_eq ih h]
    | _ => cases rank_eq_of_cmp_eq h
  | union ts ih =>
    cases u with
    | union us =>
      rw [cmp] at h
      rw [eq_of_cmpAll_eq ih h]
    | _ => cases rank_eq_of_cmp_eq h
  | inter ts ih =>
    cases u with
    | inter us =>
      rw [cmp] at h
      rw [eq_of_cmpAll_eq ih h]
    | _ => cases rank_eq_of_cmp_eq h
  | compl t ih =>
    cases u with
    | compl u =>
      rw [cmp] at h
      rw [ih h]
    | _ => cases rank_eq_of_cmp_eq h
  | star t ih =>
    cases u with
    | star u =>
      rw [cmp] at h
      rw [ih h]
    | _ => cases rank_eq_of_cmp_eq h
  | plus t ih =>
    cases u with
    | plus u =>
      rw [cmp] at h
      rw [ih h]
    | _ => cases rank_eq_of_cmp_eq h
  | opt t ih =>
    cases u with
    | opt u =>
      rw [cmp] at h
      rw [ih h]
    | _ => cases rank_eq_of_cmp_eq h
  | loop t k m ih =>
    cases u with
    | loop u l n =>
      rw [cmp] at h
      obtain ⟨ht, hkm⟩ := Ordering.then_eq_eq.1 h
      obtain ⟨hk, hm⟩ := Ordering.then_eq_eq.1 hkm
      rw [ih ht, Nat.compare_eq_eq.1 hk, Nat.compare_eq_eq.1 hm]
    | _ => cases rank_eq_of_cmp_eq h

theorem cmpAll_swap {ts : List Term} (ih : ∀ t ∈ ts, ∀ u, (cmp t u).swap = cmp u t)
    (us : List Term) : (cmpAll ts us).swap = cmpAll us ts := by
  induction ts generalizing us with
  | nil => cases us <;> rfl
  | cons t ts ihs =>
    cases us with
    | nil => rfl
    | cons u us =>
      rw [List.forall_mem_cons] at ih
      rw [cmpAll, cmpAll, Ordering.swap_then, ih.1, ihs ih.2]

theorem cmp_swap_of_rank_ne {t u : Term} (h : t.rank ≠ u.rank) : (cmp t u).swap = cmp u t := by
  rw [cmp_of_rank_ne h, cmp_of_rank_ne h.symm, Nat.compare_swap]

theorem cmp_swap (t u : Term) : (cmp t u).swap = cmp u t := by
  induction t generalizing u with
  | none =>
    cases u with
    | none => rfl
    | _ => exact cmp_swap_of_rank_ne nofun
  | literal v =>
    cases u with
    | literal w => rw [cmp, cmp, Word.cmp_swap]
    | _ => exact cmp_swap_of_rank_ne nofun
  | range a b =>
    cases u with
    | range c d => rw [cmp, cmp, Ordering.swap_then, Nat.compare_swap, Nat.compare_swap]
    | _ => exact cmp_swap_of_rank_ne nofun
  | concat ts ih =>
    cases u with
    | concat us => rw [cmp, cmp, cmpAll_swap ih]
    | _ => exact cmp_swap_of_rank_ne nofun
  | union ts ih =>
    cases u with
    | union us => rw [cmp, cmp, cmpAll_swap ih]
    | _ => exact cmp_swap_of_rank_ne nofun
  | inter ts ih =>
    cases u with
    | inter us => rw [cmp, cmp, cmpAll_swap ih]
    | _ => exact cmp_swap_of_rank_ne nofun
  | compl t ih =>
    cases u with
    | compl u => rw [cmp, cmp, ih]
    | _ => exact cmp_swap_of_rank_ne nofun
  | star t ih =>
    cases u with
    | star u => rw [cmp, cmp, ih]
    | _ => exact cmp_swap_of_rank_ne nofun
  | plus t ih =>
    cases u with
    | plus u => rw [cmp, cmp, ih]
    | _ => exact cmp_swap_of_rank_ne nofun
  | opt t ih =>
    cases u with
    | opt u => rw [cmp, cmp, ih]
    | _ => exact cmp_swap_of_rank_ne nofun
  | loop t k m ih =>
    cases u with
    | loop u l n =>
      rw [cmp, cmp, Ordering.swap_then, Ordering.swap_then, ih, Nat.compare_swap, Nat.compare_swap]
    | _ => exact cmp_swap_of_rank_ne nofun

theorem rank_le_of_cmp_lt {t u : Term} (h : cmp t u = .lt) : t.rank ≤ u.rank := by
  by_contra hlt
  rw [cmp_of_rank_ne (by omega), Nat.compare_eq_lt] at h
  omega

theorem cmp_lt_trans_of_rank_ne {t u v : Term} (htu : cmp t u = .lt) (huv : cmp u v = .lt)
    (h : t.rank ≠ u.rank ∨ u.rank ≠ v.rank) : cmp t v = .lt := by
  have htu := rank_le_of_cmp_lt htu
  have huv := rank_le_of_cmp_lt huv
  rw [cmp_of_rank_ne (by omega), Nat.compare_eq_lt]
  omega

theorem cmpAll_lt_trans {ts us vs : List Term}
    (ih : ∀ t ∈ ts, ∀ {u v}, cmp t u = .lt → cmp u v = .lt → cmp t v = .lt)
    (htu : cmpAll ts us = .lt) (huv : cmpAll us vs = .lt) : cmpAll ts vs = .lt := by
  induction ts generalizing us vs with
  | nil =>
    cases vs with
    | nil => cases us <;> cases huv
    | cons v vs => rfl
  | cons t ts ihs =>
    cases us with
    | nil => cases htu
    | cons u us =>
      cases vs with
      | nil => cases huv
      | cons v vs =>
        rw [List.forall_mem_cons] at ih
        rw [cmpAll] at htu huv ⊢
        exact then_lt_trans eq_of_cmp_eq ih.1 (ihs ih.2) htu huv

theorem cmp_lt_trans {t u v : Term} (htu : cmp t u = .lt) (huv : cmp u v = .lt) :
    cmp t v = .lt := by
  induction t generalizing u v with
  | none =>
    cases u with
    | none => cases htu
    | _ => exact cmp_lt_trans_of_rank_ne htu huv (.inl nofun)
  | literal x =>
    cases u with
    | literal y =>
      cases v with
      | literal z =>
        rw [cmp] at htu huv ⊢
        exact Word.cmp_lt_trans htu huv
      | _ => exact cmp_lt_trans_of_rank_ne htu huv (.inr nofun)
    | _ => exact cmp_lt_trans_of_rank_ne htu huv (.inl nofun)
  | range a b =>
    cases u with
    | range c d =>
      cases v with
      | range e f =>
        rw [cmp] at htu huv ⊢
        exact then_lt_trans Nat.compare_eq_eq.1 compare_lt_trans compare_lt_trans htu huv
      | _ => exact cmp_lt_trans_of_rank_ne htu huv (.inr nofun)
    | _ => exact cmp_lt_trans_of_rank_ne htu huv (.inl nofun)
  | concat ts ih =>
    cases u with
    | concat us =>
      cases v with
      | concat vs =>
        rw [cmp] at htu huv ⊢
        exact cmpAll_lt_trans ih htu huv
      | _ => exact cmp_lt_trans_of_rank_ne htu huv (.inr nofun)
    | _ => exact cmp_lt_trans_of_rank_ne htu huv (.inl nofun)
  | union ts ih =>
    cases u with
    | union us =>
      cases v with
      | union vs =>
        rw [cmp] at htu huv ⊢
        exact cmpAll_lt_trans ih htu huv
      | _ => exact cmp_lt_trans_of_rank_ne htu huv (.inr nofun)
    | _ => exact cmp_lt_trans_of_rank_ne htu huv (.inl nofun)
  | inter ts ih =>
    cases u with
    | inter us =>
      cases v with
      | inter vs =>
        rw [cmp] at htu huv ⊢
        exact cmpAll_lt_trans ih htu huv
      | _ => exact cmp_lt_trans_of_rank_ne htu huv (.inr nofun)
    | _ => exact cmp_lt_trans_of_rank_ne htu huv (.inl nofun)
  | compl t ih =>
    cases u with
    | compl u =>
      cases v with
      | compl v =>
        rw [cmp] at htu huv ⊢
        exact ih htu huv
      | _ => exact cmp_lt_trans_of_rank_ne htu huv (.inr nofun)
    | _ => exact cmp_lt_trans_of_rank_ne htu huv (.inl nofun)
  | star t ih =>
    cases u with
    | star u =>
      cases v with
      | star v =>
        rw [cmp] at htu huv ⊢
        exact ih htu huv
      | _ => exact cmp_lt_trans_of_rank_ne htu huv (.inr nofun)
    | _ => exact cmp_lt_trans_of_rank_ne htu huv (.inl nofun)
  | plus t ih =>
    cases u with
    | plus u =>
      cases v with
      | plus v =>
        rw [cmp] at htu huv ⊢
        exact ih htu huv
      | _ => exact cmp_lt_trans_of_rank_ne htu huv (.inr nofun)
    | _ => exact cmp_lt_trans_of_rank_ne htu huv (.inl nofun)
  | opt t ih =>
    cases u with
    | opt u =>
      cases v with
      | opt v =>
        rw [cmp] at htu huv ⊢
        exact ih htu huv
      | _ => exact cmp_lt_trans_of_rank_ne htu huv (.inr nofun)
    | _ => exact cmp_lt_trans_of_rank_ne htu huv (.inl nofun)
  | loop t k m ih =>
    cases u with
    | loop u k' m' =>
      cases v with
      | loop v k'' m'' =>
        rw [cmp] at htu huv ⊢
        exact then_lt_trans eq_of_cmp_eq ih
          (then_lt_trans Nat.compare_eq_eq.1 compare_lt_trans compare_lt_trans) htu huv
      | _ => exact cmp_lt_trans_of_rank_ne htu huv (.inr nofun)
    | _ => exact cmp_lt_trans_of_rank_ne htu huv (.inl nofun)

theorem cmp_self (t : Term) : cmp t t = .eq := by
  have h := cmp_swap t t
  cases ht : cmp t t with
  | eq => rfl
  | lt =>
    rw [ht] at h
    cases h
  | gt =>
    rw [ht] at h
    cases h

theorem mem_insert {t u : Term} {us : List Term} : t ∈ insert u us ↔ t = u ∨ t ∈ us := by
  induction us with
  | nil => rw [insert, List.mem_cons]
  | cons v vs ih =>
    rw [insert]
    split
    · rw [List.mem_cons]
    · rename_i h
      rw [eq_of_cmp_eq h, List.mem_cons, or_self_left]
    · rw [List.mem_cons, ih, List.mem_cons, or_left_comm]

theorem mem_toSet {t : Term} {ts : List Term} : t ∈ toSet ts ↔ t ∈ ts := by
  unfold toSet
  induction ts with
  | nil => rfl
  | cons u us ih => rw [List.foldr_cons, mem_insert, ih, List.mem_cons]

/-- Every term comes before those after it. -/
def Ascending (ts : List Term) : Prop := ts.Pairwise fun t u => cmp t u = .lt

theorem Ascending.insert {us : List Term} (h : Ascending us) (t : Term) :
    Ascending (insert t us) := by
  induction us with
  | nil => exact List.pairwise_singleton _ t
  | cons u us ih =>
    obtain ⟨hu, hus⟩ := List.pairwise_cons.1 h
    rw [Term.insert]
    split
    · rename_i htu
      refine List.pairwise_cons.2 ⟨?_, h⟩
      rw [List.forall_mem_cons]
      exact ⟨htu, fun v hv => cmp_lt_trans htu (hu v hv)⟩
    · exact h
    · rename_i htu
      refine List.pairwise_cons.2 ⟨fun v hv => ?_, ih hus⟩
      rcases mem_insert.1 hv with rfl | hv
      · rw [← cmp_swap, htu]
        rfl
      · exact hu v hv

theorem ascending_toSet (ts : List Term) : Ascending (toSet ts) := by
  unfold toSet
  induction ts with
  | nil => exact List.Pairwise.nil
  | cons t ts ih => exact ih.insert t

/-- An ascending list is known by its members. -/
theorem Ascending.eq_of_mem_iff {ts us : List Term} (hts : Ascending ts) (hus : Ascending us)
    (h : ∀ t, t ∈ ts ↔ t ∈ us) : ts = us := by
  have hirrefl : Std.Irrefl fun t u => cmp t u = .lt := ⟨fun t ht => by simp [cmp_self] at ht⟩
  have hantisymm : Std.Antisymm fun t u => cmp t u = .lt :=
    ⟨fun t u htu hut => absurd (cmp_lt_trans htu hut) (hirrefl.irrefl t)⟩
  exact List.Pairwise.eq_of_mem_iff hts hus h

theorem Ascending.toSet_eq {ts : List Term} (h : Ascending ts) : toSet ts = ts :=
  (ascending_toSet ts).eq_of_mem_iff h fun _ => mem_toSet

/-- A set depends on the members of the list alone. -/
theorem toSet_congr {ts us : List Term} (h : ∀ t, t ∈ ts ↔ t ∈ us) : toSet ts = toSet us := by
  apply (ascending_toSet ts).eq_of_mem_iff (ascending_toSet us)
  intro t
  rw [mem_toSet, mem_toSet, h]

end Term

end RegLan
