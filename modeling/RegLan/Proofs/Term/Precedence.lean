import Mathlib.Data.List.Lex
import RegLan.Proofs.CharSet
import RegLan.Proofs.Term.Order

/-! Which of two terms comes first, said without comparing them: the one whose constructor is
declared first, and of two with the same constructor the one that is smaller in the first field
in which they differ. Literals go by their bytes in UTF-8, which comes to the same as going by
their characters. -/

namespace RegLan

namespace Word

variable {v w : Word}

/-- The bytes of the word in UTF-8. -/
def utf8 (w : Word) : List UInt8 := w.flatMap String.utf8EncodeChar

theorem length_utf8 (w : Word) : (utf8 w).length = utf8Size w := by
  induction w with
  | nil => rfl
  | cons c w ih =>
    unfold utf8 at ih ⊢
    rw [List.flatMap_cons, List.length_append, String.length_utf8EncodeChar, ih, utf8Size]

theorem lex_ofNat_cons {m n : ℕ} {x y : List UInt8} (hmn : m ≤ n) (hn : n < 256)
    (h : m = n → List.Lex (· < ·) x y) :
    List.Lex (· < ·) (UInt8.ofNat m :: x) (UInt8.ofNat n :: y) := by
  rcases hmn.lt_or_eq with hlt | rfl
  · exact .rel ((UInt8.ofNat_lt_iff_lt (hlt.trans hn) hn).2 hlt)
  · exact .cons (h rfl)

/-- Two characters are told apart by their bytes, whatever comes after them. A character with
fewer bytes has a smaller first byte; among those with as many, the bytes are the digits of the
character's number to the base 64, the highest first. -/
theorem lex_utf8EncodeChar_append {a b : Char} (h : a.toNat < b.toNat) (x y : List UInt8) :
    List.Lex (· < ·) (String.utf8EncodeChar a ++ x) (String.utf8EncodeChar b ++ y) := by
  have hb := toNat_lt_or_gt b
  unfold Char.toNat at h hb
  unfold String.utf8EncodeChar
  generalize a.val.toNat = m at h ⊢
  generalize b.val.toNat = n at h hb ⊢
  dsimp only
  by_cases hm : m ≤ 127
  · rw [if_pos hm]
    split_ifs
    all_goals exact lex_ofNat_cons (by omega) (by omega) fun _ => by omega
  rw [if_neg hm, if_neg (show ¬n ≤ 127 by omega)]
  by_cases hm : m ≤ 2047
  · rw [if_pos hm]
    split_ifs
    · exact lex_ofNat_cons (by omega) (by omega) fun _ =>
        lex_ofNat_cons (by omega) (by omega) fun _ => by omega
    all_goals exact lex_ofNat_cons (by omega) (by omega) fun _ => by omega
  rw [if_neg hm, if_neg (show ¬n ≤ 2047 by omega)]
  by_cases hm : m ≤ 65535
  · rw [if_pos hm]
    split_ifs
    · exact lex_ofNat_cons (by omega) (by omega) fun _ =>
        lex_ofNat_cons (by omega) (by omega) fun _ =>
          lex_ofNat_cons (by omega) (by omega) fun _ => by omega
    · exact lex_ofNat_cons (by omega) (by omega) fun _ => by omega
  rw [if_neg hm, if_neg (show ¬n ≤ 65535 by omega)]
  exact lex_ofNat_cons (by omega) (by omega) fun _ =>
    lex_ofNat_cons (by omega) (by omega) fun _ =>
      lex_ofNat_cons (by omega) (by omega) fun _ =>
        lex_ofNat_cons (by omega) (by omega) fun _ => by omega

theorem lex_utf8_of_cmp_lt (h : Word.cmp v w = .lt) :
    List.Lex (· < ·) (utf8 v) (utf8 w) := by
  induction v generalizing w with
  | nil =>
    cases w with
    | nil => cases h
    | cons b w =>
      have hne : utf8 (b :: w) ≠ [] := by
        intro hnil
        have hlen := length_utf8 (b :: w)
        have hpos := b.utf8Size_pos
        rw [hnil, List.length_nil, utf8Size] at hlen
        omega
      obtain ⟨x, y, hxy⟩ := List.exists_cons_of_ne_nil hne
      rw [hxy]
      exact .nil
  | cons a v ih =>
    cases w with
    | nil => cases h
    | cons b w =>
      unfold utf8 at ih ⊢
      rw [List.flatMap_cons, List.flatMap_cons]
      rcases Ordering.then_eq_lt.1 h with hab | ⟨hab, hvw⟩
      · exact lex_utf8EncodeChar_append (Nat.compare_eq_lt.1 hab) _ _
      · obtain rfl := Char.toNat_inj.1 (Nat.compare_eq_eq.1 hab)
        exact List.Lex.append_left _ (ih hvw) _

/-- Words are in the order of their bytes. -/
theorem cmp_eq_lt_iff_lex_utf8 : Word.cmp v w = .lt ↔ List.Lex (· < ·) (utf8 v) (utf8 w) := by
  refine ⟨lex_utf8_of_cmp_lt, fun h => ?_⟩
  cases hcmp : Word.cmp v w with
  | lt => rfl
  | eq =>
    obtain rfl := Word.eq_of_cmp_eq hcmp
    exact absurd h (List.lex_irrefl (fun _ => UInt8.lt_irrefl _) _)
  | gt =>
    have hswap : Word.cmp w v = .lt := by rw [← Word.cmp_swap, hcmp]; rfl
    exact absurd h (List.lex_asymm UInt8.lt_asymm (lex_utf8_of_cmp_lt hswap))

/-- Words are in the order of the numbers of their characters. -/
theorem cmp_eq_lt_iff_lex_toNat :
    Word.cmp v w = .lt ↔ List.Lex (· < ·) (v.map Char.toNat) (w.map Char.toNat) := by
  induction v generalizing w with
  | nil => cases w <;> simp [Word.cmp]
  | cons a v ih =>
    cases w with
    | nil => simp [Word.cmp]
    | cons b w =>
      rw [Word.cmp, Ordering.then_eq_lt, Nat.compare_eq_lt, Nat.compare_eq_eq, ih, List.map_cons,
        List.map_cons, List.cons_lex_cons_iff]

end Word

namespace Term

variable {t u : Term} {ts us : List Term}

/-- The first term comes before the second. -/
inductive Precedes : Term → Term → Prop
  | ctor {t u : Term} : t.ctorIdx < u.ctorIdx → Precedes t u
  | literal {v w : Word} : List.Lex (· < ·) v.utf8 w.utf8 → Precedes (.literal v) (.literal w)
  | lo {a b c d : Char} : a.toNat < c.toNat → Precedes (.range a b) (.range c d)
  | hi {a b c : Char} : b.toNat < c.toNat → Precedes (.range a b) (.range a c)
  | concat {ts us : List Term} : List.Lex Precedes ts us → Precedes (.concat ts) (.concat us)
  | union {ts us : List Term} : List.Lex Precedes ts us → Precedes (.union ts) (.union us)
  | inter {ts us : List Term} : List.Lex Precedes ts us → Precedes (.inter ts) (.inter us)
  | compl {t u : Term} : Precedes t u → Precedes (.compl t) (.compl u)
  | star {t u : Term} : Precedes t u → Precedes (.star t) (.star u)
  | plus {t u : Term} : Precedes t u → Precedes (.plus t) (.plus u)
  | opt {t u : Term} : Precedes t u → Precedes (.opt t) (.opt u)
  | loop {t u : Term} {k l m n : ℕ} : Precedes t u → Precedes (.loop t k m) (.loop u l n)
  | min {t : Term} {k l m n : ℕ} : k < l → Precedes (.loop t k m) (.loop t l n)
  | max {t : Term} {k m n : ℕ} : m < n → Precedes (.loop t k m) (.loop t k n)

theorem rank_eq_ctorIdx (t : Term) : t.rank = t.ctorIdx := by
  cases t <;> rfl

theorem cmp_eq_iff : cmp t u = .eq ↔ t = u := by
  refine ⟨eq_of_cmp_eq, fun h => ?_⟩
  rw [h, cmp_self]

theorem cmp_eq_lt_iff_of_rank_ne (h : t.rank ≠ u.rank) : cmp t u = .lt ↔ Precedes t u := by
  rw [cmp_of_rank_ne h, Nat.compare_eq_lt, rank_eq_ctorIdx, rank_eq_ctorIdx]
  refine ⟨.ctor, fun hprec => ?_⟩
  cases hprec with
  | ctor hlt => exact hlt
  | _ => exact absurd rfl h

theorem cmpAll_eq_lt_iff (ih : ∀ t ∈ ts, ∀ u, cmp t u = .lt ↔ Precedes t u) :
    cmpAll ts us = .lt ↔ List.Lex Precedes ts us := by
  induction ts generalizing us with
  | nil => cases us <;> simp [cmpAll]
  | cons t ts ihs =>
    cases us with
    | nil => simp [cmpAll]
    | cons u us =>
      rw [List.forall_mem_cons] at ih
      rw [cmpAll, Ordering.then_eq_lt, ih.1, cmp_eq_iff, ihs ih.2, List.cons_lex_cons_iff]

theorem cmp_eq_lt_iff_precedes (t u : Term) : cmp t u = .lt ↔ Precedes t u := by
  induction t generalizing u with
  | none =>
    cases u with
    | none =>
      refine ⟨fun h => ?_, fun h => ?_⟩
      · cases h
      · cases h with
        | ctor h => exact absurd h (Nat.lt_irrefl _)
    | _ =>
      refine cmp_eq_lt_iff_of_rank_ne fun h => ?_
      cases h
  | literal v =>
    cases u with
    | literal w =>
      rw [cmp, Word.cmp_eq_lt_iff_lex_utf8]
      refine ⟨.literal, fun h => ?_⟩
      cases h with
      | ctor h => exact absurd h (Nat.lt_irrefl _)
      | literal h => exact h
    | _ =>
      refine cmp_eq_lt_iff_of_rank_ne fun h => ?_
      cases h
  | range a b =>
    cases u with
    | range c d =>
      rw [cmp, Ordering.then_eq_lt, Nat.compare_eq_lt, Nat.compare_eq_eq, Nat.compare_eq_lt]
      refine ⟨fun h => ?_, fun h => ?_⟩
      · rcases h with hlo | ⟨hlo, hhi⟩
        · exact .lo hlo
        · obtain rfl := Char.toNat_inj.1 hlo
          exact .hi hhi
      · cases h with
        | ctor h => exact absurd h (Nat.lt_irrefl _)
        | lo h => exact .inl h
        | hi h => exact .inr ⟨rfl, h⟩
    | _ =>
      refine cmp_eq_lt_iff_of_rank_ne fun h => ?_
      cases h
  | concat ts ih =>
    cases u with
    | concat us =>
      rw [cmp, cmpAll_eq_lt_iff ih]
      refine ⟨.concat, fun h => ?_⟩
      cases h with
      | ctor h => exact absurd h (Nat.lt_irrefl _)
      | concat h => exact h
    | _ =>
      refine cmp_eq_lt_iff_of_rank_ne fun h => ?_
      cases h
  | union ts ih =>
    cases u with
    | union us =>
      rw [cmp, cmpAll_eq_lt_iff ih]
      refine ⟨.union, fun h => ?_⟩
      cases h with
      | ctor h => exact absurd h (Nat.lt_irrefl _)
      | union h => exact h
    | _ =>
      refine cmp_eq_lt_iff_of_rank_ne fun h => ?_
      cases h
  | inter ts ih =>
    cases u with
    | inter us =>
      rw [cmp, cmpAll_eq_lt_iff ih]
      refine ⟨.inter, fun h => ?_⟩
      cases h with
      | ctor h => exact absurd h (Nat.lt_irrefl _)
      | inter h => exact h
    | _ =>
      refine cmp_eq_lt_iff_of_rank_ne fun h => ?_
      cases h
  | compl t ih =>
    cases u with
    | compl u =>
      rw [cmp, ih]
      refine ⟨.compl, fun h => ?_⟩
      cases h with
      | ctor h => exact absurd h (Nat.lt_irrefl _)
      | compl h => exact h
    | _ =>
      refine cmp_eq_lt_iff_of_rank_ne fun h => ?_
      cases h
  | star t ih =>
    cases u with
    | star u =>
      rw [cmp, ih]
      refine ⟨.star, fun h => ?_⟩
      cases h with
      | ctor h => exact absurd h (Nat.lt_irrefl _)
      | star h => exact h
    | _ =>
      refine cmp_eq_lt_iff_of_rank_ne fun h => ?_
      cases h
  | plus t ih =>
    cases u with
    | plus u =>
      rw [cmp, ih]
      refine ⟨.plus, fun h => ?_⟩
      cases h with
      | ctor h => exact absurd h (Nat.lt_irrefl _)
      | plus h => exact h
    | _ =>
      refine cmp_eq_lt_iff_of_rank_ne fun h => ?_
      cases h
  | opt t ih =>
    cases u with
    | opt u =>
      rw [cmp, ih]
      refine ⟨.opt, fun h => ?_⟩
      cases h with
      | ctor h => exact absurd h (Nat.lt_irrefl _)
      | opt h => exact h
    | _ =>
      refine cmp_eq_lt_iff_of_rank_ne fun h => ?_
      cases h
  | loop t k m ih =>
    cases u with
    | loop u l n =>
      rw [cmp, Ordering.then_eq_lt, Ordering.then_eq_lt, ih, cmp_eq_iff, Nat.compare_eq_lt,
        Nat.compare_eq_eq, Nat.compare_eq_lt]
      refine ⟨fun h => ?_, fun h => ?_⟩
      · rcases h with h | ⟨rfl, h | ⟨rfl, h⟩⟩
        · exact .loop h
        · exact .min h
        · exact .max h
      · cases h with
        | ctor h => exact absurd h (Nat.lt_irrefl _)
        | loop h => exact .inl h
        | min h => exact .inr ⟨rfl, .inl h⟩
        | max h => exact .inr ⟨rfl, .inr ⟨rfl, h⟩⟩
    | _ =>
      refine cmp_eq_lt_iff_of_rank_ne fun h => ?_
      cases h

theorem isLE_cmp_trans {t u v : Term} (htu : (cmp t u).isLE) (huv : (cmp u v).isLE) :
    (cmp t v).isLE := by
  rw [Ordering.isLE_iff_eq_lt_or_eq_eq] at *
  rcases htu with htu | htu
  · rcases huv with huv | huv
    · exact .inl (cmp_lt_trans htu huv)
    · exact .inl (eq_of_cmp_eq huv ▸ htu)
  · rwa [eq_of_cmp_eq htu]

/-- Terms are totally ordered, with equal terms alone comparing equal, and the order is that of
constructors and fields. For literals it makes no difference whether bytes or characters are
compared. -/
theorem cmp_lawful (x y z : Term) :
    (cmp x y = .eq ↔ x = y) ∧ cmp y x = (cmp x y).swap ∧
      (cmp x y = .lt → cmp y z = .lt → cmp x z = .lt) ∧
      ((cmp x y).isLE → (cmp y z).isLE → (cmp x z).isLE) ∧
      (cmp x y = .lt ↔ Precedes x y) ∧
      ∀ v w : Word, List.Lex (· < ·) v.utf8 w.utf8 ↔
        List.Lex (· < ·) (v.map Char.toNat) (w.map Char.toNat) := by
  refine ⟨cmp_eq_iff, (cmp_swap x y).symm, cmp_lt_trans, isLE_cmp_trans,
    cmp_eq_lt_iff_precedes x y, fun v w => ?_⟩
  rw [← Word.cmp_eq_lt_iff_lex_utf8, Word.cmp_eq_lt_iff_lex_toNat]

/-- Three bytes before four, and both before any concatenation. -/
theorem cmp_lawful_across_lengths :
    cmp (literal ['\uffff']) (literal [Char.ofNat 0x10000]) = .lt ∧
      cmp (literal [Char.ofNat 0x10000]) (concat []) = .lt ∧
      cmp (literal ['\uffff']) (concat []) = .lt ∧
      Precedes (literal ['\uffff']) (literal [Char.ofNat 0x10000]) := by
  obtain ⟨-, -, htrans, -, hprec, -⟩ :=
    cmp_lawful (literal ['\uffff']) (literal [Char.ofNat 0x10000]) (concat [])
  have hxy : cmp (literal ['\uffff']) (literal [Char.ofNat 0x10000]) = .lt := by decide
  have hyz : cmp (literal [Char.ofNat 0x10000]) (concat []) = .lt := by decide
  exact ⟨hxy, hyz, htrans hxy hyz, hprec.1 hxy⟩

end Term

end RegLan
