import RegLan.Proofs.Term.Smtlib
import RegLan.Term.Order

/-! The text of a term determines the term, as long as no backslash stands in it. For each piece of
a text, a character, a string constant, a number, a term or a list of operands, what comes after the
piece can be told from the piece itself: if two texts agree, so do their first pieces and what
follows them. -/

namespace RegLan

/-- A text is known from what stands before the first `d`. -/
theorem Word.append_cons_inj {d : Char} {v w r s : Word} (hv : d ∉ v) (hw : d ∉ w)
    (h : v ++ d :: r = w ++ d :: s) : v = w ∧ r = s := by
  induction v generalizing w with
  | nil =>
    cases w with
    | nil => exact ⟨rfl, (List.cons.inj h).2⟩
    | cons b w => exact absurd (List.cons.inj h).1 (List.ne_of_not_mem_cons hw)
  | cons a v ih =>
    rw [List.mem_cons, not_or] at hv
    cases w with
    | nil => exact absurd (List.cons.inj h).1.symm hv.1
    | cons b w =>
      rw [List.mem_cons, not_or] at hw
      obtain ⟨hab, htail⟩ := List.cons.inj h
      obtain ⟨hvw, hrs⟩ := ih hv.2 hw.2 htail
      exact ⟨by rw [hab, hvw], hrs⟩

/-- A number is known from what is written for it and `d`, if it can be read back and `d` is not
used for it. -/
theorem Word.append_cons_inj_of_leftInverse {d : Char} {r s : Word} {write : ℕ → Word}
    {read : Word → ℕ} (hread : Function.LeftInverse read write) (hd : ∀ n, d ∉ write n) {m n : ℕ}
    (h : write m ++ d :: r = write n ++ d :: s) : m = n ∧ r = s := by
  obtain ⟨hmn, hrs⟩ := append_cons_inj (hd m) (hd n) h
  exact ⟨hread.injective hmn, hrs⟩

namespace Smtlib

variable {c d : Char} {v w r s : Word}

theorem exists_escape_eq_cons (h : ' ' ≤ c ∧ c ≤ '~') : ∃ x, escape c = c :: x := by
  by_cases hc : c = '"'
  · exact ⟨['"'], by rw [hc]; rfl⟩
  · exact ⟨[], by rw [escape_of_ne hc, spell_of_le h]⟩

theorem escape_of_not_le (h : ¬(' ' ≤ c ∧ c ≤ '~')) :
    escape c = '\\' :: 'u' :: '\x7b' :: (Nat.toDigits 16 c.toNat ++ ['\x7d']) := by
  have hc : c ≠ '"' := by
    rintro rfl
    exact h (by decide)
  rw [escape_of_ne hc, spell, if_neg h]
  rfl

theorem toDigits_append_inj {m n : ℕ}
    (h : Nat.toDigits 16 m ++ '\x7d' :: r = Nat.toDigits 16 n ++ '\x7d' :: s) : m = n ∧ r = s := by
  refine Word.append_cons_inj_of_leftInverse hexNumber_toDigits (fun n hn => ?_) h
  exact absurd (isHexDigit_of_mem_toDigits n _ hn) (by decide)

/-- Only what is not printable is written with a backslash in front. -/
theorem escape_append_inj (hc : c ≠ '\\') (hd : d ≠ '\\') (h : escape c ++ r = escape d ++ s) :
    c = d ∧ r = s := by
  by_cases hc' : ' ' ≤ c ∧ c ≤ '~'
  · obtain ⟨x, hx⟩ := exists_escape_eq_cons hc'
    by_cases hd' : ' ' ≤ d ∧ d ≤ '~'
    · obtain ⟨y, hy⟩ := exists_escape_eq_cons hd'
      have hcd : c = d := by
        rw [hx, hy] at h
        exact (List.cons.inj h).1
      subst hcd
      exact ⟨rfl, List.append_cancel_left h⟩
    · rw [hx, escape_of_not_le hd'] at h
      exact absurd (List.cons.inj h).1 hc
  · rw [escape_of_not_le hc'] at h
    by_cases hd' : ' ' ≤ d ∧ d ≤ '~'
    · obtain ⟨y, hy⟩ := exists_escape_eq_cons hd'
      rw [hy] at h
      exact absurd (List.cons.inj h).1.symm hd
    · rw [escape_of_not_le hd'] at h
      simp only [List.cons_append, List.append_assoc, List.nil_append, List.cons.injEq,
        true_and] at h
      obtain ⟨hcd, hrs⟩ := toDigits_append_inj h
      exact ⟨Char.toNat_inj.1 hcd, hrs⟩

/-- A single quote is not what a character is written as. -/
theorem escape_append_ne (hr : r.head? ≠ some '"') : escape c ++ s ≠ '"' :: r := by
  intro h
  by_cases hc : ' ' ≤ c ∧ c ≤ '~'
  · obtain ⟨x, hx⟩ := exists_escape_eq_cons hc
    obtain rfl : c = '"' := by
      rw [hx] at h
      exact (List.cons.inj h).1
    exact hr (by rw [← (List.cons.inj h).2]; rfl)
  · rw [escape_of_not_le hc] at h
    exact absurd (List.cons.inj h).1 (by decide)

theorem flatMap_escape_append_inj (hv : '\\' ∉ v) (hw : '\\' ∉ w) (hr : r.head? ≠ some '"')
    (hs : s.head? ≠ some '"') (h : v.flatMap escape ++ '"' :: r = w.flatMap escape ++ '"' :: s) :
    v = w ∧ r = s := by
  induction v generalizing w with
  | nil =>
    cases w with
    | nil => exact ⟨rfl, (List.cons.inj h).2⟩
    | cons d w =>
      rw [List.flatMap_cons, List.append_assoc] at h
      exact absurd h.symm (escape_append_ne hr)
  | cons c v ih =>
    rw [List.mem_cons, not_or] at hv
    cases w with
    | nil =>
      rw [List.flatMap_cons, List.append_assoc] at h
      exact absurd h (escape_append_ne hs)
    | cons d w =>
      rw [List.mem_cons, not_or] at hw
      rw [List.flatMap_cons, List.flatMap_cons, List.append_assoc, List.append_assoc] at h
      obtain ⟨hcd, htail⟩ := escape_append_inj (Ne.symm hv.1) (Ne.symm hw.1) h
      obtain ⟨hvw, hrs⟩ := ih hv.2 hw.2 htail
      exact ⟨by rw [hcd, hvw], hrs⟩

theorem quote_append_inj (hv : '\\' ∉ v) (hw : '\\' ∉ w) (hd : d ≠ '"')
    (h : quote v ++ d :: r = quote w ++ d :: s) : v = w ∧ r = s := by
  have hhead : ∀ {r : Word}, (d :: r).head? ≠ some '"' := by simpa using hd
  have hbody : v.flatMap escape ++ '"' :: d :: r = w.flatMap escape ++ '"' :: d :: s := by
    simpa [quote] using h
  obtain ⟨hvw, hrs⟩ := flatMap_escape_append_inj hv hw hhead hhead hbody
  exact ⟨hvw, (List.cons.inj hrs).2⟩

theorem number_append_inj {m n : ℕ} (hd : ¬d.isDigit = true)
    (h : number m ++ d :: r = number n ++ d :: s) : m = n ∧ r = s := by
  have hread : Function.LeftInverse (Nat.ofDigitChars 10 · 0) number :=
    fun n => Nat.ofDigitChars_toDigits (by decide) (by decide)
  refine Word.append_cons_inj_of_leftInverse hread (fun n hn => ?_) h
  exact hd (Nat.isDigit_of_mem_toDigits (by decide) (by decide) hn)

end Smtlib

namespace Term

open Smtlib

mutual

/-- The characters of the literals and the ranges of a term. -/
def letters : Term → Word
  | .none => []
  | .literal w => w
  | .range lo hi => [lo, hi]
  | .concat ts => lettersAll ts
  | .union ts => lettersAll ts
  | .inter ts => lettersAll ts
  | .compl t => letters t
  | .star t => letters t
  | .plus t => letters t
  | .opt t => letters t
  | .loop t _ _ => letters t

def lettersAll : List Term → Word
  | [] => []
  | t :: ts => letters t ++ lettersAll ts

end

/-- The rank of a term, as the beginning of its text shows it. -/
def textRank : Word → ℕ
  | '(' :: 's' :: _ => 1
  | '(' :: '(' :: _ => 10
  | '(' :: 'r' :: 'e' :: '.' :: c :: d :: _ =>
    match c with
    | 'r' => 2
    | '+' => if d = '+' then 3 else 8
    | 'u' => 4
    | 'i' => 5
    | 'c' => 6
    | '*' => 7
    | _ => 9
  | _ => 0

variable {t u : Term} {ts us : List Term} {op r s : Word}

theorem mem_lettersAll {c : Char} : c ∈ lettersAll ts ↔ ∃ t ∈ ts, c ∈ t.letters := by
  induction ts with
  | nil => simp [lettersAll]
  | cons t ts ih => rw [lettersAll, List.mem_append, ih, List.exists_mem_cons_iff]

theorem textRank_smtlib_append (t : Term) (r : Word) : textRank (t.smtlib ++ r) = t.rank := by
  cases t <;> rw [smtlib.eq_def] <;> rfl

theorem rank_eq_of_smtlib_append (h : t.smtlib ++ r = u.smtlib ++ s) : t.rank = u.rank := by
  rw [← textRank_smtlib_append t r, h, textRank_smtlib_append]

theorem smtlib_append_ne (t : Term) (r s : Word) : t.smtlib ++ r ≠ ')' :: s := by
  intro h
  cases t <;> rw [smtlib.eq_def] at h <;> exact absurd (List.cons.inj h).1 (by decide)

/-- A text that begins with the text of `t` begins with that of no other term without a
backslash. -/
def Determined (t : Term) : Prop :=
  ∀ {u : Term} {r s : Word}, '\\' ∉ u.letters → t.smtlib ++ r = u.smtlib ++ s → t = u ∧ r = s

/-- The operands after the first, each with the blank before it. -/
def smtlibRest : List Term → Word
  | [] => []
  | ts => ' ' :: smtlibAll ts

theorem smtlibAll_cons (t : Term) (ts : List Term) :
    smtlibAll (t :: ts) = t.smtlib ++ smtlibRest ts := by
  cases ts with
  | nil => rw [smtlibAll, smtlibRest, List.append_nil]
  | cons u us =>
    rw [smtlibAll, smtlibRest]
    · simp
    · nofun
    · nofun

/-- The first operand is determined, and after it either the list ends or a blank comes. -/
theorem smtlibAll_append_inj (ih : ∀ t ∈ ts, Determined t) (hus : '\\' ∉ lettersAll us)
    (h : smtlibAll ts ++ ')' :: r = smtlibAll us ++ ')' :: s) : ts = us ∧ r = s := by
  induction ts generalizing us with
  | nil =>
    cases us with
    | nil => exact ⟨rfl, (List.cons.inj h).2⟩
    | cons u us =>
      rw [smtlibAll_cons, List.append_assoc] at h
      exact absurd h.symm (smtlib_append_ne u _ _)
  | cons t ts ihs =>
    rw [smtlibAll_cons, List.append_assoc] at h
    cases us with
    | nil => exact absurd h (smtlib_append_ne t _ _)
    | cons u us =>
      rw [smtlibAll_cons, List.append_assoc] at h
      rw [lettersAll, List.mem_append, not_or] at hus
      rw [List.forall_mem_cons] at ih
      obtain ⟨rfl, hrest⟩ := ih.1 hus.1 h
      suffices hlist : ts = us ∧ r = s by exact ⟨by rw [hlist.1], hlist.2⟩
      cases ts with
      | nil =>
        cases us with
        | nil => exact ⟨rfl, (List.cons.inj hrest).2⟩
        | cons u us => exact absurd (List.cons.inj hrest).1 (by decide)
      | cons t' ts =>
        cases us with
        | nil => exact absurd (List.cons.inj hrest).1 (by decide)
        | cons u us => exact ihs ih.2 hus.2 (List.cons.inj hrest).2

theorem operands_append_inj (ih : ∀ t ∈ ts, Determined t) (hus : '\\' ∉ lettersAll us)
    (h : op ++ smtlibAll ts ++ ")".toList ++ r = op ++ smtlibAll us ++ ")".toList ++ s) :
    ts = us ∧ r = s := by
  simp only [List.append_assoc, List.append_cancel_left_eq] at h
  exact smtlibAll_append_inj ih hus h

theorem operand_append_inj (ih : Determined t) (hu : '\\' ∉ u.letters)
    (h : op ++ t.smtlib ++ ")".toList ++ r = op ++ u.smtlib ++ ")".toList ++ s) :
    t = u ∧ r = s := by
  simp only [List.append_assoc, List.append_cancel_left_eq] at h
  obtain ⟨htu, hrs⟩ := ih hu h
  exact ⟨htu, List.append_cancel_left hrs⟩

theorem determined_of_mem (hts : '\\' ∉ lettersAll ts)
    (ih : ∀ t ∈ ts, '\\' ∉ t.letters → Determined t) : ∀ t ∈ ts, Determined t := by
  intro t ht
  exact ih t ht fun hmem => hts (mem_lettersAll.2 ⟨t, ht, hmem⟩)

theorem determined (ht : '\\' ∉ t.letters) : Determined t := by
  -- the operator shows in the text, so the other term has the same constructor
  induction t with
  | none =>
    intro u r s hu h
    cases u with
    | none => exact ⟨rfl, List.append_cancel_left h⟩
    | _ => cases rank_eq_of_smtlib_append h
  | literal v =>
    intro u r s hu h
    cases u with
    | literal w =>
      rw [letters] at ht hu
      rw [smtlib.eq_def, smtlib.eq_def] at h
      simp only [List.append_assoc, List.append_cancel_left_eq] at h
      obtain ⟨rfl, hrs⟩ := quote_append_inj ht hu (by decide) h
      exact ⟨rfl, hrs⟩
    | _ => cases rank_eq_of_smtlib_append h
  | range a b =>
    intro u r s hu h
    cases u with
    | range c d =>
      simp only [letters, List.mem_cons, List.not_mem_nil, or_false, not_or] at ht hu
      rw [smtlib.eq_def, smtlib.eq_def] at h
      simp only [List.append_assoc, List.append_cancel_left_eq] at h
      obtain ⟨hac, hhi⟩ :=
        quote_append_inj (by simpa using ht.1) (by simpa using hu.1) (by decide) h
      obtain ⟨hbd, hrs⟩ :=
        quote_append_inj (by simpa using ht.2) (by simpa using hu.2) (by decide) hhi
      rw [List.singleton_inj.1 hac, List.singleton_inj.1 hbd]
      exact ⟨rfl, hrs⟩
    | _ => cases rank_eq_of_smtlib_append h
  | concat ts ih =>
    intro u r s hu h
    cases u with
    | concat us =>
      rw [letters] at ht hu
      rw [smtlib.eq_def, smtlib.eq_def] at h
      obtain ⟨rfl, hrs⟩ := operands_append_inj (determined_of_mem ht ih) hu h
      exact ⟨rfl, hrs⟩
    | _ => cases rank_eq_of_smtlib_append h
  | union ts ih =>
    intro u r s hu h
    cases u with
    | union us =>
      rw [letters] at ht hu
      rw [smtlib.eq_def, smtlib.eq_def] at h
      obtain ⟨rfl, hrs⟩ := operands_append_inj (determined_of_mem ht ih) hu h
      exact ⟨rfl, hrs⟩
    | _ => cases rank_eq_of_smtlib_append h
  | inter ts ih =>
    intro u r s hu h
    cases u with
    | inter us =>
      rw [letters] at ht hu
      rw [smtlib.eq_def, smtlib.eq_def] at h
      obtain ⟨rfl, hrs⟩ := operands_append_inj (determined_of_mem ht ih) hu h
      exact ⟨rfl, hrs⟩
    | _ => cases rank_eq_of_smtlib_append h
  | compl t ih =>
    intro u r s hu h
    cases u with
    | compl u =>
      rw [letters] at ht hu
      rw [smtlib.eq_def, smtlib.eq_def] at h
      obtain ⟨rfl, hrs⟩ := operand_append_inj (ih ht) hu h
      exact ⟨rfl, hrs⟩
    | _ => cases rank_eq_of_smtlib_append h
  | star t ih =>
    intro u r s hu h
    cases u with
    | star u =>
      rw [letters] at ht hu
      rw [smtlib.eq_def, smtlib.eq_def] at h
      obtain ⟨rfl, hrs⟩ := operand_append_inj (ih ht) hu h
      exact ⟨rfl, hrs⟩
    | _ => cases rank_eq_of_smtlib_append h
  | plus t ih =>
    intro u r s hu h
    cases u with
    | plus u =>
      rw [letters] at ht hu
      rw [smtlib.eq_def, smtlib.eq_def] at h
      obtain ⟨rfl, hrs⟩ := operand_append_inj (ih ht) hu h
      exact ⟨rfl, hrs⟩
    | _ => cases rank_eq_of_smtlib_append h
  | opt t ih =>
    intro u r s hu h
    cases u with
    | opt u =>
      rw [letters] at ht hu
      rw [smtlib.eq_def, smtlib.eq_def] at h
      obtain ⟨rfl, hrs⟩ := operand_append_inj (ih ht) hu h
      exact ⟨rfl, hrs⟩
    | _ => cases rank_eq_of_smtlib_append h
  | loop t k m ih =>
    intro u r s hu h
    cases u with
    | loop u l n =>
      rw [letters] at ht hu
      rw [smtlib.eq_def, smtlib.eq_def] at h
      simp only [List.append_assoc, List.append_cancel_left_eq] at h
      obtain ⟨hkl, hmax⟩ := number_append_inj (by decide) h
      obtain ⟨hmn, hbody⟩ := number_append_inj (by decide) hmax
      obtain ⟨htu, hrs⟩ := ih ht hu (List.cons.inj hbody).2
      exact ⟨by rw [hkl, hmn, htu], List.append_cancel_left hrs⟩
    | _ => cases rank_eq_of_smtlib_append h

/-- Among terms with no backslash in a literal or a range, different ones have different texts. -/
theorem smtlib_inj_of_no_backslash (t u : Term) (ht : '\\' ∉ t.letters) (hu : '\\' ∉ u.letters) :
    t.smtlib = u.smtlib ↔ t = u := by
  refine ⟨fun h => ?_, fun h => by rw [h]⟩
  have happend : t.smtlib ++ [] = u.smtlib ++ [] := by rw [h]
  exact (determined ht hu happend).1

/-- The quotes, parentheses and blanks of a literal do not pass for a second operand. -/
theorem smtlib_literal_like_operands :
    '\\' ∉ (union [literal "\") (str.to_re \"".toList]).letters ∧
    '\\' ∉ (union [literal [], literal []]).letters ∧
    (union [literal "\") (str.to_re \"".toList]).smtlib ≠ (union [literal [], literal []]).smtlib := by
  have ht : '\\' ∉ (union [literal "\") (str.to_re \"".toList]).letters := by decide
  have hu : '\\' ∉ (union [literal [], literal []]).letters := by decide
  exact ⟨ht, hu, (smtlib_inj_of_no_backslash _ _ ht hu).not.2 nofun⟩

end Term

end RegLan
