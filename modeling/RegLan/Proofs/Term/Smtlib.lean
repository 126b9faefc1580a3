import Mathlib
import RegLan.Proofs.Pattern.Readers
import RegLan.Term.Smtlib

/-! String constants read back. A constant stands in quotes, a quote within it is written twice, and
an escape (a backslash, a `u` and digits) stands for the character with that number. A backslash is
written as it is, so a word that holds the text of an escape reads back as something shorter; every
other word reads back as it was. -/

namespace RegLan

namespace Smtlib

def hexDigit? (c : Char) : Option ℕ :=
  if '0' ≤ c ∧ c ≤ '9' then some (c.toNat - '0'.toNat)
  else if 'a' ≤ c ∧ c ≤ 'f' then some (c.toNat - 'a'.toNat + 10)
  else if 'A' ≤ c ∧ c ≤ 'F' then some (c.toNat - 'A'.toNat + 10)
  else none

def isHexDigit (c : Char) : Bool := (hexDigit? c).isSome

/-- The number that some digits write. -/
def hexNumber (ds : Word) : ℕ := ds.foldl (fun n d => 16 * n + (hexDigit? d).getD 0) 0

/-- The text of an escape and its number: four digits, or one to five of them in braces. -/
inductive EscapeText : Word → ℕ → Prop
  | four {ds : Word} : (∀ d ∈ ds, isHexDigit d = true) → ds.length = 4 →
      EscapeText ('\\' :: 'u' :: ds) (hexNumber ds)
  | braced {ds : Word} : (∀ d ∈ ds, isHexDigit d = true) → 1 ≤ ds.length → ds.length ≤ 5 →
      EscapeText ('\\' :: 'u' :: '\x7b' :: ds ++ ['\x7d']) (hexNumber ds)

/-- The number of an escape at the beginning of a text, and the text after it. -/
def readEscape : Word → Option (ℕ × Word)
  | '\\' :: 'u' :: '\x7b' :: r =>
    let ds := r.takeWhile isHexDigit
    if 1 ≤ ds.length ∧ ds.length ≤ 5 then
      (Word.after? '\x7d' (r.dropWhile isHexDigit)).map (hexNumber ds, ·)
    else none
  | '\\' :: 'u' :: r =>
    let ds := r.take 4
    if ds.length = 4 ∧ ∀ d ∈ ds, isHexDigit d = true then some (hexNumber ds, r.drop 4) else none
  | _ => none

theorem readEscape_append {e : Word} {n : ℕ} (h : EscapeText e n) (r : Word) :
    readEscape (e ++ r) = some (n, r) := by
  rcases h with @⟨ds, hds, hlen⟩ | @⟨ds, hds, h1, h5⟩
  · rw [List.cons_append, List.cons_append, readEscape.eq_2]
    · rw [← hlen, List.take_left, List.drop_left]
      exact if_pos ⟨rfl, hds⟩
    · intro r' h'
      -- the first of the four digits would be a brace
      obtain ⟨d, ds, rfl⟩ := List.exists_cons_of_length_eq_add_one hlen
      obtain rfl := (List.cons.inj h').1
      exact absurd (hds '\x7b' List.mem_cons_self) (by decide)
  · have ht : (ds ++ '\x7d' :: r).takeWhile isHexDigit = ds := by
      rw [List.takeWhile_append_of_pos hds]
      simp [show isHexDigit '\x7d' = false by decide]
    have hd : (ds ++ '\x7d' :: r).dropWhile isHexDigit = '\x7d' :: r := by
      rw [List.dropWhile_append_of_pos hds]
      simp [show isHexDigit '\x7d' = false by decide]
    simp only [List.cons_append, List.append_assoc, List.nil_append, readEscape, ht, hd]
    exact if_pos ⟨h1, h5⟩

theorem exists_of_readEscape {s r : Word} {n : ℕ} (h : readEscape s = some (n, r)) :
    ∃ e, EscapeText e n ∧ s = e ++ r := by
  revert h
  fun_cases readEscape s with
  | case1 t ds hds =>
    intro h
    obtain ⟨u, hu, hr⟩ := Option.map_eq_some_iff.1 h
    obtain ⟨rfl, rfl⟩ := Prod.mk.inj hr
    have ht : t = ds ++ '\x7d' :: u := by
      rw [← Word.after?_eq_some.1 hu, List.takeWhile_append_dropWhile]
    refine ⟨_, .braced (fun d hd => List.mem_takeWhile_imp hd) hds.1 hds.2, ?_⟩
    simp [ht]
  | case2 t ds hds => exact fun h => nomatch h
  | case3 t _ ds hds =>
    intro h
    cases h
    refine ⟨_, .four hds.2 hds.1, ?_⟩
    rw [List.cons_append, List.cons_append, List.take_append_drop]
  | case4 t _ ds hds => exact fun h => nomatch h
  | case5 => exact fun h => nomatch h

theorem isHexDigit_le {c : Char} (h : isHexDigit c = true) : ' ' ≤ c ∧ c ≤ '~' := by
  unfold isHexDigit hexDigit? at h
  split_ifs at h with h0 ha hA
  · exact ⟨Char.le_trans (by decide) h0.1, Char.le_trans h0.2 (by decide)⟩
  · exact ⟨Char.le_trans (by decide) ha.1, Char.le_trans ha.2 (by decide)⟩
  · exact ⟨Char.le_trans (by decide) hA.1, Char.le_trans hA.2 (by decide)⟩
  · cases h

/-- After its backslash an escape has neither a backslash nor a quote, and is printable. -/
theorem EscapeText.eq_cons {e : Word} {n : ℕ} (h : EscapeText e n) :
    ∃ u, e = '\\' :: u ∧ ∀ c ∈ u, c ≠ '\\' ∧ c ≠ '"' ∧ ' ' ≤ c ∧ c ≤ '~' := by
  have hdigit : ∀ c, isHexDigit c = true → c ≠ '\\' ∧ c ≠ '"' ∧ ' ' ≤ c ∧ c ≤ '~' := by
    intro c hc
    refine ⟨?_, ?_, isHexDigit_le hc⟩
    · rintro rfl
      exact absurd hc (by decide)
    · rintro rfl
      exact absurd hc (by decide)
  have hu : 'u' ≠ '\\' ∧ 'u' ≠ '"' ∧ ' ' ≤ 'u' ∧ 'u' ≤ '~' := by decide
  rcases h with @⟨ds, hds, -⟩ | @⟨ds, hds, -, -⟩
  · refine ⟨'u' :: ds, rfl, List.forall_mem_cons.2 ⟨hu, fun c hc => ?_⟩⟩
    exact hdigit c (hds c hc)
  · refine ⟨'u' :: '\x7b' :: ds ++ ['\x7d'], rfl, fun c hc => ?_⟩
    rw [List.mem_append, List.mem_cons, List.mem_cons, List.mem_singleton] at hc
    rcases hc with (rfl | rfl | hc) | rfl
    · exact hu
    · decide
    · exact hdigit c (hds c hc)
    · decide

theorem EscapeText.two_le_length {e : Word} {n : ℕ} (h : EscapeText e n) : 2 ≤ e.length := by
  rcases h with _ | _ <;> simp

theorem length_of_readEscape {s r : Word} {n : ℕ} (h : readEscape s = some (n, r)) :
    r.length + 2 ≤ s.length := by
  obtain ⟨e, he, rfl⟩ := exists_of_readEscape h
  have := he.two_le_length
  rw [List.length_append]
  omega

/-- The numbers of the characters that a text stands for, its escapes decoded. -/
def unescape : Word → List ℕ
  | [] => []
  | c :: r =>
    match h : readEscape (c :: r) with
    | some (n, rest) =>
      have := length_of_readEscape h
      n :: unescape rest
    | none => c.toNat :: unescape r
termination_by s => s.length
decreasing_by
  · omega
  · exact Nat.lt_succ_self _

theorem unescape_append {e : Word} {n : ℕ} (h : EscapeText e n) (r : Word) :
    unescape (e ++ r) = n :: unescape r := by
  have hread := readEscape_append h r
  obtain ⟨u, rfl, -⟩ := h.eq_cons
  rw [List.cons_append] at hread ⊢
  rw [unescape]
  split
  · rename_i m rest h'
    rw [hread] at h'
    cases h'
    rfl
  · rename_i h'
    rw [hread] at h'
    cases h'

theorem unescape_cons {c : Char} {r : Word} (h : readEscape (c :: r) = none) :
    unescape (c :: r) = c.toNat :: unescape r := by
  rw [unescape]
  split
  · rename_i h'
    rw [h] at h'
    cases h'
  · rfl

theorem length_unescape_le (w : Word) : (unescape w).length ≤ w.length := by
  fun_induction unescape w with
  | case1 => exact le_rfl
  | case2 c r n rest h hlen ih =>
    rw [List.length_cons]
    omega
  | case3 c r h ih =>
    rw [List.length_cons, List.length_cons]
    omega

/-- Somewhere in the word there is the text of an escape. -/
def HoldsEscape (w : Word) : Prop := ∃ e n, EscapeText e n ∧ e <:+: w

theorem holdsEscape_cons {c : Char} {r : Word} :
    HoldsEscape (c :: r) ↔ readEscape (c :: r) ≠ none ∨ HoldsEscape r := by
  refine ⟨fun h => ?_, fun h => ?_⟩
  · obtain ⟨e, n, he, hin⟩ := h
    rcases List.infix_cons_iff.1 hin with ⟨rest, hrest⟩ | hin
    · left
      rw [← hrest, readEscape_append he]
      exact Option.some_ne_none _
    · exact .inr ⟨e, n, he, hin⟩
  · rcases h with h | ⟨e, n, he, hin⟩
    · obtain ⟨⟨n, rest⟩, h⟩ := Option.ne_none_iff_exists'.1 h
      obtain ⟨e, he, heq⟩ := exists_of_readEscape h
      exact ⟨e, n, he, List.IsPrefix.isInfix ⟨rest, heq.symm⟩⟩
    · exact ⟨e, n, he, List.infix_cons hin⟩

/-- Decoding leaves alone exactly the words with no escape in them. -/
theorem unescape_eq_map_iff (w : Word) : unescape w = w.map Char.toNat ↔ ¬HoldsEscape w := by
  fun_induction unescape w with
  | case1 =>
    refine iff_of_true rfl ?_
    rintro ⟨e, n, he, hin⟩
    obtain ⟨u, rfl, -⟩ := he.eq_cons
    cases List.infix_nil.1 hin
  | case2 c r n rest h hrest ih =>
    refine iff_of_false (fun heq => ?_) (fun hno => ?_)
    · -- the escape is at least two characters, and one number comes of it
      have hlen := congrArg List.length heq
      have hle := length_unescape_le rest
      rw [List.length_cons, List.length_map] at hlen
      omega
    · exact hno (holdsEscape_cons.2 (.inl (by simp [h])))
  | case3 c r h ih =>
    rw [List.map_cons, List.cons_inj_right, ih, holdsEscape_cons]
    simp [h]

/-- What stands for a character between the quotes, quotes not yet doubled. -/
def spell (c : Char) : Word :=
  if ' ' ≤ c ∧ c ≤ '~' then [c]
  else "\\u\x7b".toList ++ Nat.toDigits 16 c.toNat ++ "\x7d".toList

theorem spell_of_le {c : Char} (h : ' ' ≤ c ∧ c ≤ '~') : spell c = [c] := if_pos h

theorem escape_of_ne {c : Char} (h : c ≠ '"') : escape c = spell c := if_neg h

theorem hexDigit?_digitChar : ∀ d < 16, hexDigit? d.digitChar = some d := by decide

theorem hexNumber_append (ds : Word) (d : Char) :
    hexNumber (ds ++ [d]) = 16 * hexNumber ds + (hexDigit? d).getD 0 :=
  List.foldl_concat ..

theorem hexNumber_toDigits (n : ℕ) : hexNumber (Nat.toDigits 16 n) = n := by
  induction n using Nat.strong_induction_on with
  | _ n ih =>
    rcases Nat.lt_or_ge n 16 with h | h
    · rw [Nat.toDigits_of_lt_base h, hexNumber, List.foldl_cons, List.foldl_nil,
        hexDigit?_digitChar n h]
      exact Nat.zero_add n
    · have hmod := hexDigit?_digitChar (n % 16) (Nat.mod_lt n (by decide))
      rw [Nat.toDigits_of_base_le (by decide) h, hexNumber_append, ih (n / 16) (by omega), hmod]
      exact Nat.div_add_mod n 16

theorem isHexDigit_of_mem_toDigits (n : ℕ) : ∀ d ∈ Nat.toDigits 16 n, isHexDigit d = true := by
  have hdigit : ∀ d < 16, isHexDigit d.digitChar = true := by
    intro d hd
    rw [isHexDigit, hexDigit?_digitChar d hd, Option.isSome_some]
  induction n using Nat.strong_induction_on with
  | _ n ih =>
    intro d hd
    rcases Nat.lt_or_ge n 16 with h | h
    · rw [Nat.toDigits_of_lt_base h, List.mem_singleton] at hd
      exact hd ▸ hdigit n h
    · rw [Nat.toDigits_of_base_le (by decide) h, List.mem_append, List.mem_singleton] at hd
      rcases hd with hd | rfl
      · exact ih (n / 16) (by omega) d hd
      · exact hdigit (n % 16) (Nat.mod_lt n (by decide))

theorem escapeText_spell {c : Char} (h : ¬(' ' ≤ c ∧ c ≤ '~')) (hc : c.toNat < 16 ^ 5) :
    EscapeText (spell c) c.toNat := by
  have htext := EscapeText.braced (isHexDigit_of_mem_toDigits c.toNat)
    (List.length_pos_iff.2 (Nat.toDigits_ne_nil))
    ((Nat.length_toDigits_le_iff (by decide) (by decide)).2 hc)
  rw [hexNumber_toDigits] at htext
  rw [spell, if_neg h]
  exact htext

theorem flatMap_spell_eq_self {w : Word} (h : ∀ c ∈ w, ' ' ≤ c ∧ c ≤ '~') :
    w.flatMap spell = w := by
  induction w with
  | nil => rfl
  | cons c w ih =>
    rw [List.forall_mem_cons] at h
    rw [List.flatMap_cons, spell_of_le h.1, ih h.2, List.singleton_append]

/-- A backslash begins what is written for a character that is not printable, so a text without
one stands at the beginning only if the word itself begins with it. -/
theorem isPrefix_of_flatMap_spell {u x : Word} (hu : ∀ c ∈ u, c ≠ '\\') {w : Word}
    (h : w.flatMap spell = u ++ x) : u <+: w := by
  induction u generalizing w with
  | nil => exact List.nil_prefix
  | cons d u ih =>
    rw [List.forall_mem_cons] at hu
    rcases w with _ | ⟨c, w⟩
    · cases h
    · rw [List.flatMap_cons, List.cons_append] at h
      by_cases hc : ' ' ≤ c ∧ c ≤ '~'
      · rw [spell_of_le hc, List.singleton_append] at h
        obtain ⟨rfl, htail⟩ := List.cons.inj h
        exact List.cons_prefix_cons.2 ⟨rfl, ih hu.2 htail⟩
      · rw [spell, if_neg hc] at h
        exact absurd (List.cons.inj h).1.symm hu.1

theorem readEscape_cons_flatMap_spell {c : Char} {w : Word} (h : readEscape (c :: w) = none) :
    readEscape (c :: w.flatMap spell) = none := by
  by_contra hsome
  obtain ⟨⟨n, x⟩, hx⟩ := Option.ne_none_iff_exists'.1 hsome
  obtain ⟨e, he, heq⟩ := exists_of_readEscape hx
  obtain ⟨u, rfl, hu⟩ := he.eq_cons
  obtain ⟨rfl, htail⟩ := List.cons.inj heq
  obtain ⟨rest, rfl⟩ := isPrefix_of_flatMap_spell (fun c hc => (hu c hc).1) htail
  rw [← List.cons_append, readEscape_append he] at h
  cases h

theorem unescape_flatMap_spell {w : Word} (hw : ∀ c ∈ w, c.toNat < 16 ^ 5) :
    unescape (w.flatMap spell) = unescape w := by
  fun_induction unescape w with
  | case1 => rw [List.flatMap_nil, unescape]
  | case2 c r n rest h hlen ih =>
    obtain ⟨e, he, heq⟩ := exists_of_readEscape h
    rw [heq] at hw ⊢
    have hspell : e.flatMap spell = e := by
      obtain ⟨u, rfl, hu⟩ := he.eq_cons
      apply flatMap_spell_eq_self
      exact List.forall_mem_cons.2 ⟨by decide, fun c hc => (hu c hc).2.2⟩
    rw [List.flatMap_append, hspell, unescape_append he,
      ih fun c hc => hw c (List.mem_append_right e hc)]
  | case3 c r h ih =>
    rw [List.forall_mem_cons] at hw
    rw [List.flatMap_cons]
    by_cases hc : ' ' ≤ c ∧ c ≤ '~'
    · rw [spell_of_le hc, List.singleton_append,
        unescape_cons (readEscape_cons_flatMap_spell h), ih hw.2]
    · rw [unescape_append (escapeText_spell hc hw.1), ih hw.2]

/-- A text in which every quote is doubled, with one quote for two. -/
def undouble : Word → Option Word
  | [] => some []
  | '"' :: '"' :: r => (undouble r).map ('"' :: ·)
  | '"' :: _ => none
  | c :: r => (undouble r).map (c :: ·)

/-- The numbers of the characters of a string constant. -/
def readConstant : Word → Option (List ℕ)
  | '"' :: r => if r.getLast? = some '"' then (undouble r.dropLast).map unescape else none
  | _ => none

theorem undouble_append {u : Word} (hu : '"' ∉ u) (r : Word) :
    undouble (u ++ r) = (undouble r).map (u ++ ·) := by
  induction u with
  | nil => simp
  | cons c u ih =>
    rw [List.mem_cons, not_or] at hu
    rw [List.cons_append, undouble, ih hu.2, Option.map_map]
    · rfl
    · exact fun _ h _ => hu.1 h.symm
    · exact fun h => hu.1 h.symm

theorem undouble_flatMap_escape {w : Word} (hw : ∀ c ∈ w, c.toNat < 16 ^ 5) :
    undouble (w.flatMap escape) = some (w.flatMap spell) := by
  induction w with
  | nil => rfl
  | cons c w ih =>
    rw [List.forall_mem_cons] at hw
    rw [List.flatMap_cons, List.flatMap_cons]
    by_cases hq : c = '"'
    · subst hq
      have h : undouble ('"' :: '"' :: w.flatMap escape) =
          (undouble (w.flatMap escape)).map ('"' :: ·) := by rw [undouble]
      exact h.trans (by rw [ih hw.2]; rfl)
    · have hno : '"' ∉ spell c := by
        by_cases hc : ' ' ≤ c ∧ c ≤ '~'
        · rw [spell_of_le hc, List.mem_singleton]
          exact fun h => hq h.symm
        · obtain ⟨u, hu, hprint⟩ := (escapeText_spell hc hw.1).eq_cons
          rw [hu, List.mem_cons, not_or]
          exact ⟨by decide, fun h => (hprint _ h).2.1 rfl⟩
      rw [escape_of_ne hq, undouble_append hno, ih hw.2]
      rfl

theorem readConstant_quote {w : Word} (hw : ∀ c ∈ w, c.toNat < 16 ^ 5) :
    readConstant (quote w) = some (unescape w) := by
  rw [quote, readConstant, if_pos List.getLast?_concat, List.dropLast_concat,
    undouble_flatMap_escape hw, Option.map_some, unescape_flatMap_spell hw]

end Smtlib

namespace Term

open Smtlib

theorem smtlib_literal (w : Word) :
    (literal w).smtlib = "(str.to_re ".toList ++ quote w ++ ")".toList := by
  rw [smtlib.eq_def]

/-- The text of a literal holds one string constant, which reads back as the word with its escapes
decoded, and so as the word itself exactly if the word holds no escape. Between words that hold
none, different ones have different texts. -/
theorem readConstant_smtlib_literal {w : Word} (hw : ∀ c ∈ w, c.toNat ≤ 0x2ffff) :
    (∃ q, (literal w).smtlib = "(str.to_re ".toList ++ q ++ ")".toList ∧
      readConstant q = some (unescape w) ∧
      (readConstant q = some (w.map Char.toNat) ↔ ¬HoldsEscape w)) ∧
    ∀ v : Word, (∀ c ∈ v, c.toNat ≤ 0x2ffff) → ¬HoldsEscape v → ¬HoldsEscape w →
      (literal v).smtlib = (literal w).smtlib → v = w := by
  have hbound : ∀ {v : Word}, (∀ c ∈ v, c.toNat ≤ 0x2ffff) → ∀ c ∈ v, c.toNat < 16 ^ 5 :=
    fun hv c hc => Nat.lt_of_le_of_lt (hv c hc) (by decide)
  have hread := readConstant_quote (hbound hw)
  refine ⟨⟨quote w, smtlib_literal w, hread, ?_⟩, fun v hv hnv hnw h => ?_⟩
  · rw [hread, Option.some_inj, unescape_eq_map_iff]
  · rw [smtlib_literal, smtlib_literal, List.append_cancel_right_eq,
      List.append_cancel_left_eq] at h
    rw [← h, readConstant_quote (hbound hv), Option.some_inj, (unescape_eq_map_iff v).2 hnv,
      (unescape_eq_map_iff w).2 hnw] at hread
    exact List.map_injective_iff.2 (fun a b => Char.toNat_inj.1) hread

theorem readConstant_smtlib_tab_quote :
    (∀ c ∈ ['\t', '"', '\\'], c.toNat ≤ 0x2ffff) ∧
    ∃ q, (literal ['\t', '"', '\\']).smtlib = "(str.to_re ".toList ++ q ++ ")".toList ∧
      readConstant q = some [9, 34, 92] := by
  have hw : ∀ c ∈ ['\t', '"', '\\'], c.toNat ≤ 0x2ffff := by simp
  obtain ⟨⟨q, hq, hread, -⟩, -⟩ := readConstant_smtlib_literal hw
  have hcodes : unescape ['\t', '"', '\\'] = [9, 34, 92] := by cbv
  exact ⟨hw, q, hq, hread.trans (congrArg some hcodes)⟩

/-- The six characters of an escape for `A` read back as the one letter, and a line break has the
text of the five characters of its own escape. -/
theorem readConstant_smtlib_escape_of_A :
    (literal "\\u\x7b41\x7d".toList).smtlib =
      "(str.to_re ".toList ++ quote "\\u\x7b41\x7d".toList ++ ")".toList ∧
    readConstant (quote "\\u\x7b41\x7d".toList) = some ['A'.toNat] ∧
    (literal "\n".toList).smtlib = (literal "\\u\x7ba\x7d".toList).smtlib := by
  have hquote : quote "\n".toList = quote "\\u\x7ba\x7d".toList := by cbv
  rw [smtlib_literal, smtlib_literal, smtlib_literal, hquote]
  exact ⟨rfl, by cbv, rfl⟩

end Term

end RegLan
