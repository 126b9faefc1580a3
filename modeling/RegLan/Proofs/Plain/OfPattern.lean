import RegLan.Proofs.Encoding
import RegLan.Proofs.Pattern.Parser
import RegLan.Proofs.Plain.OfTerm
import RegLan.Proofs.Term.Positive

/-! Which patterns have a plain form. A negated bracket is the set of characters that it leaves, so
without negated shorthands a pattern has a plain form, but for one case: if all that a negated
bracket holds is ranges that run backwards, simplification leaves it as the complement of
nothing, and that is no set of characters. -/

namespace RegLan

/-- A range that ends before it starts. -/
def Member.Backwards : Member → Prop
  | .char _ => False
  | .range lo hi => hi < lo

instance : DecidablePred Member.Backwards
  | .char _ => inferInstanceAs (Decidable False)
  | .range lo hi => inferInstanceAs (Decidable (hi < lo))

namespace Pattern

mutual

/-- The parts of a pattern that hold no others. -/
def leaves : Pattern → List Pattern
  | .concat ps => leavesAll ps
  | .alt p q => leaves p ++ leaves q
  | .rep _ p => leaves p
  | p => [p]

def leavesAll : List Pattern → List Pattern
  | [] => []
  | p :: ps => leaves p ++ leavesAll ps

end

theorem mem_leavesAll {x : Pattern} {ps : List Pattern} :
    x ∈ leavesAll ps ↔ ∃ p ∈ ps, x ∈ p.leaves := by
  induction ps with
  | nil => simp [leavesAll]
  | cons p ps ih => rw [leavesAll, List.mem_append, ih, List.exists_mem_cons_iff]

theorem leaves_subset_concat {p : Pattern} {ps : List Pattern} (hp : p ∈ ps) :
    p.leaves ⊆ (concat ps).leaves := by
  intro x hx
  rw [leaves, mem_leavesAll]
  exact ⟨p, hp, hx⟩

end Pattern

namespace Term

open Language

variable {t c : Term} {ts : List Term} {bounds : ℕ → ℕ → Prop} {q : Prop}

mutual

/-- A term and all terms within it. -/
def parts : Term → List Term
  | .concat ts => .concat ts :: partsAll ts
  | .union ts => .union ts :: partsAll ts
  | .inter ts => .inter ts :: partsAll ts
  | .compl t => .compl t :: parts t
  | .star t => .star t :: parts t
  | .plus t => .plus t :: parts t
  | .opt t => .opt t :: parts t
  | .loop t min max => .loop t min max :: parts t
  | t => [t]

def partsAll : List Term → List Term
  | [] => []
  | t :: ts => parts t ++ partsAll ts

end

theorem mem_partsAll {x : Term} : x ∈ partsAll ts ↔ ∃ t ∈ ts, x ∈ t.parts := by
  induction ts with
  | nil => simp [partsAll]
  | cons t ts ih => rw [partsAll, List.mem_append, ih, List.exists_mem_cons_iff]

theorem exists_charSets?_iff :
    (∃ as, charSets? ts = some as) ↔ ∀ t ∈ ts, ∃ a, t.charSet? = some a := by
  induction ts with
  | nil => simp [charSets?]
  | cons t ts ih =>
    rw [List.forall_mem_cons, ← ih, charSets?]
    cases t.charSet? with
    | none => simp
    | some a => cases charSets? ts <;> simp

theorem exists_charSet?_union_iff :
    (∃ a, (union ts).charSet? = some a) ↔ ∀ t ∈ ts, ∃ a, t.charSet? = some a := by
  rw [← exists_charSets?_iff, charSet?]
  cases charSets? ts <;> simp

theorem IsClass.exists_charSet? (hc : IsClass c) : ∃ a, c.charSet? = some a := by
  induction hc with
  | char c => exact ⟨_, rfl⟩
  | range lo hi => exact ⟨_, rfl⟩
  | union _ ih => exact exists_charSet?_union_iff.2 ih
  | nothing => exact ⟨_, rfl⟩

theorem exists_charSet?_anyExcept (hc : IsClass c) : ∃ a, (anyExcept c).charSet? = some a := by
  obtain ⟨a, ha⟩ := hc.exists_charSet?
  simp only [anyExcept, anyChar, charSet?, interSets?, charSets?, ha]
  exact ⟨_, rfl⟩

theorem IsClass.anyExcept_none_notMem_parts (hc : IsClass c) : anyExcept .none ∉ c.parts := by
  induction hc with
  | char c => simp [parts, anyExcept]
  | range lo hi => simp [parts, anyExcept]
  | union _ ih =>
    rw [parts, List.mem_cons, mem_partsAll]
    simpa [anyExcept] using ih
  | nothing => simp [parts, partsAll, anyExcept, anyChar]

/-- The failure `f` is that of the complement of nothing, which is among `us`, and `q` holds. -/
structure Blocked (q : Prop) (f : NoPlainForm) (us : List Term) : Prop where
  eq : f = .intersection (anyExcept .none)
  mem : anyExcept .none ∈ us
  cause : q

theorem Blocked.cons {f : NoPlainForm} {us : List Term} (h : Blocked q f us) (u : Term) :
    Blocked q f (u :: us) :=
  ⟨h.eq, List.mem_cons_of_mem u h.mem, h.cause⟩

theorem blocked_of_toPlainAll {f : NoPlainForm}
    (ih : ∀ t ∈ ts, t.toPlain = .error f → Blocked q f t.parts) (h : toPlainAll ts = .error f) :
    Blocked q f (partsAll ts) := by
  obtain ⟨t, ht, hf⟩ := exists_of_toPlainAll_eq_error h
  have hblocked := ih t ht hf
  exact ⟨hblocked.eq, mem_partsAll.2 ⟨t, ht, hblocked.mem⟩, hblocked.cause⟩

theorem blocked_of_toPlain {f : NoPlainForm} (ht : Positive bounds q t)
    (h : t.toPlain = .error f) : Blocked q f t.parts := by
  induction ht with
  | none => cases h
  | literal w =>
    cases hset : (literal w).charSet? with
    | some a =>
      rw [toPlain_of_charSet? hset] at h
      cases h
    | none =>
      rw [toPlain_literal hset] at h
      cases h
  | range lo hi => cases h
  | concat _ ih =>
    rw [toPlain_concat, map_eq_error] at h
    exact (blocked_of_toPlainAll ih h).cons _
  | @union ts _ ih =>
    cases hset : (union ts).charSet? with
    | some a =>
      rw [toPlain_of_charSet? hset] at h
      cases h
    | none =>
      rw [toPlain_union hset, map_eq_error] at h
      exact (blocked_of_toPlainAll ih h).cons _
  | star _ ih =>
    rw [toPlain_star, map_eq_error] at h
    exact (ih h).cons _
  | plus _ ih =>
    rw [toPlain_plus, map_eq_error] at h
    exact (ih h).cons _
  | opt _ ih =>
    rw [toPlain_opt, map_eq_error] at h
    exact (ih h).cons _
  | loop _ _ ih =>
    rw [toPlain_loop] at h
    split at h
    · cases h
    · exact (ih (map_eq_error.1 h)).cons _
  | except hc hq =>
    rcases hc with rfl | hc
    · cases h
      exact ⟨rfl, List.mem_cons_self, hq (by rw [lang])⟩
    · obtain ⟨a, ha⟩ := exists_charSet?_anyExcept hc
      rw [toPlain_of_charSet? ha] at h
      cases h

theorem anyExcept_none_notMem_partsAll {es : List Plain}
    (ih : ∀ t ∈ ts, ∀ e, t.toPlain = .ok e → anyExcept .none ∉ t.parts)
    (h : toPlainAll ts = .ok es) : anyExcept .none ∉ partsAll ts := by
  rw [mem_partsAll]
  rintro ⟨t, ht, hmem⟩
  obtain ⟨e, he⟩ := exists_of_toPlainAll_eq_ok h t ht
  exact ih t ht e he hmem

/-- Unless a loop is empty whatever it repeats, every part of a term must have a plain form. -/
theorem anyExcept_none_notMem_parts {e : Plain} (ht : Positive (· ≤ ·) q t)
    (h : t.toPlain = .ok e) : anyExcept .none ∉ t.parts := by
  induction ht generalizing e with
  | none => simp [parts, anyExcept]
  | literal w => simp [parts, anyExcept]
  | range lo hi => simp [parts, anyExcept]
  | concat _ ih =>
    rw [toPlain_concat, map_eq_ok] at h
    obtain ⟨es, hes, -⟩ := h
    refine List.not_mem_cons_of_ne_of_not_mem (fun heq => by cases heq) ?_
    exact anyExcept_none_notMem_partsAll (fun t ht e => ih t ht) hes
  | @union ts _ ih =>
    refine List.not_mem_cons_of_ne_of_not_mem (fun heq => by cases heq) ?_
    cases hset : (union ts).charSet? with
    | some a =>
      rw [mem_partsAll]
      rintro ⟨t, ht, hmem⟩
      obtain ⟨b, hb⟩ := exists_charSet?_union_iff.1 ⟨a, hset⟩ t ht
      exact ih t ht (toPlain_of_charSet? hb) hmem
    | none =>
      rw [toPlain_union hset, map_eq_ok] at h
      obtain ⟨es, hes, -⟩ := h
      exact anyExcept_none_notMem_partsAll (fun t ht e => ih t ht) hes
  | star _ ih =>
    rw [toPlain_star, map_eq_ok] at h
    obtain ⟨d, hd, -⟩ := h
    exact List.not_mem_cons_of_ne_of_not_mem (fun heq => by cases heq) (ih hd)
  | plus _ ih =>
    rw [toPlain_plus, map_eq_ok] at h
    obtain ⟨d, hd, -⟩ := h
    exact List.not_mem_cons_of_ne_of_not_mem (fun heq => by cases heq) (ih hd)
  | opt _ ih =>
    rw [toPlain_opt, map_eq_ok] at h
    obtain ⟨d, hd, -⟩ := h
    exact List.not_mem_cons_of_ne_of_not_mem (fun heq => by cases heq) (ih hd)
  | loop hle _ ih =>
    rw [toPlain_loop, if_neg (Nat.not_lt.2 hle), map_eq_ok] at h
    obtain ⟨d, hd, -⟩ := h
    exact List.not_mem_cons_of_ne_of_not_mem (fun heq => by cases heq) (ih hd)
  | @except c hc _ =>
    rcases hc with rfl | hc
    · cases h
    · have hne : anyExcept .none ≠ anyExcept c := by
        intro heq
        cases heq
        cases hc
      apply List.not_mem_cons_of_ne_of_not_mem hne
      rw [mem_partsAll, List.exists_mem_cons_iff, List.exists_mem_cons_iff, not_or, not_or]
      refine ⟨isClass_anyChar.anyExcept_none_notMem_parts, ?_, by simp⟩
      exact List.not_mem_cons_of_ne_of_not_mem (fun heq => by cases heq)
        hc.anyExcept_none_notMem_parts

end Term

namespace Solver

open Language Term

variable {bounds : ℕ → ℕ → Prop} {q : Prop}

theorem isClass_member (m : Member) : IsClass (reference.member m).run := by
  cases m with
  | char c => exact .char c
  | range lo hi => exact .range lo hi

theorem isClass_unionMembers (ms : List Member) {t : Term} (ht : IsClass t) :
    IsClass (reference.unionMembers t ms).run := by
  induction ms generalizing t with
  | nil => exact ht
  | cons m ms ih => exact ih (isClass_pair ht (isClass_member m))

theorem isClass_members (ms : List Member) : IsClass (reference.members ms).run := by
  cases ms with
  | nil => exact .nothing
  | cons m ms => exact isClass_unionMembers ms (isClass_member m)

theorem isClass_shorthand (k : Shorthand) : IsClass (reference.shorthand k false).run := by
  cases k with
  | digit => exact .range '0' '9'
  | word =>
    have hletters := isClass_pair (.range 'a' 'z') (.range 'A' 'Z')
    exact isClass_pair (isClass_pair hletters (.range '0' '9')) (.char '_')
  | space =>
    have hbreaks := isClass_pair (.char '\r') (isClass_pair (.char '\n') (.char '\x0c'))
    exact isClass_pair (.char ' ') (isClass_pair (.char '\t') hbreaks)

/-- Members that together describe no character are all ranges that run backwards. -/
theorem backwards_of_lang_members_eq_zero {ms : List Member}
    (h : (reference.members ms).run.lang = 0) : ∀ m ∈ ms, m.Backwards := by
  rw [lang_members] at h
  intro m hm
  by_contra hforward
  have hchar : ∃ c, c ∈ m.chars := by
    cases m with
    | char c => exact ⟨c, rfl⟩
    | range lo hi => exact ⟨lo, Char.le_refl lo, Char.not_lt.1 hforward⟩
  obtain ⟨c, hc⟩ := hchar
  have hmem : [c] ∈ ofChars {c | ∃ m ∈ ms, c ∈ m.chars} := ⟨c, ⟨m, hm, hc⟩, rfl⟩
  rw [h] at hmem
  exact notMem_zero [c] hmem

theorem positive_bracket (b : Bracket)
    (hq : b.negated = true → (∀ m ∈ b.members, m.Backwards) → q) :
    Positive bounds q (reference.bracket b).run := by
  obtain ⟨negated, ms⟩ := b
  cases negated with
  | false => exact (isClass_members ms).positive
  | true =>
    exact .except (.inr (isClass_members ms)) fun h => hq rfl (backwards_of_lang_members_eq_zero h)

theorem positive_quantify {t : Term} (ht : Positive (fun _ _ => True) q t) (k : Quantifier) :
    Positive (fun _ _ => True) q (reference.quantify t k).run := by
  cases k with
  | zeroOrMore => exact .star ht
  | oneOrMore => exact .plus ht
  | zeroOrOne => exact .opt ht
  | between min max => exact .loop trivial ht

theorem positive_appendAll {ps : List Pattern}
    (ih : ∀ p ∈ ps, Positive bounds q (reference.build p).run) {t : Term}
    (ht : Positive bounds q t) : Positive bounds q (reference.appendAll ps t).run := by
  induction ps generalizing t with
  | nil =>
    rw [appendAll]
    exact ht
  | cons p ps ihs =>
    rw [List.forall_mem_cons] at ih
    rw [appendAll_cons]
    exact ihs ih.2 (positive_concat_pair ht ih.1)

theorem positive_buildConcat {ps : List Pattern}
    (ih : ∀ p ∈ ps, Positive bounds q (reference.build p).run) :
    Positive bounds q (reference.buildConcat ps).run := by
  cases ps with
  | nil =>
    rw [buildConcat]
    exact .literal []
  | cons p ps =>
    rw [List.forall_mem_cons] at ih
    rw [buildConcat_cons]
    exact positive_appendAll ih.2 ih.1

theorem positive_build (p : Pattern) (hshort : ∀ k, .shorthand k true ∉ p.leaves)
    (hq : ∀ ms, .bracket ⟨true, ms⟩ ∈ p.leaves → (∀ m ∈ ms, m.Backwards) → q) :
    Positive (fun _ _ => True) q (reference.build p).run := by
  induction p with
  | concat ps ih =>
    have hps : ∀ p ∈ ps, Positive (fun _ _ => True) q (reference.build p).run := by
      intro p hp
      have hleaves := Pattern.leaves_subset_concat hp
      exact ih p hp (fun k hk => hshort k (hleaves hk)) fun ms hms => hq ms (hleaves hms)
    rw [build_concat]
    exact (positive_buildConcat hps).simplify.mono fun _ _ _ => trivial
  | alt p p' ihp ihp' =>
    rw [build_alt]
    simp only [Pattern.leaves, List.mem_append, not_or] at hshort hq
    exact positive_union_pair (ihp (fun k => (hshort k).1) fun ms hms => hq ms (.inl hms))
      (ihp' (fun k => (hshort k).2) fun ms hms => hq ms (.inr hms))
  | rep k p ih =>
    rw [build_rep]
    rw [Pattern.leaves] at hshort hq
    exact positive_quantify (ih hshort hq) k
  | char c => exact .literal [c]
  | any => exact isClass_anyChar.positive
  | shorthand k negated =>
    cases negated with
    | true => exact absurd List.mem_cons_self (hshort k)
    | false => exact (isClass_shorthand k).positive
  | bracket b =>
    rw [build]
    refine positive_bracket b fun hneg hback => hq b.members ?_ hback
    rw [← hneg]
    exact List.mem_cons_self

end Solver

namespace Anchoring

open Term

variable {bounds : ℕ → ℕ → Prop} {q : Prop}

theorem positive_applyStart (a : Anchoring) {t : Term} (ht : Positive bounds q t) :
    Positive bounds q (a.applyStart Solver.reference t).run := by
  have hstar : Positive bounds q (.star anyChar) := .star isClass_anyChar.positive
  cases a with
  | union => exact positive_union_pair hstar ht
  | surround => exact positive_concat_pair hstar ht
  | exact => exact ht

theorem positive_applyStop (a : Anchoring) {t : Term} (ht : Positive bounds q t) :
    Positive bounds q (a.applyStop Solver.reference t).run := by
  cases a with
  | union => exact positive_union_pair (.star ht) isClass_anyChar.positive
  | surround => exact positive_concat_pair ht (.star isClass_anyChar.positive)
  | exact => exact ht

theorem positive_apply (a : Anchoring) (p : Word) {t : Term} (ht : Positive bounds q t) :
    Positive bounds q (a.apply Solver.reference p t).run := by
  have hstart : Positive bounds q
      (if ['^'] <+: p then t else (a.applyStart Solver.reference t).run) := by
    split
    · exact ht
    · exact positive_applyStart a ht
  rw [apply_eq]
  by_cases hstop : ['$'] <:+ p
  · simp only [if_pos hstop]
    exact hstart
  · simp only [if_neg hstop]
    exact positive_applyStop a hstart

end Anchoring

/-- The term of a pattern without negated shorthands has a plain form exactly if it nowhere asks for
all but nothing. If it does, that is what is reported, and it comes from a negated bracket
with nothing in it but ranges that run backwards. -/
theorem exists_toPlain_encodePattern_iff {p : Word} {t : Pattern} (hp : Pattern.parse p = .ok t)
    (ht : ∀ k, .shorthand k true ∉ t.leaves) (a : Anchoring) :
    ∃ u, (encodePattern Solver.reference a p).run = .ok u ∧
      ((∃ e, u.toPlain = .ok e) ↔ Term.anyExcept .none ∉ u.parts) ∧
      ∀ f, u.toPlain = .error f → f = .intersection (Term.anyExcept .none) ∧
        ∃ ms, .bracket ⟨true, ms⟩ ∈ t.leaves ∧ ∀ m ∈ ms, m.Backwards := by
  obtain @⟨ps, -⟩ := Pattern.parse_eq_ok.1 hp
  have hps : ∀ r ∈ ps, Term.Positive (fun _ _ => True)
      (∃ ms, .bracket ⟨true, ms⟩ ∈ (Pattern.concat ps).leaves ∧ ∀ m ∈ ms, m.Backwards)
      (Solver.reference.build r).run := by
    intro r hr
    have hleaves := Pattern.leaves_subset_concat hr
    exact Solver.positive_build r (fun k hk => ht k (hleaves hk))
      fun ms hms hback => ⟨ms, hleaves hms, hback⟩
  -- a parsed pattern is a concatenation, and its term is simplified
  have hterm := (Solver.positive_buildConcat hps).simplify
  rw [← Solver.build_concat] at hterm
  have hpos := Anchoring.positive_apply a p hterm
  refine ⟨_, encodePattern_eq_ok hp a, ⟨fun h => ?_, fun h => ?_⟩, fun f hf => ?_⟩
  · obtain ⟨e, he⟩ := h
    exact Term.anyExcept_none_notMem_parts hpos he
  · cases hplain : Term.toPlain _ with
    | ok e => exact ⟨e, rfl⟩
    | error f => exact absurd (Term.blocked_of_toPlain hpos hplain).mem h
  · have hblocked := Term.blocked_of_toPlain hpos hf
    exact ⟨hblocked.eq, hblocked.cause⟩

/-- The pattern `x[^a-c]*`, with text around it. -/
theorem exists_toPlain_starred_bracket : ∃ u e,
    (encodePattern Solver.reference .surround ['x', '[', '^', 'a', '-', 'c', ']', '*']).run =
      .ok u ∧ u.toPlain = .ok e := by
  have hparse : Pattern.parse ['x', '[', '^', 'a', '-', 'c', ']', '*'] =
      .ok (.concat [.char 'x', .rep .zeroOrMore (.bracket ⟨true, [.range 'a' 'c']⟩)]) := by cbv
  obtain ⟨u, hu, -, hfail⟩ := exists_toPlain_encodePattern_iff hparse
    (by simp [Pattern.leaves, Pattern.leavesAll]) .surround
  refine ⟨u, ?_⟩
  cases hplain : u.toPlain with
  | ok e => exact ⟨e, hu, rfl⟩
  | error f =>
    obtain ⟨-, ms, hms, hback⟩ := hfail f hplain
    simp only [Pattern.leaves, Pattern.leavesAll, List.append_nil, List.mem_cons,
      List.cons_append, List.nil_append, List.not_mem_nil, or_false, reduceCtorEq, false_or,
      Pattern.bracket.injEq, Bracket.mk.injEq, true_and] at hms
    subst hms
    exact absurd (hback (.range 'a' 'c') List.mem_cons_self) (by decide)

/-- The pattern `[^z-a]` is all but nothing, which accepts every character and has no plain form. -/
theorem toPlain_backwards_bracket :
    (encodePattern Solver.reference .exact ['[', '^', 'z', '-', 'a', ']']).run =
      .ok (Term.anyExcept .none) ∧
    (Term.anyExcept .none).toPlain = .error (.intersection (Term.anyExcept .none)) := by
  refine ⟨?_, rfl⟩
  cbv

end RegLan
