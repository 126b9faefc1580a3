import Mathlib
import RegLan.Plain.OfTerm
import RegLan.Proofs.Plain.Choice
import RegLan.Proofs.Term.Derivative

/-! The plain form of a term matches what the term accepts. The set of characters of a term is
exact, with complements in intersections as what is left out, and every other step makes
the expression of its construct. -/

namespace RegLan

namespace Term

open Computability Language

variable {t : Term} {ts : List Term} {w : Word}

/-- If the term has a set, its words are the characters of that set. -/
def SetExact (t : Term) : Prop := ∀ a, t.charSet? = some a → a.Sound ∧ t.lang = ofChars a.chars

/-- What holds of the sets of all operands holds of every set in the list. -/
theorem forall_of_charSets? {P : CharSet → Prop} {as : List CharSet}
    (ih : ∀ t ∈ ts, ∀ a, t.charSet? = some a → P a) (h : charSets? ts = some as) :
    ∀ a ∈ as, P a := by
  induction ts generalizing as with
  | nil =>
    cases h
    exact List.forall_mem_nil _
  | cons t ts ihs =>
    obtain ⟨iht, ihts⟩ := List.forall_mem_cons.1 ih
    simp only [charSets?, Option.pure_def, Option.bind_eq_bind, Option.bind_eq_some_iff,
      Option.some.injEq] at h
    obtain ⟨a, ha, as', has, rfl⟩ := h
    exact List.forall_mem_cons.2 ⟨iht a ha, ihs ihts has⟩

theorem exists_mem_charSets?_iff {as : List CharSet} (ih : ∀ t ∈ ts, t.SetExact)
    (h : charSets? ts = some as) :
    (∃ a ∈ as, w ∈ ofChars a.chars) ↔ ∃ t ∈ ts, w ∈ t.lang := by
  induction ts generalizing as with
  | nil =>
    cases h
    simp
  | cons t ts ihs =>
    obtain ⟨iht, ihts⟩ := List.forall_mem_cons.1 ih
    simp only [charSets?, Option.pure_def, Option.bind_eq_bind, Option.bind_eq_some_iff,
      Option.some.injEq] at h
    obtain ⟨a, ha, as', has, rfl⟩ := h
    rw [List.exists_mem_cons_iff, List.exists_mem_cons_iff, ihs ihts has, (iht a ha).2]

/-- An operand of an intersection adds its set to those it keeps to, or, as a complement, to those
it excludes. -/
theorem interSets?_cons {p : List CharSet × List CharSet} (h : interSets? (t :: ts) = some p) :
    ∃ a included excluded, interSets? ts = some (included, excluded) ∧
      ((∃ u, t = .compl u ∧ u.charSet? = some a ∧ p = (included, a :: excluded)) ∨
        t.charSet? = some a ∧ p = (a :: included, excluded)) := by
  by_cases hcompl : ∃ u, t = .compl u
  · obtain ⟨u, rfl⟩ := hcompl
    simp only [interSets?, Option.pure_def, Option.bind_eq_bind, Option.bind_eq_some_iff,
      Option.some.injEq] at h
    obtain ⟨a, ha, ⟨included, excluded⟩, hts, rfl⟩ := h
    exact ⟨a, included, excluded, hts, Or.inl ⟨u, rfl, ha, rfl⟩⟩
  · rw [interSets?] at h
    · simp only [Option.pure_def, Option.bind_eq_bind, Option.bind_eq_some_iff,
        Option.some.injEq] at h
      obtain ⟨a, ha, ⟨included, excluded⟩, hts, rfl⟩ := h
      exact ⟨a, included, excluded, hts, Or.inr ⟨ha, rfl⟩⟩
    · intro u hu
      exact hcompl ⟨u, hu⟩

theorem forall_of_interSets? {P : CharSet → Prop} {included excluded : List CharSet}
    (ih : ∀ t ∈ ts, (∀ a, t.charSet? = some a → P a) ∧
      ∀ u, t = .compl u → ∀ a, u.charSet? = some a → P a)
    (h : interSets? ts = some (included, excluded)) :
    (∀ a ∈ included, P a) ∧ ∀ a ∈ excluded, P a := by
  induction ts generalizing included excluded with
  | nil =>
    cases h
    exact ⟨List.forall_mem_nil _, List.forall_mem_nil _⟩
  | cons t ts ihs =>
    obtain ⟨⟨iht, ihu⟩, ihts⟩ := List.forall_mem_cons.1 ih
    obtain ⟨a, included', excluded', hts, h⟩ := interSets?_cons h
    obtain ⟨hinc, hexc⟩ := ihs ihts hts
    rcases h with ⟨u, hu, ha, heq⟩ | ⟨ha, heq⟩
    · cases heq
      exact ⟨hinc, List.forall_mem_cons.2 ⟨ihu u hu a ha, hexc⟩⟩
    · cases heq
      exact ⟨List.forall_mem_cons.2 ⟨iht a ha, hinc⟩, hexc⟩

theorem mem_lang_inter_iff_interSets? {included excluded : List CharSet}
    (ih : ∀ t ∈ ts, t.SetExact ∧ ∀ u, t = .compl u → u.SetExact)
    (h : interSets? ts = some (included, excluded)) :
    w ∈ (inter ts).lang ↔
      (∀ a ∈ included, w ∈ ofChars a.chars) ∧ ∀ a ∈ excluded, w ∉ ofChars a.chars := by
  rw [mem_lang_inter]
  induction ts generalizing included excluded with
  | nil =>
    cases h
    simp
  | cons t ts ihs =>
    obtain ⟨⟨iht, ihu⟩, ihts⟩ := List.forall_mem_cons.1 ih
    obtain ⟨a, included', excluded', hts, h⟩ := interSets?_cons h
    rw [List.forall_mem_cons, ihs ihts hts]
    rcases h with ⟨u, hu, ha, heq⟩ | ⟨ha, heq⟩
    · cases heq
      rw [hu, mem_lang_compl, (ihu u hu a ha).2, List.forall_mem_cons, and_left_comm]
    · cases heq
      rw [(iht a ha).2, List.forall_mem_cons, and_assoc]

/-- Kept sets are met, and what is excluded is cut out of them. -/
theorem setExact_inter (ih : ∀ t ∈ ts, t.SetExact ∧ ∀ u, t = .compl u → u.SetExact) :
    (inter ts).SetExact := by
  intro b hb
  simp only [charSet?, Option.bind_eq_bind, Option.bind_eq_some_iff] at hb
  obtain ⟨⟨included, excluded⟩, hts, hb⟩ := hb
  cases included with
  | nil => cases hb
  | cons a included =>
    obtain rfl := Option.some.inj hb
    obtain ⟨hinc, hexc⟩ := forall_of_interSets? (P := CharSet.Sound) (fun t ht =>
      ⟨fun a ha => ((ih t ht).1 a ha).1, fun u hu a ha => ((ih t ht).2 u hu a ha).1⟩) hts
    obtain ⟨ha, hinc⟩ := List.forall_mem_cons.1 hinc
    refine ⟨CharSet.sound_diff (CharSet.sound_foldl_inter ha hinc)
      (CharSet.sound_foldl_union CharSet.sound_empty hexc), ?_⟩
    ext w
    rw [mem_lang_inter_iff_interSets? ih hts, List.forall_mem_cons, CharSet.chars_diff]
    simp only [mem_ofChars, Set.mem_sdiff, CharSet.mem_chars_foldl_inter,
      CharSet.mem_chars_foldl_union CharSet.sound_empty hexc, CharSet.chars_empty,
      Set.mem_empty_iff_false, false_or]
    refine ⟨fun h => ?_, fun h => ?_⟩
    · obtain ⟨⟨⟨c, hc, rfl⟩, hinc⟩, hexc⟩ := h
      refine ⟨c, ⟨⟨hc, fun b hb => ?_⟩, fun h => ?_⟩, rfl⟩
      · obtain ⟨d, hd, hcd⟩ := hinc b hb
        obtain rfl := List.singleton_inj.1 hcd
        exact hd
      · obtain ⟨b, hb, hc⟩ := h
        exact hexc b hb ⟨c, hc, rfl⟩
    · obtain ⟨c, ⟨⟨hc, hinc⟩, hexc⟩, rfl⟩ := h
      refine ⟨⟨⟨c, hc, rfl⟩, fun b hb => ⟨c, hinc b hb, rfl⟩⟩, fun b hb h => ?_⟩
      obtain ⟨d, hd, hcd⟩ := h
      obtain rfl := List.singleton_inj.1 hcd
      exact hexc ⟨b, hb, hd⟩

theorem setExact_union (ih : ∀ t ∈ ts, t.SetExact) : (union ts).SetExact := by
  intro b hb
  simp only [charSet?, Option.pure_def, Option.bind_eq_bind, Option.bind_eq_some_iff,
    Option.some.injEq] at hb
  obtain ⟨as, has, rfl⟩ := hb
  have hsound := forall_of_charSets? (P := CharSet.Sound) (fun t ht a ha => (ih t ht a ha).1) has
  refine ⟨CharSet.sound_foldl_union CharSet.sound_empty hsound, ?_⟩
  ext w
  rw [mem_lang_union, ← exists_mem_charSets?_iff ih has,
    ← Plain.lang_ofSet (CharSet.sound_foldl_union CharSet.sound_empty hsound),
    Plain.mem_lang_ofSet_union hsound]

theorem setExact_literal (v : Word) : (literal v).SetExact := by
  intro a ha
  match v with
  | [] => cases ha
  | [c] =>
    obtain rfl := Option.some.inj ha
    refine ⟨CharSet.sound_singleton c, ?_⟩
    rw [CharSet.chars_singleton, ofChars_singleton, lang]
  | _ :: _ :: _ => cases ha

/-- An intersection looks into the complements among its operands, so the induction does too. -/
theorem setExact_and_of_compl (t : Term) : t.SetExact ∧ ∀ u, t = .compl u → u.SetExact := by
  induction t with
  | none => exact ⟨fun a ha => (by cases ha), fun u hu => (by cases hu)⟩
  | literal w => exact ⟨setExact_literal w, fun u hu => (by cases hu)⟩
  | range lo hi =>
    refine ⟨fun a ha => ?_, fun u hu => (by cases hu)⟩
    obtain rfl := Option.some.inj ha
    refine ⟨CharSet.sound_range lo hi, ?_⟩
    rw [CharSet.chars_range, lang]
  | concat ts ih => exact ⟨fun a ha => (by cases ha), fun u hu => (by cases hu)⟩
  | union ts ih => exact ⟨setExact_union fun t ht => (ih t ht).1, fun u hu => (by cases hu)⟩
  | inter ts ih => exact ⟨setExact_inter ih, fun u hu => (by cases hu)⟩
  | compl t ih =>
    refine ⟨fun a ha => (by cases ha), fun u hu => ?_⟩
    obtain rfl := Term.compl.inj hu
    exact ih.1
  | star t ih => exact ⟨fun a ha => (by cases ha), fun u hu => (by cases hu)⟩
  | plus t ih => exact ⟨fun a ha => (by cases ha), fun u hu => (by cases hu)⟩
  | opt t ih => exact ⟨fun a ha => (by cases ha), fun u hu => (by cases hu)⟩
  | loop t min max ih => exact ⟨fun a ha => (by cases ha), fun u hu => (by cases hu)⟩

theorem setExact (t : Term) : t.SetExact := (setExact_and_of_compl t).1

theorem toPlain_of_charSet? {a : CharSet} (h : t.charSet? = some a) :
    t.toPlain = .ok (.ofSet a) := by
  rw [toPlain.eq_def, h]
  rfl

theorem toPlain_literal {v : Word} (h : (literal v).charSet? = .none) :
    (literal v).toPlain = .ok (.ofWord v) := by
  rw [toPlain.eq_def, h]
  rfl

theorem toPlain_concat (ts : List Term) :
    (concat ts).toPlain = (toPlainAll ts).map Plain.sequence := by
  change (do return Plain.sequence (← toPlainAll ts)) = _
  cases toPlainAll ts <;> rfl

theorem toPlain_union (h : (union ts).charSet? = .none) :
    (union ts).toPlain = (toPlainAll ts).map Plain.choice := by
  rw [toPlain.eq_def]
  simp only [h]
  cases toPlainAll ts <;> rfl

theorem toPlain_inter (h : (inter ts).charSet? = .none) :
    (inter ts).toPlain = .error (.intersection (inter ts)) := by
  rw [toPlain.eq_def, h]
  rfl

theorem toPlain_star (t : Term) : (star t).toPlain = t.toPlain.map (·.times 0 .none) := by
  change (do return (← t.toPlain).times 0 .none) = _
  cases t.toPlain <;> rfl

theorem toPlain_plus (t : Term) : (plus t).toPlain = t.toPlain.map (·.times 1 .none) := by
  change (do return (← t.toPlain).times 1 .none) = _
  cases t.toPlain <;> rfl

theorem toPlain_opt (t : Term) : (opt t).toPlain = t.toPlain.map (·.times 0 (some 1)) := by
  change (do return (← t.toPlain).times 0 (some 1)) = _
  cases t.toPlain <;> rfl

theorem toPlain_loop (t : Term) (min max : ℕ) : (loop t min max).toPlain =
    if max < min then .ok .fail else t.toPlain.map (·.times min (some max)) := by
  change (if max < min then return .fail else do return (← t.toPlain).times min (some max)) = _
  split
  · rfl
  · cases t.toPlain <;> rfl

theorem toPlainAll_cons (t : Term) (ts : List Term) : toPlainAll (t :: ts) =
    match t.toPlain with
    | .error f => .error f
    | .ok e => (toPlainAll ts).map (e :: ·) := by
  rw [toPlainAll]
  cases t.toPlain with
  | error f => rfl
  | ok e => cases toPlainAll ts <;> rfl

theorem map_eq_ok {ε α β : Type} {x : Except ε α} {f : α → β} {b : β} :
    x.map f = .ok b ↔ ∃ a, x = .ok a ∧ f a = b := by
  cases x with
  | error e => simp [Except.map]
  | ok a => simp [Except.map]

theorem map_eq_error {ε α β : Type} {x : Except ε α} {f : α → β} {e : ε} :
    x.map f = .error e ↔ x = .error e := by
  cases x with
  | error e => simp [Except.map]
  | ok a => simp [Except.map]

theorem toPlainAll_eq_ok {es : List Plain} :
    toPlainAll ts = .ok es ↔ List.Forall₂ (fun t e => t.toPlain = .ok e) ts es := by
  induction ts generalizing es with
  | nil =>
    rw [List.forall₂_nil_left_iff]
    exact ⟨fun h => (Except.ok.inj h).symm, fun h => h ▸ rfl⟩
  | cons t ts ih =>
    rw [toPlainAll_cons, List.forall₂_cons_left_iff]
    cases t.toPlain with
    | error f => simp
    | ok e =>
      refine ⟨fun h => ?_, fun h => ?_⟩
      · obtain ⟨es', hes, rfl⟩ := map_eq_ok.1 h
        exact ⟨e, es', rfl, ih.1 hes, rfl⟩
      · obtain ⟨d, es', hd, hes, rfl⟩ := h
        cases hd
        exact map_eq_ok.2 ⟨es', ih.2 hes, rfl⟩

theorem exists_of_toPlainAll_eq_error {f : NoPlainForm} (h : toPlainAll ts = .error f) :
    ∃ t ∈ ts, t.toPlain = .error f := by
  induction ts with
  | nil => cases h
  | cons t ts ih =>
    rw [toPlainAll_cons] at h
    rw [List.exists_mem_cons_iff]
    cases ht : t.toPlain with
    | error f' =>
      simp only [ht] at h
      cases h
      exact .inl rfl
    | ok e =>
      simp only [ht] at h
      exact .inr (ih (map_eq_error.1 h))

theorem exists_of_toPlainAll_eq_ok {es : List Plain} (h : toPlainAll ts = .ok es) :
    ∀ t ∈ ts, ∃ e, t.toPlain = .ok e := by
  rw [toPlainAll_eq_ok] at h
  induction h with
  | nil => exact fun t ht => nomatch ht
  | cons he _ ih => exact List.forall_mem_cons.2 ⟨⟨_, he⟩, ih⟩

/-- If the term has a plain form, that form has sound sets and the words of the term. -/
def PlainExact (t : Term) : Prop := ∀ e, t.toPlain = .ok e → e.Sound ∧ e.lang = t.lang

theorem plainExact_of_charSet? {a : CharSet} (h : t.charSet? = some a) : t.PlainExact := by
  intro e he
  rw [toPlain_of_charSet? h] at he
  obtain rfl := Except.ok.inj he
  obtain ⟨ha, hlang⟩ := setExact t a h
  exact ⟨Plain.sound_ofSet ha, (Plain.lang_ofSet ha).trans hlang.symm⟩

/-- What holds of each operand holds of the list of all. -/
theorem sound_and_map_lang {es : List Plain} (ih : ∀ t ∈ ts, t.PlainExact)
    (h : toPlainAll ts = .ok es) : (∀ e ∈ es, e.Sound) ∧ es.map Plain.lang = ts.map lang := by
  rw [toPlainAll_eq_ok] at h
  induction h with
  | nil => exact ⟨fun _ he => (nomatch he), rfl⟩
  | cons he hes ihs =>
    obtain ⟨iht, ihts⟩ := List.forall_mem_cons.1 ih
    obtain ⟨hsound, hlang⟩ := iht _ he
    obtain ⟨hsounds, hlangs⟩ := ihs ihts
    refine ⟨List.forall_mem_cons.2 ⟨hsound, hsounds⟩, ?_⟩
    rw [List.map_cons, List.map_cons, hlang, hlangs]

theorem plainExact_concat (ih : ∀ t ∈ ts, t.PlainExact) : (concat ts).PlainExact := by
  intro e he
  rw [toPlain_concat, map_eq_ok] at he
  obtain ⟨es, hes, rfl⟩ := he
  obtain ⟨hsound, hlang⟩ := sound_and_map_lang ih hes
  refine ⟨Plain.sound_sequence hsound, ?_⟩
  rw [Plain.lang_sequence, lang_concat, hlang]

theorem plainExact_union (h : (union ts).charSet? = .none) (ih : ∀ t ∈ ts, t.PlainExact) :
    (union ts).PlainExact := by
  intro e he
  rw [toPlain_union h, map_eq_ok] at he
  obtain ⟨es, hes, rfl⟩ := he
  obtain ⟨hsound, hlang⟩ := sound_and_map_lang ih hes
  refine ⟨Plain.sound_choice hsound, ?_⟩
  ext w
  have hes : (∃ e ∈ es, w ∈ e.lang) ↔ ∃ l ∈ es.map Plain.lang, w ∈ l := by simp
  have hts : (∃ t ∈ ts, w ∈ t.lang) ↔ ∃ l ∈ ts.map lang, w ∈ l := by simp
  rw [Plain.mem_lang_choice hsound, mem_lang_union, hes, hlang, hts]

/-- A repetition of the plain form of a term, between bounds that leave a choice. -/
theorem sound_and_lang_times {e : Plain} {k : ℕ} {m : Option ℕ} (ih : t.PlainExact)
    (hkm : ∀ n ∈ m, k ≤ n) (h : t.toPlain.map (·.times k m) = .ok e) :
    e.Sound ∧ e.lang = t.lang.repeated k m := by
  rw [map_eq_ok] at h
  obtain ⟨d, hd, rfl⟩ := h
  obtain ⟨hsound, hlang⟩ := ih d hd
  refine ⟨Plain.sound_times hsound k m, ?_⟩
  rw [Plain.lang_times hkm, hlang]

theorem plainExact (t : Term) : t.PlainExact := by
  induction t with
  | none =>
    intro e he
    obtain rfl := Except.ok.inj he
    exact ⟨.fail, rfl⟩
  | literal v =>
    cases hset : (literal v).charSet? with
    | some a => exact plainExact_of_charSet? hset
    | none =>
      intro e he
      rw [toPlain_literal hset] at he
      obtain rfl := Except.ok.inj he
      refine ⟨Plain.sound_ofWord v, ?_⟩
      rw [Plain.lang_ofWord, lang]
  | range lo hi => exact plainExact_of_charSet? rfl
  | concat ts ih => exact plainExact_concat ih
  | union ts ih =>
    cases hset : (union ts).charSet? with
    | some a => exact plainExact_of_charSet? hset
    | none => exact plainExact_union hset ih
  | inter ts ih =>
    cases hset : (inter ts).charSet? with
    | some a => exact plainExact_of_charSet? hset
    | none =>
      intro e he
      rw [toPlain_inter hset] at he
      cases he
  | compl t ih =>
    intro e he
    cases he
  | star t ih =>
    intro e he
    rw [toPlain_star] at he
    rw [lang, ← repeated_zero_none]
    exact sound_and_lang_times ih (by simp) he
  | plus t ih =>
    intro e he
    rw [toPlain_plus] at he
    rw [lang, ← repeated_one_none]
    exact sound_and_lang_times ih (by simp) he
  | opt t ih =>
    intro e he
    rw [toPlain_opt] at he
    rw [lang, ← between_zero_one, ← repeated_some]
    exact sound_and_lang_times ih (by simp) he
  | loop t k m ih =>
    intro e he
    rw [toPlain_loop] at he
    split at he
    · rename_i hlt
      obtain rfl := Except.ok.inj he
      refine ⟨.fail, ?_⟩
      rw [lang, between_of_lt hlt, Plain.lang]
    · rename_i hle
      rw [not_lt] at hle
      rw [lang, ← repeated_some]
      exact sound_and_lang_times ih (by simpa using hle) he

/-- The plain form of a term, if there is one, matches exactly the words that the term accepts. -/
theorem mem_lang_toPlain_iff_accepts {t : Term} {e : Plain} (h : t.toPlain = .ok e) (w : Word) :
    w ∈ e.lang ↔ t.accepts w = true := by
  rw [(plainExact t e h).2, accepts, acceptsFrom_iff, lang_simplify]

/-- `a` and then `c`s, or `a` and then up to three digits other than those from 0 to 8. -/
def nines : Term :=
  .union [.concat [.literal ['a'], .star (.literal ['c'])],
    .concat [.literal ['a'],
      .loop (.inter [.range '0' '9', .compl (.union [.range '1' '8', .literal ['0']])]) 0 3]]

/-- What both alternatives begin with is written once, and the complement is gone. -/
theorem toPlain_nines :
    nines.toPlain = .ok (.seq [.word ['a'], .alt [.rep 0 .none (.word ['c']),
      .rep 0 (some 3) (.word ['9'])]]) ∧
    ∀ w, w ∈ (Plain.seq [.word ['a'], .alt [.rep 0 .none (.word ['c']),
      .rep 0 (some 3) (.word ['9'])]]).lang ↔ nines.accepts w = true := by
  have h : nines.toPlain = .ok (.seq [.word ['a'], .alt [.rep 0 .none (.word ['c']),
      .rep 0 (some 3) (.word ['9'])]]) := by cbv
  exact ⟨h, mem_lang_toPlain_iff_accepts h⟩

end Term

end RegLan
