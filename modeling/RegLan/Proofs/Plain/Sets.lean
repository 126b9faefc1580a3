import Mathlib
import RegLan.Proofs.CharSet.Canonical
import RegLan.Proofs.Plain.OfTerm

/-! The set of characters of a term. If a term has one, all its words are single characters, they
are the characters of the set, and the set is canonical, however intersections, complements in
them and unions are nested. -/

namespace RegLan

namespace Term

variable {t : Term} {ts : List Term} {P : CharSet → Prop}

/-- A property that ranges have and the operations on sets keep is one of every set that a term
has. An intersection looks into the complements among its operands, so the induction does too. -/
theorem forall_of_charSet? (hempty : P .empty) (hrange : ∀ lo hi, P (.range lo hi))
    (hunion : ∀ a b, P a → P b → P (a.union b)) (hinter : ∀ a b, P a → P b → P (a.inter b))
    (hdiff : ∀ a b, P a → P b → P (a.diff b)) (t : Term) :
    (∀ a, t.charSet? = some a → P a) ∧ ∀ u, t = .compl u → ∀ a, u.charSet? = some a → P a := by
  have hunions : ∀ as : List CharSet, (∀ a ∈ as, P a) → P (as.foldl CharSet.union .empty) :=
    fun as has => List.foldlRecOn as CharSet.union hempty fun b hb a ha => hunion b a hb (has a ha)
  induction t with
  | literal w =>
    refine ⟨fun a ha => ?_, fun u hu => (by cases hu)⟩
    match w with
    | [] => cases ha
    | [c] =>
      obtain rfl := Option.some.inj ha
      exact hrange c c
    | _ :: _ :: _ => cases ha
  | range lo hi =>
    refine ⟨fun a ha => ?_, fun u hu => (by cases hu)⟩
    obtain rfl := Option.some.inj ha
    exact hrange lo hi
  | union ts ih =>
    refine ⟨fun a ha => ?_, fun u hu => (by cases hu)⟩
    simp only [charSet?, Option.pure_def, Option.bind_eq_bind, Option.bind_eq_some_iff,
      Option.some.injEq] at ha
    obtain ⟨as, has, rfl⟩ := ha
    exact hunions as (forall_of_charSets? (fun t ht => (ih t ht).1) has)
  | inter ts ih =>
    refine ⟨fun a ha => ?_, fun u hu => (by cases hu)⟩
    simp only [charSet?, Option.bind_eq_bind, Option.bind_eq_some_iff] at ha
    obtain ⟨⟨included, excluded⟩, hts, ha⟩ := ha
    obtain ⟨hinc, hexc⟩ := forall_of_interSets? ih hts
    cases included with
    | nil => cases ha
    | cons b included =>
      obtain rfl := Option.some.inj ha
      obtain ⟨hb, hinc⟩ := List.forall_mem_cons.1 hinc
      refine hdiff _ _ ?_ (hunions excluded hexc)
      exact List.foldlRecOn included CharSet.inter hb fun c hc a ha => hinter c a hc (hinc a ha)
  | compl t ih =>
    refine ⟨fun a ha => (by cases ha), fun u hu => ?_⟩
    obtain rfl := Term.compl.inj hu
    exact ih.1
  | _ => exact ⟨fun a ha => (by cases ha), fun u hu => (by cases hu)⟩

theorem canonical_of_charSet? {a : CharSet} (h : t.charSet? = some a) : a.Canonical :=
  (forall_of_charSet? CharSet.canonical_empty CharSet.canonical_range
    (fun _ _ => CharSet.Canonical.union) (fun _ _ => CharSet.Canonical.inter)
    (fun _ _ => CharSet.Canonical.diff) t).1 a h

/-- The set of a term is exact and canonical. -/
theorem charSet?_exact_and_canonical {t : Term} {a : CharSet} (h : t.charSet? = some a) :
    (∀ w ∈ t.lang, ∃ c, w = [c]) ∧ (∀ c, a.contains c = true ↔ [c] ∈ t.lang) ∧ a.Canonical := by
  obtain ⟨-, hlang⟩ := setExact t a h
  refine ⟨fun w hw => ?_, fun c => ?_, canonical_of_charSet? h⟩
  · rw [hlang] at hw
    obtain ⟨c, -, rfl⟩ := hw
    exact ⟨c, rfl⟩
  · rw [hlang, Language.mem_ofChars]
    constructor
    · intro hc
      exact ⟨c, hc, rfl⟩
    · rintro ⟨d, hd, hcd⟩
      obtain rfl := List.singleton_inj.1 hcd
      exact hd

/-- Characters on both sides of the surrogates, without the last one before them. -/
def aroundSurrogates : Term :=
  .inter [.compl (.literal ['\ud7ff']), .range '\ud700' '\uffff',
    .union [.range '\ue000' '\ue010', .range 'z' 'a', .range '\ud7fe' '\ue000'],
    .compl (.range '\ue001' '\ue00f')]

theorem charSet?_aroundSurrogates :
    aroundSurrogates.charSet? = some ⟨[⟨0xD7FE, 0xD7FE⟩, ⟨0xE000, 0xE000⟩, ⟨0xE010, 0xE010⟩]⟩ ∧
    (∀ w ∈ aroundSurrogates.lang, ∃ c, w = [c]) ∧
    (∀ c, CharSet.contains ⟨[⟨0xD7FE, 0xD7FE⟩, ⟨0xE000, 0xE000⟩, ⟨0xE010, 0xE010⟩]⟩ c = true ↔
      [c] ∈ aroundSurrogates.lang) ∧
    CharSet.Canonical ⟨[⟨0xD7FE, 0xD7FE⟩, ⟨0xE000, 0xE000⟩, ⟨0xE010, 0xE010⟩]⟩ := by
  have h : aroundSurrogates.charSet? =
      some ⟨[⟨0xD7FE, 0xD7FE⟩, ⟨0xE000, 0xE000⟩, ⟨0xE010, 0xE010⟩]⟩ := by cbv
  exact ⟨h, charSet?_exact_and_canonical h⟩

end Term

end RegLan
