import Mathlib.Data.List.Perm.Basic
import RegLan.Encoding
import RegLan.Solver.Recorder

/-! The record of an encoding. A value is open from the call that makes it to the call that takes it
as an argument. Whatever is built spends the values that it is given and leaves one open, and does
nothing to the others, so it is enough to say what one call does. In the end only the labelled
result is open: every other value has been taken once, and a solver that makes the calls of the
record in their order comes to the result that it gives by itself. -/

namespace RegLan

/-- What a pure solver makes: a string, a term or a labelled result. -/
inductive Value (Str Re Result : Type) where
  | string (s : Str)
  | term (r : Re)
  | result (x : Result)

variable {Str Re Result : Type}

namespace Call

/-- The places of the values that a call takes. -/
def args : Call → List ℕ
  | .string _ => []
  | .toRe i => [i]
  | .range i j => [i, j]
  | .union i j => [i, j]
  | .concat i j => [i, j]
  | .star i => [i]
  | .plus i => [i]
  | .opt i => [i]
  | .loop i _ _ => [i]
  | .compl i => [i]
  | .inter i j => [i, j]
  | .simplify i => [i]
  | .tag i _ => [i]

/-- The call made to a solver, with the given values in place of its arguments. -/
def eval (S : Solver Id Str Re Result) :
    Call → List (Value Str Re Result) → Option (Value Str Re Result)
  | .string w, [] => some (.string (S.string w).run)
  | .toRe _, [.string s] => some (.term (S.toRe s).run)
  | .range _ _, [.string s, .string t] => some (.term (S.range s t).run)
  | .union _ _, [.term r, .term s] => some (.term (S.union r s).run)
  | .concat _ _, [.term r, .term s] => some (.term (S.concat r s).run)
  | .star _, [.term r] => some (.term (S.star r).run)
  | .plus _, [.term r] => some (.term (S.plus r).run)
  | .opt _, [.term r] => some (.term (S.opt r).run)
  | .loop _ min max, [.term r] => some (.term (S.loop r min max).run)
  | .compl _, [.term r] => some (.term (S.compl r).run)
  | .inter _ _, [.term r, .term s] => some (.term (S.inter r s).run)
  | .simplify _, [.term r] => some (.term (S.simplify r).run)
  | .tag _ label, [.term r] => some (.result (S.tag r label).run)
  | _, _ => none

end Call

/-- The values of the calls of a record, made to a solver one after the other. There are none if a
call takes a value that is not there or not of its kind. -/
def Solver.replay (S : Solver Id Str Re Result) (calls : List Call) :
    Option (List (Value Str Re Result)) :=
  calls.foldlM (fun vs c => do return vs ++ [← c.eval S (← c.args.mapM (vs[·]?))]) []

theorem Solver.replay_concat (S : Solver Id Str Re Result) {calls : List Call} {c : Call}
    {vs us : List (Value Str Re Result)} {v : Value Str Re Result} (hvs : S.replay calls = some vs)
    (hus : c.args.mapM (vs[·]?) = some us) (hv : c.eval S us = some v) :
    S.replay (calls ++ [c]) = some (vs ++ [v]) := by
  rw [replay] at hvs ⊢
  rw [List.foldlM_append, hvs]
  simp [hus, hv]

/-- Every call takes earlier values, and every value but the last is taken once. -/
structure Linear (calls : List Call) : Prop where
  earlier : ∀ (k : ℕ) (c : Call), calls[k]? = some c → ∀ i ∈ c.args, i < k
  once : ∀ k, k + 1 < calls.length → (calls.flatMap Call.args).count k = 1

/-- The record of a run in which the given values, each with its place, are open. -/
structure Open (S : Solver Id Str Re Result) (calls : List Call)
    (ps : List (ℕ × Value Str Re Result)) : Prop where
  earlier : ∀ (k : ℕ) (c : Call), calls[k]? = some c → ∀ i ∈ c.args, i < k
  places : (calls.flatMap Call.args ++ ps.map Prod.fst).Perm (List.range calls.length)
  values : ∃ vs, S.replay calls = some vs ∧ vs.length = calls.length ∧ ∀ p ∈ ps, vs[p.1]? = some p.2

namespace Open

variable {S : Solver Id Str Re Result} {calls : List Call} {c : Call} {v : Value Str Re Result}
  {ps qs : List (ℕ × Value Str Re Result)}

theorem nil : Open S [] [] where
  earlier := by simp
  places := by simp
  values := ⟨[], by simp [Solver.replay]⟩

theorem perm (h : Open S calls ps) (hps : ps.Perm qs) : Open S calls qs where
  earlier := h.earlier
  places := ((hps.symm.map Prod.fst).append_left _).trans h.places
  values := by
    obtain ⟨vs, hvs, hlen, hps'⟩ := h.values
    exact ⟨vs, hvs, hlen, fun p hp => hps' p (hps.mem_iff.2 hp)⟩

theorem mapM_getElem? {vs : List (Value Str Re Result)} (h : ∀ p ∈ ps, vs[p.1]? = some p.2) :
    (ps.map Prod.fst).mapM (vs[·]?) = some (ps.map Prod.snd) := by
  induction ps with
  | nil => rfl
  | cons p ps ih =>
    rw [List.forall_mem_cons] at h
    simp [h.1, ih h.2]

theorem place_lt (h : Open S calls ps) {p : ℕ × Value Str Re Result} (hp : p ∈ ps) :
    p.1 < calls.length := by
  rw [← List.mem_range, ← h.places.mem_iff]
  exact List.mem_append_right _ (List.mem_map_of_mem hp)

/-- One call spends its arguments and leaves its own value open. -/
theorem push (ps : List (ℕ × Value Str Re Result)) (h : Open S calls (ps ++ qs))
    (hargs : c.args = ps.map Prod.fst) (heval : c.eval S (ps.map Prod.snd) = some v) :
    Open S (calls ++ [c]) ((calls.length, v) :: qs) where
  earlier k d hd i hi := by
    rcases Nat.lt_or_ge k calls.length with hk | hk
    · rw [List.getElem?_append_left hk] at hd
      exact h.earlier k d hd i hi
    · rw [List.getElem?_append_right hk, List.getElem?_singleton] at hd
      split at hd
      · cases hd
        rw [hargs] at hi
        obtain ⟨p, hp, rfl⟩ := List.mem_map.1 hi
        exact Nat.lt_of_lt_of_le (h.place_lt (List.mem_append_left qs hp)) hk
      · cases hd
  places := by
    -- the arguments are places that were open, and the new place is the next number
    have hplaces := h.places.cons calls.length
    rw [List.length_append, List.length_singleton, List.range_succ]
    refine .trans ?_ (hplaces.trans (List.perm_append_singleton _ _).symm)
    simp only [List.flatMap_append, List.flatMap_singleton, hargs, List.map_cons, List.map_append,
      ← List.append_assoc]
    exact List.perm_middle
  values := by
    obtain ⟨vs, hvs, hlen, hopen⟩ := h.values
    rw [List.forall_mem_append] at hopen
    refine ⟨vs ++ [v], ?_, by simp [hlen], ?_⟩
    · exact S.replay_concat hvs (hargs ▸ mapM_getElem? hopen.1) heval
    · rw [List.forall_mem_cons, ← hlen]
      refine ⟨List.getElem?_concat_length, fun p hp => ?_⟩
      rw [List.getElem?_append_left]
      · exact hopen.2 p hp
      · exact hlen ▸ h.place_lt (List.mem_append_right ps hp)

end Open

/-- Whenever the values `ps` are open, a run spends them, leaves `v` open at the place that it returns
and keeps whatever else is open. -/
def Yields (S : Solver Id Str Re Result) (x : Recording ℕ) (ps : List (ℕ × Value Str Re Result))
    (v : Value Str Re Result) : Prop :=
  ∀ calls qs, Open S calls.toList (ps ++ qs) →
    ∃ i calls', x.run calls = (i, calls') ∧ Open S calls'.toList ((i, v) :: qs)

namespace Yields

variable {S : Solver Id Str Re Result} {x : Recording ℕ} {k : ℕ → Recording ℕ} {c : Call} {i : ℕ}
  {u v : Value Str Re Result} {p : ℕ × Value Str Re Result} {ps qs : List (ℕ × Value Str Re Result)}

theorem pure : Yields S (pure i) [(i, v)] v :=
  fun calls _ h => ⟨i, calls, rfl, h⟩

theorem call (hargs : c.args = ps.map Prod.fst) (heval : c.eval S (ps.map Prod.snd) = some v) :
    Yields S (Recording.record c) ps v := by
  intro calls qs h
  exact ⟨calls.size, calls.push c, rfl, by simpa using h.push ps hargs heval⟩

theorem perm (h : Yields S x ps v) (hps : ps.Perm qs) : Yields S x qs v :=
  fun calls rs hopen => h calls rs (hopen.perm (hps.symm.append_right rs))

/-- What the first part spends comes in front of whatever else is open. -/
theorem bind (hx : Yields S x ps v) (hk : ∀ i, Yields S (k i) ((i, v) :: qs) u) :
    Yields S (x >>= k) (ps ++ qs) u := by
  intro calls rs h
  rw [List.append_assoc] at h
  obtain ⟨i, calls', hrun, h'⟩ := hx calls (qs ++ rs) h
  rw [StateT.run_bind, hrun]
  exact hk i calls' rs h'

theorem bind_all (hx : Yields S x ps v) (hk : ∀ i, Yields S (k i) [(i, v)] u) :
    Yields S (x >>= k) ps u :=
  ps.append_nil ▸ hx.bind hk

theorem bind_head (hx : Yields S x [p] v) (hk : ∀ i, Yields S (k i) ((i, v) :: qs) u) :
    Yields S (x >>= k) (p :: qs) u :=
  hx.bind hk

theorem bind_front (hx : Yields S x [] v) (hk : ∀ i, Yields S (k i) ((i, v) :: ps) u) :
    Yields S (x >>= k) ps u :=
  hx.bind hk

theorem bind_back (hx : Yields S x [] v) (hk : ∀ i, Yields S (k i) (ps ++ [(i, v)]) u) :
    Yields S (x >>= k) ps u :=
  hx.bind_front fun i => (hk i).perm (List.perm_append_singleton _ _)

end Yields

namespace Solver

open Yields

variable (S : Solver Id Str Re Result)

theorem yields_constant (w : Word) : Yields S (recorder.string w >>= recorder.toRe) []
    (.term (S.toRe (S.string w).run).run) := by
  refine bind_all (call rfl rfl) fun string => ?_
  exact call rfl rfl

theorem yields_literal (c : Char) : Yields S (recorder.literal c) [] (.term (S.literal c).run) :=
  yields_constant S [c]

theorem yields_epsilon : Yields S recorder.epsilon [] (.term S.epsilon.run) := yields_constant S []

theorem yields_charRange (lo hi : Char) :
    Yields S (recorder.charRange lo hi) [] (.term (S.charRange lo hi).run) := by
  refine bind_back (call rfl rfl) fun lo => ?_
  refine bind_back (call rfl rfl) fun hi => ?_
  exact call rfl rfl

theorem yields_any : Yields S recorder.any [] (.term S.any.run) := by
  refine bind_back (yields_charRange S _ _) fun low => ?_
  refine bind_back (yields_charRange S _ _) fun high => ?_
  exact call rfl rfl

theorem yields_digit : Yields S recorder.digit [] (.term S.digit.run) := yields_charRange S '0' '9'

theorem yields_word : Yields S recorder.word [] (.term S.word.run) := by
  refine bind_back (yields_charRange S _ _) fun lower => ?_
  refine bind_back (yields_charRange S _ _) fun upper => ?_
  refine bind_all (call rfl rfl) fun letters => ?_
  refine bind_back (yields_digit S) fun digits => ?_
  refine bind_all (call rfl rfl) fun alphanumeric => ?_
  refine bind_back (yields_literal S _) fun underscore => ?_
  exact call rfl rfl

theorem yields_space : Yields S recorder.space [] (.term S.space.run) := by
  refine bind_back (yields_literal S _) fun lineFeed => ?_
  refine bind_back (yields_literal S _) fun formFeed => ?_
  refine bind_all (call rfl rfl) fun breaks => ?_
  -- from here on the new character is the first argument
  refine bind_front (yields_literal S _) fun carriageReturn => ?_
  refine bind_all (call rfl rfl) fun breaks => ?_
  refine bind_front (yields_literal S _) fun tab => ?_
  refine bind_all (call rfl rfl) fun breaks => ?_
  refine bind_front (yields_literal S _) fun blank => ?_
  exact call rfl rfl

theorem yields_shorthand (k : Shorthand) (negated : Bool) :
    Yields S (recorder.shorthand k negated) [] (.term (S.shorthand k negated).run) := by
  have hnegate : ∀ {r : Re} (i : ℕ),
      Yields S (if negated then recorder.compl i else return i) [(i, .term r)]
        (.term (if negated then S.compl r else return r).run) := by
    intro r i
    cases negated with
    | false => exact .pure
    | true => exact call rfl rfl
  cases k with
  | digit => exact bind_all (yields_digit S) hnegate
  | word => exact bind_all (yields_word S) hnegate
  | space => exact bind_all (yields_space S) hnegate

theorem yields_member (m : Member) :
    Yields S (recorder.member m) [] (.term (S.member m).run) := by
  cases m with
  | char c => exact yields_literal S c
  | range lo hi => exact yields_charRange S lo hi

theorem yields_anyExcept (i : ℕ) (r : Re) :
    Yields S (recorder.anyExcept i) [(i, .term r)] (.term (S.anyExcept r).run) := by
  refine bind_back (yields_any S) fun any => ?_
  refine bind_head (call rfl rfl) fun others => ?_
  exact (call rfl rfl).perm (.swap _ _ _)

theorem yields_nothing : Yields S recorder.nothing [] (.term S.nothing.run) := by
  refine bind_front (yields_any S) fun any => ?_
  refine bind_front (yields_any S) fun again => ?_
  refine bind_head (call rfl rfl) fun others => ?_
  exact (call rfl rfl).perm (.swap _ _ _)

theorem yields_unionMembers (ms : List Member) (i : ℕ) (r : Re) :
    Yields S (recorder.unionMembers i ms) [(i, .term r)] (.term (S.unionMembers r ms).run) := by
  induction ms generalizing i r with
  | nil => exact .pure
  | cons m ms ih =>
    refine bind_back (yields_member S m) fun next => ?_
    refine bind_all (call rfl rfl) fun union => ?_
    exact ih union _

theorem yields_members (ms : List Member) :
    Yields S (recorder.members ms) [] (.term (S.members ms).run) := by
  cases ms with
  | nil => exact yields_nothing S
  | cons m ms =>
    refine bind_all (yields_member S m) fun first => ?_
    exact yields_unionMembers S ms first _

theorem yields_bracket (b : Bracket) :
    Yields S (recorder.bracket b) [] (.term (S.bracket b).run) := by
  obtain ⟨negated, ms⟩ := b
  refine bind_all (yields_members S ms) fun members => ?_
  cases negated with
  | false => exact .pure
  | true => exact yields_anyExcept S members _

theorem yields_quantify (k : Quantifier) (i : ℕ) (r : Re) :
    Yields S (recorder.quantify i k) [(i, .term r)] (.term (S.quantify r k).run) := by
  cases k <;> exact call rfl rfl

theorem yields_appendAll (ps : List Pattern)
    (ih : ∀ p ∈ ps, Yields S (recorder.build p) [] (.term (S.build p).run)) (i : ℕ) (r : Re) :
    Yields S (recorder.appendAll ps i) [(i, .term r)] (.term (S.appendAll ps r).run) := by
  induction ps generalizing i r with
  | nil =>
    rw [appendAll, appendAll]
    exact .pure
  | cons p ps ihs =>
    rw [List.forall_mem_cons] at ih
    rw [appendAll, appendAll]
    refine bind_back ih.1 fun next => ?_
    refine bind_all (call rfl rfl) fun concat => ?_
    exact ihs ih.2 concat _

theorem yields_buildConcat (ps : List Pattern)
    (ih : ∀ p ∈ ps, Yields S (recorder.build p) [] (.term (S.build p).run)) :
    Yields S (recorder.buildConcat ps) [] (.term (S.buildConcat ps).run) := by
  cases ps with
  | nil =>
    rw [buildConcat, buildConcat]
    exact yields_epsilon S
  | cons p ps =>
    rw [List.forall_mem_cons] at ih
    rw [buildConcat, buildConcat]
    refine bind_all ih.1 fun first => ?_
    exact yields_appendAll S ps ih.2 first _

theorem yields_build (p : Pattern) : Yields S (recorder.build p) [] (.term (S.build p).run) := by
  induction p with
  | concat ps ih =>
    rw [build, build]
    refine bind_all (yields_buildConcat S ps ih) fun concat => ?_
    exact call rfl rfl
  | alt p q ihp ihq =>
    rw [build, build]
    refine bind_back ihp fun left => ?_
    refine bind_back ihq fun right => ?_
    exact call rfl rfl
  | rep k p ih =>
    rw [build, build]
    refine bind_all ih fun body => ?_
    exact yields_quantify S k body _
  | char c =>
    rw [build, build]
    exact yields_literal S c
  | any =>
    rw [build, build]
    exact yields_any S
  | shorthand k negated =>
    rw [build, build]
    exact yields_shorthand S k negated
  | bracket b =>
    rw [build, build]
    exact yields_bracket S b

end Solver

namespace Anchoring

open Solver Yields

variable (S : Solver Id Str Re Result) (a : Anchoring) (i : ℕ) (r : Re)

theorem yields_applyStart :
    Yields S (a.applyStart recorder i) [(i, .term r)] (.term (a.applyStart S r).run) := by
  cases a with
  | exact => exact .pure
  | _ =>
    refine bind_front (yields_any S) fun any => ?_
    refine bind_head (call rfl rfl) fun star => ?_
    exact call rfl rfl

theorem yields_applyStop :
    Yields S (a.applyStop recorder i) [(i, .term r)] (.term (a.applyStop S r).run) := by
  cases a with
  | union =>
    refine bind_all (call rfl rfl) fun star => ?_
    refine bind_back (yields_any S) fun any => ?_
    exact call rfl rfl
  | surround =>
    refine bind_front (yields_any S) fun any => ?_
    refine bind_head (call rfl rfl) fun star => ?_
    exact (call rfl rfl).perm (.swap _ _ _)
  | exact => exact .pure

theorem yields_apply (p : Word) :
    Yields S (a.apply recorder p i) [(i, .term r)] (.term (a.apply S p r).run) := by
  have hstop : ∀ (i : ℕ) (r : Re),
      Yields S (if (Anchors.of p).stop then return i else a.applyStop recorder i) [(i, .term r)]
        (.term (if (Anchors.of p).stop then return r else a.applyStop S r).run) := by
    intro i r
    split
    · exact .pure
    · exact yields_applyStop S a i r
  unfold apply
  dsimp only
  split
  · exact bind_all .pure fun i => hstop i r
  · exact bind_all (yields_applyStart S a i r) fun i => hstop i _

end Anchoring

section

variable {S : Solver Id Str Re Result} {calls : List Call} {c : Call} {v : Value Str Re Result}

theorem Open.linear (h : Open S (calls ++ [c]) [(calls.length, v)]) : Linear (calls ++ [c]) where
  earlier := h.earlier
  once k hk := by
    have hplaces := h.places
    rw [List.length_append, List.length_singleton, List.range_succ] at hplaces
    rw [List.length_append, List.length_singleton, Nat.add_lt_add_iff_right] at hk
    rw [((List.perm_append_right_iff _).1 hplaces).count_eq, List.count_range, if_pos hk]

theorem Open.exists_replay_eq (h : Open S (calls ++ [c]) [(calls.length, v)]) :
    ∃ vs, S.replay (calls ++ [c]) = some vs ∧ vs.getLast? = some v := by
  obtain ⟨vs, hvs, hlen, hopen⟩ := h.values
  refine ⟨vs, hvs, ?_⟩
  rw [List.getLast?_eq_getElem?, hlen, List.length_append, List.length_singleton,
    Nat.add_sub_cancel]
  exact hopen _ List.mem_cons_self

end

section

variable {m : Type → Type} [Monad m] [LawfulMonad m] (S : Solver m Str Re Result) (a : Anchoring)
  {literal : Word}

theorem encodeLiteral_of_parse_error {e : ParseError}
    (h : Pattern.parse (Literal.ofText literal).pattern = .error e) :
    encodeLiteral S a literal = return .error e := by
  unfold encodeLiteral encodePattern
  simp [h]

theorem encodeLiteral_of_parse_ok {t : Pattern}
    (h : Pattern.parse (Literal.ofText literal).pattern = .ok t) :
    encodeLiteral S a literal = do
      let r ← S.build t >>= a.apply S (Literal.ofText literal).pattern
      return .ok (← S.tag r literal) := by
  unfold encodeLiteral encodePattern
  simp [h]

end

/-- A literal that is not encoded leaves no calls. One that is leaves calls that take each other's
values in order and once each, and the label last; any solver that makes these calls one after the
other ends with the result that it gives for the literal itself. -/
theorem encodeLiteral_recorder (S : Solver Id Str Re Result) (a : Anchoring) (literal : Word) :
    (∃ e, (encodeLiteral Solver.recorder a literal).run #[] = (.error e, #[]) ∧
      (encodeLiteral S a literal).run = .error e) ∨
    ∃ calls i vs r,
      (encodeLiteral Solver.recorder a literal).run #[] =
        (.ok calls.length, (calls ++ [Call.tag i literal]).toArray) ∧
      Linear (calls ++ [.tag i literal]) ∧
      S.replay (calls ++ [.tag i literal]) = some vs ∧ vs.getLast? = some (.result r) ∧
      (encodeLiteral S a literal).run = .ok r := by
  cases h : Pattern.parse (Literal.ofText literal).pattern with
  | error e =>
    left
    refine ⟨e, ?_, ?_⟩
    · rw [encodeLiteral_of_parse_error _ a h]
      rfl
    · rw [encodeLiteral_of_parse_error _ a h]
      rfl
  | ok t =>
    right
    have hyields := (Solver.yields_build S t).bind_all fun i =>
      a.yields_apply S i _ (Literal.ofText literal).pattern
    obtain ⟨i, calls, hrun, hopen⟩ := hyields #[] [] .nil
    have htag := hopen.push [(i, _)] (c := .tag i literal) rfl rfl
    obtain ⟨vs, hvs, hlast⟩ := htag.exists_replay_eq
    refine ⟨calls.toList, i, vs, _, ?_, htag.linear, hvs, hlast, ?_⟩
    · rw [encodeLiteral_of_parse_ok _ a h, StateT.run_bind, hrun, ← Array.toList_push,
        Array.toArray_toList, Array.length_toList]
      rfl
    · rw [encodeLiteral_of_parse_ok _ a h]
      rfl

/-- The calls for `/ab?/` with nothing added around the pattern. -/
example : (encodeLiteral Solver.recorder .exact "/ab?/".toList).run #[] =
    (.ok 7, #[.string ['a'], .toRe 0, .string ['b'], .toRe 2, .opt 3, .concat 1 4, .simplify 5,
      .tag 6 "/ab?/".toList]) := by cbv

end RegLan
