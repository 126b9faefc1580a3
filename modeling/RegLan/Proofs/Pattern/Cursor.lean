import RegLan.Pattern.Cursor
import RegLan.Proofs.Pattern.Parser

/-! The moves of a cursor. What it decides on the token of a lexeme is what a reader of the
remaining text decides on the character that comes first there. -/

namespace RegLan

namespace Pattern

namespace Cursor

open Word

variable {s : Lexed} {c d e : Cursor s} {l : Lexeme} {t : Token} {a : Char}

/-- The text from the cursor on. -/
def rest (c : Cursor s) : Word := (s.lexemes.toList.drop c.pos).map Lexeme.ch

/-- The second cursor is further among the lexemes, and not past their end. -/
structure Ahead (c d : Cursor s) : Prop where
  lt : c.pos < d.pos
  le : d.pos ≤ s.lexemes.size

def Reached (c d : Cursor s) : Prop := d = c ∨ c.Ahead d

/-- The second cursor is no earlier than the first, and at the end or at a `)`. -/
structure Stopped (c d : Cursor s) : Prop where
  reached : c.Reached d
  stops : d.current = none ∨ d.isAt .rparen = true

theorem Ahead.trans (hcd : c.Ahead d) (hde : d.Ahead e) : c.Ahead e :=
  ⟨hcd.lt.trans hde.lt, hde.le⟩

theorem Ahead.trans_reached (hcd : c.Ahead d) (hde : d.Reached e) : c.Ahead e := by
  rcases hde with rfl | hde
  · exact hcd
  · exact hcd.trans hde

theorem Reached.trans_ahead (hcd : c.Reached d) (hde : d.Ahead e) : c.Ahead e := by
  rcases hcd with rfl | hcd
  · exact hde
  · exact hcd.trans hde

theorem Ahead.trans_stopped (hcd : c.Ahead d) (hde : d.Stopped e) : c.Stopped e :=
  ⟨.inr (hcd.trans_reached hde.reached), hde.stops⟩

theorem length_rest (c : Cursor s) : c.rest.length = s.lexemes.size - c.pos := by
  rw [rest, List.length_map, List.length_drop, Array.length_toList]

theorem Ahead.length_rest (h : c.Ahead d) : d.rest.length < c.rest.length := by
  have hlt := h.lt
  have hle := h.le
  rw [Cursor.length_rest, Cursor.length_rest]
  omega

theorem Reached.length_rest (h : c.Reached d) : d.rest.length ≤ c.rest.length := by
  rcases h with rfl | h
  · exact Nat.le_refl _
  · exact Nat.le_of_lt h.length_rest

theorem rest_eq_nil (h : c.current = none) : c.rest = [] := by
  have hle : s.lexemes.size ≤ c.pos := Array.getElem?_eq_none_iff.1 h
  rw [← List.length_eq_zero_iff, length_rest]
  omega

theorem rest_eq_cons (h : c.current = some l) : c.rest = l.ch :: c.next.rest := by
  have hl : s.lexemes.toList[c.pos]? = some l := by
    rw [Array.getElem?_toList]
    exact h
  obtain ⟨hlt, hl⟩ := List.getElem?_eq_some_iff.1 hl
  rw [next, h, rest, List.drop_eq_getElem_cons hlt, hl]
  rfl

theorem ahead_next (h : c.current = some l) : c.Ahead c.next := by
  obtain ⟨hlt, -⟩ := Array.getElem?_eq_some_iff.1 h
  rw [next, h]
  exact ⟨Nat.lt_succ_self _, hlt⟩

theorem reached_next (c : Cursor s) : c.Reached c.next := by
  cases h : c.current with
  | none =>
    rw [next, h]
    exact .inl rfl
  | some l => exact .inr (ahead_next h)

theorem rest_next (c : Cursor s) : c.next.rest = c.rest.tail := by
  cases h : c.current with
  | none => rw [next, h, rest_eq_nil h, List.tail_nil]
  | some l => rw [rest_eq_cons h, List.tail_cons]

theorem isAt_eq (t : Token) (c : Cursor s) : c.isAt t = c.rest.head?.any t.takes := by
  rw [isAt]
  cases h : c.current with
  | none => rw [rest_eq_nil h]; rfl
  | some l =>
    rw [rest_eq_cons h, List.head?_cons, Option.any_some, Option.any_some, Bool.eq_iff_iff,
      decide_eq_true_iff, Lexeme.token_eq_iff]

theorem ch_eq_of_token (ht : ∀ b, t.takes b = (b == a)) (h : l.token = t) : l.ch = a :=
  eq_of_beq ((ht _).symm.trans (Lexeme.token_eq_iff.1 h))

theorem rest_eq_of_map_token (ht : ∀ b, t.takes b = (b == a))
    (h : c.current.map Lexeme.token = some t) : c.rest = a :: c.next.rest ∧ c.Ahead c.next := by
  obtain ⟨l, hl, hl'⟩ := Option.map_eq_some_iff.1 h
  rw [rest_eq_cons hl, ch_eq_of_token ht hl']
  exact ⟨rfl, ahead_next hl⟩

theorem map_token_of_head? (ht : t.takes a = true) (h : c.rest.head? = some a) :
    c.current.map Lexeme.token = some t := by
  cases hl : c.current with
  | none =>
    rw [rest_eq_nil hl] at h
    cases h
  | some l =>
    rw [rest_eq_cons hl] at h
    cases h
    rw [Option.map_some, Lexeme.token_eq_iff.2 ht]

theorem after?_of_eat?_eq_none (ht : ∀ b, t.takes b = (b == a)) (h : c.eat? t = none) :
    after? a c.rest = none := by
  rw [after?_eq_none]
  intro hhead
  rw [eat?, isAt_eq, hhead, Option.any_some, ht, beq_self_eq_true, if_pos rfl] at h
  cases h

theorem exists_current_of_eat? (h : c.eat? t = some d) :
    ∃ l, c.current = some l ∧ l.token = t ∧ d = c.next := by
  unfold eat? at h
  split at h
  · rename_i hat
    cases h
    obtain ⟨l, hl, ht⟩ := (Option.any_eq_true _ _).1 hat
    exact ⟨l, hl, of_decide_eq_true ht, rfl⟩
  · cases h

theorem after?_of_eat?_eq_some (ht : ∀ b, t.takes b = (b == a)) (h : c.eat? t = some d) :
    after? a c.rest = some d.rest := by
  obtain ⟨l, hl, htoken, rfl⟩ := exists_current_of_eat? h
  rw [rest_eq_cons hl, ch_eq_of_token ht htoken]
  exact after?_eq_some.2 rfl

theorem ahead_of_eat? (h : c.eat? t = some d) : c.Ahead d := by
  obtain ⟨l, hl, -, rfl⟩ := exists_current_of_eat? h
  exact ahead_next hl

theorem more_eq_false_iff : c.more = false ↔ c.current = none ∨ c.isAt .rparen = true := by
  rw [more, isAt]
  cases c.current with
  | none => simp
  | some l => simp

theorem more_eq_not_stops (c : Cursor s) : c.more = !Pattern.stops c.rest := by
  rw [Bool.eq_iff_iff, ← Bool.not_eq_false, more_eq_false_iff, isAt_eq]
  cases h : c.current with
  | none => simp [rest_eq_nil h, Pattern.stops]
  | some l => simp [rest_eq_cons h, Pattern.stops, Token.takes]

end Cursor

end Pattern

end RegLan
