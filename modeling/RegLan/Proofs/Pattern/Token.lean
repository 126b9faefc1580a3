import Mathlib.Data.List.Basic
import RegLan.Pattern.Parser

/-! Every character is a token, and only one, so that the order of the rules does not matter and no
pattern fails before it is read. -/

namespace RegLan

namespace Token

variable {t u : Token} {c : Char}

theorem not_mem_marks_of_isDigit (h : c.isDigit = true) : c ∉ marks := by
  have hmarks : ∀ d ∈ marks, (!d.isDigit) = true := List.all_eq_true.1 rfl
  intro hc
  have hnot := hmarks c hc
  rw [h] at hnot
  cases hnot

theorem find?_of_not_mem_marks (h : c ∉ marks) :
    all.find? (·.takes c) = some (if c.isDigit then .digit else .char) := by
  simp only [marks, List.mem_cons, List.not_mem_nil, or_false, not_or] at h
  by_cases hc : c.isDigit = true
  · simp [all, takes, h, hc]
  · simp [all, takes, marks, h, hc]

theorem find?_of_takes (h : t.takes c = true) : all.find? (·.takes c) = some t := by
  cases t with
  | digit =>
    rw [takes] at h
    rw [find?_of_not_mem_marks (not_mem_marks_of_isDigit h), if_pos h]
  | char =>
    rw [takes, Bool.and_eq_true, Bool.not_eq_true', Bool.not_eq_true'] at h
    obtain ⟨hmarks, hdigit⟩ := h
    rw [List.contains_eq_mem, decide_eq_false_iff_not] at hmarks
    rw [find?_of_not_mem_marks hmarks, hdigit]
    rfl
  | _ =>
    obtain rfl := eq_of_beq h
    rfl

theorem eq_of_takes (ht : t.takes c = true) (hu : u.takes c = true) : t = u :=
  Option.some.inj ((find?_of_takes ht).symm.trans (find?_of_takes hu))

theorem exists_takes (c : Char) : ∃ t ∈ all, t.takes c = true := by
  by_cases hc : c ∈ marks
  · have hmarks : ∀ d ∈ marks, all.any (·.takes d) = true := List.all_eq_true.1 rfl
    exact List.any_eq_true.1 (hmarks c hc)
  · have hfind := find?_of_not_mem_marks hc
    have htakes := List.find?_some hfind
    exact ⟨_, List.mem_of_find?_eq_some hfind, htakes⟩

end Token

namespace Lexeme

theorem token_eq_iff {l : Lexeme} {t : Token} : l.token = t ↔ t.takes l.ch = true :=
  ⟨fun h => h ▸ l.takes, Token.eq_of_takes l.takes⟩

theorem exists_first? {c : Char} {ts : List Token} (offset : ℕ) (h : ∃ t ∈ ts, t.takes c = true) :
    ∃ l, first? c offset ts = some l ∧ l.ch = c ∧ l.offset = offset := by
  induction ts with
  | nil => simp at h
  | cons t ts ih =>
    rw [first?]
    by_cases ht : t.takes c = true
    · exact ⟨_, dif_pos ht, rfl, rfl⟩
    · rw [dif_neg ht]
      exact ih (((List.exists_mem_cons_iff _ _ _).1 h).resolve_left ht)

end Lexeme

namespace Pattern

open Word

/-- Lexing leaves the characters as they are. The offset of a lexeme tells how much text there is
from it on. -/
theorem exists_lexFrom (offset : ℕ) (p : Word) :
    ∃ ls, lexFrom offset p = .ok ls ∧ ls.map Lexeme.ch = p ∧
      ∀ i l, ls[i]? = some l → l.offset + utf8Size (p.drop i) = offset + utf8Size p := by
  induction p generalizing offset with
  | nil => exact ⟨[], rfl, rfl, by simp⟩
  | cons c s ih =>
    obtain ⟨l, hl, rfl, rfl⟩ := Lexeme.exists_first? offset (Token.exists_takes c)
    obtain ⟨ls, hls, rfl, hoffset⟩ := ih (l.offset + l.ch.utf8Size)
    refine ⟨l :: ls, ?_, rfl, fun i k hk => ?_⟩
    · rw [lexFrom, hl, hls]
      rfl
    · cases i with
      | zero =>
        obtain rfl := Option.some.inj hk
        rfl
      | succ i =>
        have hrest := hoffset i k hk
        rw [List.drop_succ_cons, hrest, utf8Size]
        omega

theorem exists_lex (p : Word) :
    ∃ ls, lex p = .ok ls ∧ ls.map Lexeme.ch = p ∧
      ∀ i l, ls[i]? = some l → l.offset + utf8Size (p.drop i) = utf8Size p := by
  obtain ⟨ls, hls, hch, hoffset⟩ := exists_lexFrom 0 p
  refine ⟨ls, hls, hch, fun i l hl => ?_⟩
  rw [hoffset i l hl, Nat.zero_add]

/-- Offsets are counted in bytes. -/
example : (lex "é\n+".toList).map (·.map fun l => (l.token, l.offset)) =
    .ok [(.char, 0), (.char, 2), (.plus, 3)] := rfl

theorem parse_eq (p : Word) : parse p = readText p := by
  obtain ⟨ls, hls, hch, -⟩ := exists_lex p
  calc parse p = (Except.ok ls >>= fun ls => readText (ls.map Lexeme.ch)) := by rw [parse, hls]
    _ = readText (ls.map Lexeme.ch) := rfl
    _ = readText p := by rw [hch]

end Pattern

end RegLan
