import RegLan.Pattern.Basic
import RegLan.Pattern.Error

/-! Reading a quantifier: one of `*`, `+` and `?`, or one or two counts in braces. -/

namespace RegLan

namespace Pattern

open Word (after? length_after?)

/-- Counts stay below this bound. -/
def countBound : Nat := 4294967296

def digitValue (c : Char) : Nat := c.toNat - '0'.toNat

/-- Reads on in a number whose digits so far have the value `n`, unless it grows too large. -/
def readDigits (n : Nat) : Word → Option (Nat × Word)
  | [] => some (n, [])
  | c :: s =>
    if c.isDigit then
      if 10 * n + digitValue c < countBound then readDigits (10 * n + digitValue c) s else none
    else some (n, c :: s)

/-- A count is a run of at least one digit. -/
def readNumber (s : Word) : Except Fault (Nat × Word) :=
  if s.head?.any Char.isDigit then
    match readDigits 0 s with
    | some (n, r) => .ok (n, r)
    | none => .error ⟨.countTooLarge, s⟩
  else .error ⟨.expectedCount, s⟩

/-- One count, which is both bounds, or two with a comma between. -/
def readCounts (s : Word) : Except Fault ((Nat × Nat) × Word) := do
  let (min, r) ← readNumber s
  match after? ',' r with
  | none => return ((min, min), r)
  | some t => do
    let (max, u) ← readNumber t
    return ((min, max), u)

/-- The quantifier that comes first in the text, if one does. -/
def readQuantifier (s : Word) : Except Fault (Option Quantifier × Word) :=
  match s with
  | '*' :: r => .ok (some .zeroOrMore, r)
  | '+' :: r => .ok (some .oneOrMore, r)
  | '?' :: r => .ok (some .zeroOrOne, r)
  | '\x7b' :: r => do
    let ((min, max), t) ← readCounts r
    match after? '\x7d' t with
    | none => .error ⟨.unclosedCount, s⟩
    | some u => return (some (.between min max), u)
  | s => .ok (none, s)

theorem length_readDigits {n m : Nat} {s r : Word} (h : readDigits n s = some (m, r)) :
    r.length ≤ s.length := by
  fun_induction readDigits n s with
  | case1 => cases h; exact Nat.le_refl _
  | case2 n c s _ _ ih =>
    have := ih h
    simp only [List.length_cons]
    omega
  | case3 => cases h
  | case4 => cases h; exact Nat.le_refl _

theorem length_readNumber {s r : Word} {n : Nat} (h : readNumber s = .ok (n, r)) :
    r.length ≤ s.length := by
  unfold readNumber at h
  split at h
  · split at h
    · rename_i hd
      cases h
      exact length_readDigits hd
    · cases h
  · cases h

theorem length_readCounts {s r : Word} {b : Nat × Nat} (h : readCounts s = .ok (b, r)) :
    r.length ≤ s.length := by
  unfold readCounts at h
  cases hn : readNumber s with
  | error f => simp [hn, bind, Except.bind] at h
  | ok x =>
    have hr := length_readNumber hn
    simp only [hn, bind, Except.bind] at h
    split at h
    · cases h
      exact hr
    · rename_i t ha
      have ht := length_after? ha
      cases hm : readNumber t with
      | error f => simp [hm] at h
      | ok y =>
        have hu := length_readNumber hm
        simp only [hm] at h
        cases h
        omega

theorem length_readQuantifier {s r : Word} {k : Option Quantifier}
    (h : readQuantifier s = .ok (k, r)) : r.length ≤ s.length := by
  unfold readQuantifier at h
  split at h
  · cases h; simp
  · cases h; simp
  · cases h; simp
  · rename_i t
    cases hc : readCounts t with
    | error f => simp [hc, bind, Except.bind] at h
    | ok x =>
      have hx := length_readCounts hc
      simp only [hc, bind, Except.bind] at h
      split at h
      · cases h
      · rename_i u ha
        have hu := length_after? ha
        cases h
        simp only [List.length_cons]
        omega
  · cases h
    exact Nat.le_refl _

end Pattern

end RegLan
