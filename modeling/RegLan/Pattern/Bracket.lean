import RegLan.Pattern.Basic
import RegLan.Pattern.Error

/-! Reading a bracket. Its members are raw characters: nothing is escaped, and a `-` after a
character makes it the start of a range whatever comes next. -/

namespace RegLan

namespace Pattern

/-- The members of a bracket up to the `]` that closes it, if one does. A range may end in any
character; elsewhere a `)` leaves the bracket unclosed. -/
def readMembers : Word → Option (List Member × Word)
  | [] => none
  | ')' :: _ => none
  | ']' :: r => some ([], r)
  | [_, '-'] => none
  | lo :: '-' :: hi :: r => (readMembers r).map fun (ms, r) => (.range lo hi :: ms, r)
  | c :: r => (readMembers r).map fun (ms, r) => (.char c :: ms, r)

/-- A bracket, from after its `[`; `s` is the text from that `[` on. -/
def readBracket (s r : Word) : Except Fault (Pattern × Word) :=
  let (negated, r) := match r with
    | '^' :: r => (true, r)
    | r => (false, r)
  match readMembers r with
  | none => .error ⟨.unclosedClass, s⟩
  | some ([], _) => .error ⟨.emptyClass, s⟩
  | some (ms, r) => .ok (.bracket ⟨negated, ms⟩, r)

theorem length_readMembers {s r : Word} {ms : List Member} (h : readMembers s = some (ms, r)) :
    r.length < s.length := by
  fun_induction readMembers s generalizing ms r with
  | case1 => cases h
  | case2 => cases h
  | case3 => cases h; simp
  | case4 => cases h
  | case5 lo hi t _ _ ih =>
    obtain ⟨⟨ms', r'⟩, h', heq⟩ := Option.map_eq_some_iff.1 h
    cases heq
    have := ih h'
    simp only [List.length_cons]
    omega
  | case6 c t _ _ _ _ ih =>
    obtain ⟨⟨ms', r'⟩, h', heq⟩ := Option.map_eq_some_iff.1 h
    cases heq
    have := ih h'
    simp only [List.length_cons]
    omega

theorem length_readBracket {s t r : Word} {p : Pattern} (h : readBracket s t = .ok (p, r)) :
    r.length < t.length := by
  unfold readBracket at h
  split at h
  rename_i heq
  split at h
  · cases h
  · cases h
  · rename_i hm
    have := length_readMembers hm
    cases h
    split at heq
    · cases heq
      simp only [List.length_cons]
      omega
    · cases heq
      exact this

end Pattern

end RegLan
