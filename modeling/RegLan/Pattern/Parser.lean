import RegLan.Pattern.Bracket
import RegLan.Pattern.Quantifier
import RegLan.Pattern.Token

/-! Reading a pattern by recursive descent. Every reader takes the text that is left and returns
what it read with the text that remains, which is never longer; a reader of an atom or an operand
consumes something. Anchors are skipped wherever an atom may begin. A quantifier and an
alternative apply to the one atom before them, and alternatives nest to the right. -/

namespace RegLan

namespace Pattern

open Word (after? length_after?)

def isAnchor (c : Char) : Bool := c = '^' || c = '$'

def skipAnchors (s : Word) : Word := s.dropWhile isAnchor

/-- Whether a list of operands stops here: at the end, or at a `)`. -/
def stops : Word → Bool
  | [] => true
  | c :: _ => c = ')'

/-- What an escaped character stands for. -/
def escaped : Char → Pattern
  | 'd' => .shorthand .digit false
  | 'D' => .shorthand .digit true
  | 'w' => .shorthand .word false
  | 'W' => .shorthand .word true
  | 's' => .shorthand .space false
  | 'S' => .shorthand .space true
  | 'n' => .char '\n'
  | 'r' => .char '\r'
  | 't' => .char '\t'
  | '0' => .char '\x00'
  | c => .char c

/-- An atom that holds no other: a bracket, an escape or a single character. -/
def readSimple : Word → Except Fault (Pattern × Word)
  | [] => .error ⟨.expectedAtom, []⟩
  | '[' :: r => readBracket ('[' :: r) r
  | ['\\'] => .error ⟨.danglingEscape, ['\\']⟩
  | '\\' :: c :: r => .ok (escaped c, r)
  | '.' :: r => .ok (.any, r)
  | ')' :: r => .error ⟨.expectedAtom, ')' :: r⟩
  | '|' :: r => .error ⟨.expectedAtom, '|' :: r⟩
  | '*' :: r => .error ⟨.nothingToRepeat, '*' :: r⟩
  | '+' :: r => .error ⟨.nothingToRepeat, '+' :: r⟩
  | '?' :: r => .error ⟨.nothingToRepeat, '?' :: r⟩
  | c :: r => .ok (.char c, r)

/-- The operand that an atom and the quantifier after it make. -/
def quantified (p : Pattern) : Option Quantifier → Pattern
  | none => p
  | some k => .rep k p

theorem length_skipAnchors (s : Word) : (skipAnchors s).length ≤ s.length :=
  (List.dropWhile_suffix _).length_le

theorem length_readSimple {s r : Word} {p : Pattern} (h : readSimple s = .ok (p, r)) :
    r.length < s.length := by
  unfold readSimple at h
  split at h
  · cases h
  · have := length_readBracket h
    simp only [List.length_cons]
    omega
  · cases h
  · cases h
    simp only [List.length_cons]
    omega
  · cases h; simp
  · cases h
  · cases h
  · cases h
  · cases h
  · cases h
  · cases h; simp

/-- What is left of `s` after something was read. -/
abbrev Rest (s : Word) := { r : Word // r.length < s.length }

mutual

/-- As many operands as there are before the end or a `)`. -/
def readAtoms (s : Word) : Except Fault (List Pattern × { r : Word // r.length ≤ s.length }) :=
  have hs := length_skipAnchors s
  if stops (skipAnchors s) then .ok ([], ⟨skipAnchors s, hs⟩)
  else do
    let (p, ⟨r, hr⟩) ← readOperand (skipAnchors s)
    let (ps, ⟨t, ht⟩) ← readAtoms r
    return (p :: ps, ⟨t, by omega⟩)
termination_by 3 * s.length + 2

/-- An atom with its quantifier and the alternatives to it. -/
def readOperand (s : Word) : Except Fault (Pattern × Rest s) := do
  let (p, ⟨r, hr⟩) ← readAtom s
  match h : readQuantifier r with
  | .error f => .error f
  | .ok (k, t) =>
    have ht := length_readQuantifier h
    match ha : after? '|' t with
    | none => return (quantified p k, ⟨t, by omega⟩)
    | some u => do
      have hu := length_after? ha
      let (q, ⟨v, hv⟩) ← readOperand u
      return (.alt (quantified p k) q, ⟨v, by omega⟩)
termination_by 3 * s.length + 1

/-- A group, or an atom that holds no other. -/
def readAtom (s : Word) : Except Fault (Pattern × Rest s) :=
  have hs := length_skipAnchors s
  match ha : after? '(' (skipAnchors s) with
  | none =>
    match h : readSimple (skipAnchors s) with
    | .error f => .error f
    | .ok (p, r) => .ok (p, ⟨r, by have := length_readSimple h; omega⟩)
  | some t => do
    have ht := length_after? ha
    let (ps, ⟨r, hr⟩) ← readAtoms t
    match hc : after? ')' r with
    | none => .error ⟨.unclosedGroup, skipAnchors s⟩
    | some u => return (.concat ps, ⟨u, by have := length_after? hc; omega⟩)
termination_by 3 * s.length

end

/-- The result of a reader without the bound on what is left. -/
def forget {α : Type} {q : Word → Prop} :
    Except Fault (α × { r : Word // q r }) → Except Fault (α × Word)
  | .error f => .error f
  | .ok (x, ⟨r, _⟩) => .ok (x, r)

theorem forget_error {α : Type} {q : Word → Prop} (f : Fault) :
    forget (.error f : Except Fault (α × { r : Word // q r })) = .error f := rfl

theorem forget_ok {α : Type} {q : Word → Prop} (x : α) (r : { r : Word // q r }) :
    forget (.ok (x, r)) = .ok (x, r.1) := rfl

def atoms (s : Word) : Except Fault (List Pattern × Word) := forget (readAtoms s)

def operand (s : Word) : Except Fault (Pattern × Word) := forget (readOperand s)

def atom (s : Word) : Except Fault (Pattern × Word) := forget (readAtom s)

theorem atoms_eq (s : Word) : atoms s =
    if stops (skipAnchors s) then .ok ([], skipAnchors s)
    else do
      let (p, r) ← operand (skipAnchors s)
      let (ps, t) ← atoms r
      return (p :: ps, t) := by
  unfold atoms operand
  rw [readAtoms]
  split
  · rfl
  · cases readOperand (skipAnchors s) with
    | error f => rfl
    | ok x =>
      obtain ⟨p, r, hr⟩ := x
      simp only [bind, Except.bind, forget_ok]
      cases readAtoms r <;> rfl

theorem operand_eq (s : Word) : operand s = do
    let (p, r) ← atom s
    let (k, t) ← readQuantifier r
    match after? '|' t with
    | none => return (quantified p k, t)
    | some u => do
      let (q, v) ← operand u
      return (.alt (quantified p k) q, v) := by
  unfold atom
  rw [operand, readOperand]
  cases readAtom s with
  | error f => rfl
  | ok x =>
    obtain ⟨p, r, hr⟩ := x
    simp only [bind, Except.bind, forget_ok]
    split
    · rename_i hq
      simp only [hq, forget_error]
    · rename_i k t hq
      simp only [hq]
      split
      · rename_i ha
        simp only [ha]
        rfl
      · rename_i u ha
        simp only [ha, operand]
        cases readOperand u <;> rfl

theorem atom_eq (s : Word) : atom s =
    match after? '(' (skipAnchors s) with
    | none => readSimple (skipAnchors s)
    | some t => do
      let (ps, r) ← atoms t
      match after? ')' r with
      | none => .error ⟨.unclosedGroup, skipAnchors s⟩
      | some u => return (.concat ps, u) := by
  unfold atoms
  rw [atom, readAtom]
  split
  · rename_i ha
    simp only [ha]
    split
    · rename_i hs
      exact hs.symm
    · rename_i hs
      exact hs.symm
  · rename_i t ha
    simp only [ha]
    cases readAtoms t with
    | error f => rfl
    | ok x =>
      obtain ⟨ps, r, hr⟩ := x
      simp only [bind, Except.bind, forget_ok]
      split
      · rename_i hc
        simp only [hc, forget_error]
      · rename_i u hc
        simp only [hc]
        rfl

/-- Reads the whole of a text. -/
def readText (p : Word) : Except ParseError Pattern :=
  match atoms p with
  | .error f => .error (f.locate p)
  | .ok (ps, []) => .ok (.concat ps)
  | .ok (_, r) => .error (Fault.locate p ⟨.unmatchedParen, r⟩)

/-- Reads a pattern. The readers go by its characters, once each of them is known to be a token. -/
def parse (p : Word) : Except ParseError Pattern := do
  let ls ← lex p
  readText (ls.map Lexeme.ch)

end Pattern

end RegLan
