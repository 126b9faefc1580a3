import RegLan.Pattern.Parser

/-! Reading a pattern with a cursor that moves through its lexemes, by loops and by calls within
calls, each decision being made on a token. Nothing here says that they come to an end. The number
given to a loop or a call says how deep further calls may nest in it, a loop being a call for each
turn, and a reading may find it too small. -/

namespace RegLan

namespace Pattern

/-- The lexemes of a pattern, and its byte length, which is the offset of its end. -/
structure Lexed where
  lexemes : Array Lexeme
  size : Nat

/-- A place among the lexemes. -/
structure Cursor (s : Lexed) where
  pos : Nat

namespace Cursor

variable {s : Lexed}

def current (c : Cursor s) : Option Lexeme := s.lexemes[c.pos]?

def offset (c : Cursor s) : Nat := (c.current.map Lexeme.offset).getD s.size

/-- The place after the current lexeme. At the end the cursor stays. -/
def next (c : Cursor s) : Cursor s :=
  match c.current with
  | some _ => ⟨c.pos + 1⟩
  | none => c

def isAt (t : Token) (c : Cursor s) : Bool := c.current.any (·.token = t)

/-- The place after the current lexeme, if that has the token `t`. -/
def eat? (t : Token) (c : Cursor s) : Option (Cursor s) := if c.isAt t then some c.next else none

/-- Whether an atom may follow: neither at the end nor at a `)`. -/
def more (c : Cursor s) : Bool := c.current.any (·.token ≠ .rparen)

/-- A result, or an error, or neither if calls may not nest deep enough. -/
abbrev Reading := ExceptT ParseError Option

/-- Calls would have to nest deeper. -/
def tooDeep {α : Type} : Reading α := ExceptT.mk none

def takeAnchors : Nat → Cursor s → Reading (Unit × Cursor s)
  | 0, _ => tooDeep
  | n + 1, c =>
    match (c.eat? .caret).or (c.eat? .dollar) with
    | some d => takeAnchors n d
    | none => return ((), c)

/-- The number, if it fits into 32 bits. -/
def checked (n : Nat) : Option Nat := if n < countBound then some n else none

/-- Reads on in the number that begins at `b`, of which the digits so far have the value `m`. -/
def takeDigits (b : Cursor s) : Nat → Nat → Cursor s → Reading (Nat × Cursor s)
  | 0, _, _ => tooDeep
  | n + 1, m, c =>
    match c.current.filter (·.token = .digit) with
    | none => return (m, c)
    | some l =>
      match (checked (m * 10)).bind fun m => checked (m + digitValue l.ch) with
      | none => throw ⟨.countTooLarge, b.offset⟩
      | some m => takeDigits b n m c.next

def takeNumber (n : Nat) (c : Cursor s) : Reading (Nat × Cursor s) :=
  if c.isAt .digit then takeDigits c n 0 c else throw ⟨.expectedCount, c.offset⟩

def takeCounts (n : Nat) (c : Cursor s) : Reading ((Nat × Nat) × Cursor s) := do
  let (min, d) ← c.takeNumber n
  match d.eat? .comma with
  | none => return ((min, min), d)
  | some e => do
    let (max, e) ← e.takeNumber n
    return ((min, max), e)

def takeQuantifier (n : Nat) (c : Cursor s) : Reading (Option Quantifier × Cursor s) :=
  match c.current.map Lexeme.token with
  | some .star => return (some .zeroOrMore, c.next)
  | some .plus => return (some .oneOrMore, c.next)
  | some .question => return (some .zeroOrOne, c.next)
  | some .lbrace => do
    let ((min, max), d) ← c.next.takeCounts n
    match d.eat? .rbrace with
    | none => throw ⟨.unclosedCount, c.offset⟩
    | some e => return (some (.between min max), e)
  | _ => return (none, c)

/-- Members of the bracket that begins at `b`, after those read so far, up to a `]`, a `)` or the
end. -/
def takeMembers (b : Cursor s) : Nat → List Member → Cursor s → Reading (List Member × Cursor s)
  | 0, _, _ => tooDeep
  | n + 1, ms, c =>
    match c.current with
    | none => return (ms, c)
    | some lo =>
      if lo.token = .rparen ∨ lo.token = .rbracket then return (ms, c)
      else
        match c.next.eat? .dash with
        | none => takeMembers b n (ms ++ [.char lo.ch]) c.next
        | some d =>
          match d.current with
          | none => throw ⟨.unclosedClass, b.offset⟩
          | some hi => takeMembers b n (ms ++ [.range lo.ch hi.ch]) d.next

/-- Closes the bracket that begins at `b`, after its members. -/
def takeClose (b : Cursor s) (x : List Member × Cursor s) : Reading (List Member × Cursor s) :=
  match x.2.eat? .rbracket with
  | none => throw ⟨.unclosedClass, b.offset⟩
  | some e => return (x.1, e)

def takeBracket (n : Nat) (c : Cursor s) : Reading (Pattern × Cursor s) := do
  let (negated, d) := match c.next.eat? .caret with
    | some d => (true, d)
    | none => (false, c.next)
  let (ms, e) ← takeMembers c n [] d >>= takeClose c
  if ms.isEmpty then throw ⟨.emptyClass, c.offset⟩ else return (.bracket ⟨negated, ms⟩, e)

def takeEscape (c : Cursor s) : Reading (Pattern × Cursor s) :=
  match c.next.current with
  | none => throw ⟨.danglingEscape, c.offset⟩
  | some l => return (escaped l.ch, c.next.next)

def takeSimple (n : Nat) (c : Cursor s) : Reading (Pattern × Cursor s) :=
  match c.current with
  | none => throw ⟨.expectedAtom, c.offset⟩
  | some l =>
    match l.token with
    | .lbracket => c.takeBracket n
    | .backslash => c.takeEscape
    | .dot => return (.any, c.next)
    | .rparen => throw ⟨.expectedAtom, c.offset⟩
    | .pipe => throw ⟨.expectedAtom, c.offset⟩
    | .star => throw ⟨.nothingToRepeat, c.offset⟩
    | .plus => throw ⟨.nothingToRepeat, c.offset⟩
    | .question => throw ⟨.nothingToRepeat, c.offset⟩
    | _ => return (.char l.ch, c.next)

mutual

/-- Operands after those read so far. A turn that finds none after the anchors it has passed goes
back to the start of the loop. -/
def takeAtoms : Nat → List Pattern → Cursor s → Reading (List Pattern × Cursor s)
  | 0, _, _ => tooDeep
  | n + 1, ps, c =>
    if c.more then do
      let (_, d) ← c.takeAnchors n
      if d.more then do
        let (p, e) ← takeOperand n d
        takeAtoms n (ps ++ [p]) e
      else takeAtoms n ps d
    else return (ps, c)

def takeOperand : Nat → Cursor s → Reading (Pattern × Cursor s)
  | 0, _ => tooDeep
  | n + 1, c => do
    let (p, d) ← takeAtom n c
    let (k, d) ← d.takeQuantifier n
    match d.eat? .pipe with
    | none => return (quantified p k, d)
    | some e => do
      let (q, e) ← takeOperand n e
      return (.alt (quantified p k) q, e)

def takeAtom : Nat → Cursor s → Reading (Pattern × Cursor s)
  | 0, _ => tooDeep
  | n + 1, c => do
    let (_, d) ← c.takeAnchors n
    match d.eat? .lparen with
    | none => d.takeSimple n
    | some e => do
      let (ps, e) ← takeAtoms n [] e
      match e.eat? .rparen with
      | none => throw ⟨.unclosedGroup, d.offset⟩
      | some e => return (.concat ps, e)

end

/-- Reads a whole pattern from its lexemes. -/
def takePattern (n : Nat) (p : Word) : Reading Pattern :=
  match lex p with
  | .error e => throw e
  | .ok ls => do
    let (ps, c) ← takeAtoms n [] (⟨0⟩ : Cursor ⟨ls.toArray, Word.utf8Size p⟩)
    match c.current with
    | none => return .concat ps
    | some _ => throw ⟨.unmatchedParen, c.offset⟩

end Cursor

end Pattern

end RegLan
