/-! Sets of characters as sorted lists of spans of code points. Spans that overlap or touch are
merged. The code points from U+D800 to U+DFFF are no characters: a span may run across them, but
never ends among them, and U+D7FF and U+E000 do not touch. -/

namespace RegLan

/-- The characters from one code point to another, both included. -/
structure Span where
  lo : Nat
  hi : Nat
deriving DecidableEq

structure CharSet where
  spans : List Span
deriving DecidableEq

/-- The character before a code point. -/
def Span.before (n : Nat) : Nat := if n = 0xE000 then 0xD7FF else n - 1

/-- The character after a code point. -/
def Span.after (n : Nat) : Nat := if n = 0xD7FF then 0xE000 else n + 1

namespace Span

def contains (s : Span) (c : Char) : Bool := s.lo ≤ c.toNat && c.toNat ≤ s.hi

/-- What two spans share. -/
def meet (s t : Span) : Option Span :=
  let lo := max s.lo t.lo
  let hi := min s.hi t.hi
  if lo ≤ hi then some ⟨lo, hi⟩ else none

/-- What is left of `s` on either side of `t`. -/
def minus (s t : Span) : List Span :=
  (if s.lo < t.lo then [⟨s.lo, min s.hi (before t.lo)⟩] else []) ++
    if t.hi < s.hi then [⟨max s.lo (after t.hi), s.hi⟩] else []

/-- Adds a span to a sorted list, merging it with every span it overlaps or touches. -/
def insert (s : Span) : List Span → List Span
  | [] => [s]
  | t :: ts =>
    if s.hi + 1 < t.lo then s :: t :: ts
    else if t.hi + 1 < s.lo then t :: insert s ts
    else insert ⟨min s.lo t.lo, max s.hi t.hi⟩ ts

end Span

namespace CharSet

def empty : CharSet := ⟨[]⟩

/-- The characters from `lo` to `hi`, none if they run backwards. -/
def range (lo hi : Char) : CharSet := if lo ≤ hi then ⟨[⟨lo.toNat, hi.toNat⟩]⟩ else empty

def singleton (c : Char) : CharSet := range c c

def contains (a : CharSet) (c : Char) : Bool := a.spans.any (·.contains c)

def union (a b : CharSet) : CharSet := ⟨b.spans.foldl (fun ss s => s.insert ss) a.spans⟩

def inter (a b : CharSet) : CharSet := ⟨a.spans.flatMap fun s => b.spans.filterMap s.meet⟩

def diff (a b : CharSet) : CharSet :=
  ⟨b.spans.foldl (fun ss t => ss.flatMap (·.minus t)) a.spans⟩

end CharSet

end RegLan
