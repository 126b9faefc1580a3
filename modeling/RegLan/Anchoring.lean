import RegLan.Solver.Build

/-! What a pattern without `^` or `$` accepts around its match. -/

namespace RegLan

/-- Whether a pattern is tied to the start and to the end of the text. -/
structure Anchors where
  start : Bool
  stop : Bool

/-- Read off the first and the last character alone. -/
def Anchors.of (p : Word) : Anchors := ⟨p.head? = some '^', p.getLast? = some '$'⟩

inductive Anchoring where
  /-- A missing anchor adds alternatives to the term. -/
  | union
  /-- A missing anchor admits any text on its side. -/
  | surround
  /-- The term stays as it is. -/
  | exact

namespace Anchoring

variable {m : Type → Type} [Monad m] {Str Re Result : Type} (S : Solver m Str Re Result)

def applyStart : Anchoring → Re → m Re
  | .union, r => do S.union (← S.star (← S.any)) r
  | .surround, r => do S.concat (← S.star (← S.any)) r
  | .exact, r => return r

def applyStop : Anchoring → Re → m Re
  | .union, r => do S.union (← S.star r) (← S.any)
  | .surround, r => do S.concat r (← S.star (← S.any))
  | .exact, r => return r

/-- The term `r` of the pattern `p`, with what its missing anchors admit. -/
def apply (a : Anchoring) (p : Word) (r : Re) : m Re := do
  let anchors := Anchors.of p
  let r ← if anchors.start then pure r else a.applyStart S r
  if anchors.stop then return r else a.applyStop S r

end Anchoring

end RegLan
