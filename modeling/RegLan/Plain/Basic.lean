import RegLan.CharSet
import RegLan.Word

/-! Plain expressions: regular expressions without complement and intersection. They are made by
`ofSet`, `ofWord`, `times`, `sequence` and, in the next module, `choice`, which keep them tidy: a
sequence has at least two parts, none of them empty or a sequence, and no two words side by side. -/

namespace RegLan

inductive Plain where
  /-- The empty word alone. -/
  | empty
  /-- No word. -/
  | fail
  | word (w : Word)
  | set (a : CharSet)
  /-- Without a maximum the repetition is unbounded. -/
  | rep (min : Nat) (max : Option Nat) (e : Plain)
  | seq (es : List Plain)
  | alt (es : List Plain)
deriving Inhabited

namespace Plain

/-- Induction on expressions, in which the parts of a sequence or a choice are given as members of
its list. -/
@[elab_as_elim, induction_eliminator]
theorem induction {motive : Plain → Prop} (empty : motive .empty) (fail : motive .fail)
    (word : ∀ w, motive (.word w)) (set : ∀ a, motive (.set a))
    (rep : ∀ min max e, motive e → motive (.rep min max e))
    (seq : ∀ es, (∀ e ∈ es, motive e) → motive (.seq es))
    (alt : ∀ es, (∀ e ∈ es, motive e) → motive (.alt es)) (e : Plain) : motive e :=
  @Plain.rec motive (fun es => ∀ e ∈ es, motive e) empty fail word set rep seq alt
    (fun _ h => nomatch h) (fun _ _ h hs => List.forall_mem_cons.2 ⟨h, hs⟩) e

mutual

/-- Equality of expressions, decided part by part. -/
def same : Plain → Plain → Bool
  | .empty, .empty => true
  | .fail, .fail => true
  | .word v, .word w => v == w
  | .set a, .set b => a == b
  | .rep k m d, .rep l n e => k == l && m == n && same d e
  | .seq ds, .seq es => sameAll ds es
  | .alt ds, .alt es => sameAll ds es
  | _, _ => false

def sameAll : List Plain → List Plain → Bool
  | [], [] => true
  | d :: ds, e :: es => same d e && sameAll ds es
  | _, _ => false

end

mutual

/-- Whether the shape alone shows that nothing but the empty word can match. -/
def emptyOnly : Plain → Bool
  | .empty => true
  | .fail => false
  | .word w => w.isEmpty
  | .set _ => false
  | .rep _ max e => max.isSome && emptyOnly e
  | .seq es => allEmptyOnly es
  | .alt es => allEmptyOnly es

def allEmptyOnly : List Plain → Bool
  | [] => true
  | e :: es => emptyOnly e && allEmptyOnly es

end

/-- A single character is a word, and no character at all is failure. -/
def ofSet (a : CharSet) : Plain :=
  match a.spans with
  | [] => .fail
  | [s] => if s.lo = s.hi then .word [Char.ofNat s.lo] else .set a
  | _ => .set a

def ofWord : Word → Plain
  | [] => .empty
  | w => .word w

/-- The bounds that matter: of what can only be empty, one copy is as good as many. -/
def clip (e : Plain) (k : Nat) (m : Option Nat) : Nat × Option Nat :=
  if e.emptyOnly then (min k 1, some (min (m.getD 1) 1)) else (k, m)

def repOf (e : Plain) : Nat × Option Nat → Plain
  | (0, some 0) => .empty
  | (1, some 1) => e
  | (k, m) => .rep k m e

/-- At least `k` and at most `m` times. -/
def times (e : Plain) (k : Nat) (m : Option Nat) : Plain := repOf e (clip e k m)

/-- What an expression contributes to a sequence around it. -/
def sequenceParts : Plain → List Plain
  | .empty => []
  | .seq es => es
  | e => [e]

/-- Puts a part in front of a sequence, joined to a word at its head. -/
def joinPart : Plain → List Plain → List Plain
  | .word v, .word w :: es => .word (v ++ w) :: es
  | e, es => e :: es

def seqOf : List Plain → Plain
  | [] => .empty
  | [e] => e
  | es => .seq es

/-- One after another. -/
def sequence (es : List Plain) : Plain := seqOf ((es.flatMap sequenceParts).foldr joinPart [])

end Plain

end RegLan
