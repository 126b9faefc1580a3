import Mathlib.Algebra.Group.Nat.Defs
import Mathlib.Data.List.Basic
import RegLan.Pattern.Parser

/-! The grammar of patterns, as relations between a text and what it is the text of.

Where the grammar leaves a choice, the longer reading is meant: an atom takes a quantifier that
follows it, an operand takes an alternative that follows it, and a member of a bracket becomes
a range if a `-` follows. A relation for which this matters is also given the character that
follows the text, if one does. -/

namespace RegLan

namespace Pattern

/-- Any number of anchors. -/
def AnchorsText (a : Word) : Prop := ∀ c ∈ a, c = '^' ∨ c = '$'

theorem anchorsText_nil : AnchorsText [] := List.forall_mem_nil _

/-- A count: one or more digits, and their decimal value. -/
structure NumberText (ds : Word) (n : ℕ) : Prop where
  ne_nil : ds ≠ []
  digits : ∀ d ∈ ds, d.isDigit = true
  value : Nat.ofDigitChars 10 ds 0 = n
  bound : n < 2 ^ 32

inductive QuantifierText : Word → Quantifier → Prop
  | star : QuantifierText ['*'] .zeroOrMore
  | plus : QuantifierText ['+'] .oneOrMore
  | opt : QuantifierText ['?'] .zeroOrOne
  | exactly {ds : Word} {n : ℕ} : NumberText ds n →
      QuantifierText ('\x7b' :: ds ++ ['\x7d']) (.between n n)
  | between {ds es : Word} {m n : ℕ} : NumberText ds m → NumberText es n →
      QuantifierText ('\x7b' :: ds ++ ',' :: es ++ ['\x7d']) (.between m n)

/-- The members of a bracket, up to the `]` that closes it. -/
inductive MembersText : Word → List Member → Prop
  | nil : MembersText [] []
  | char {c : Char} {u : Word} {ms : List Member} : c ≠ ')' → c ≠ ']' → u.head? ≠ some '-' →
      MembersText u ms → MembersText (c :: u) (.char c :: ms)
  | range {lo hi : Char} {u : Word} {ms : List Member} : lo ≠ ')' → lo ≠ ']' →
      MembersText u ms → MembersText (lo :: '-' :: hi :: u) (.range lo hi :: ms)

/-- The characters that do not stand for themselves where an atom may begin. -/
def special : List Char := ['(', ')', '[', '\\', '.', '|', '*', '+', '?', '^', '$']

/-- The characters that begin a quantifier. -/
def quantifierStarts : List Char := ['*', '+', '?', '\x7b']

/-- The characters that a backslash gives a meaning of their own. -/
def escapeLetters : List Char := ['d', 'D', 'w', 'W', 's', 'S', 'n', 'r', 't', '0']

/-- What a backslash makes of the character after it. -/
inductive EscapeText : Char → Pattern → Prop
  | digit : EscapeText 'd' (.shorthand .digit false)
  | notDigit : EscapeText 'D' (.shorthand .digit true)
  | word : EscapeText 'w' (.shorthand .word false)
  | notWord : EscapeText 'W' (.shorthand .word true)
  | space : EscapeText 's' (.shorthand .space false)
  | notSpace : EscapeText 'S' (.shorthand .space true)
  | lineFeed : EscapeText 'n' (.char '\n')
  | carriageReturn : EscapeText 'r' (.char '\r')
  | tab : EscapeText 't' (.char '\t')
  | null : EscapeText '0' (.char '\x00')
  | self {c : Char} : c ∉ escapeLetters → EscapeText c (.char c)

/-- An atom that holds no other. -/
inductive SimpleText : Word → Pattern → Prop
  | bracket {u : Word} {ms : List Member} : u.head? ≠ some '^' → MembersText u ms → ms ≠ [] →
      SimpleText ('[' :: u ++ [']']) (.bracket ⟨false, ms⟩)
  | negatedBracket {u : Word} {ms : List Member} : MembersText u ms → ms ≠ [] →
      SimpleText ('[' :: '^' :: u ++ [']']) (.bracket ⟨true, ms⟩)
  | escape {c : Char} {p : Pattern} : EscapeText c p → SimpleText ['\\', c] p
  | any : SimpleText ['.'] .any
  | char {c : Char} : c ∉ special → SimpleText [c] (.char c)

mutual

inductive AtomText : Word → Pattern → Prop
  | simple {u : Word} {p : Pattern} : SimpleText u p → AtomText u p
  | group {u : Word} {ps : List Pattern} : AtomsText u (some ')') ps →
      AtomText ('(' :: u ++ [')']) (.concat ps)

/-- An atom with its quantifier, if it has one; the second argument is the character after it. -/
inductive QuantifiedText : Word → Option Char → Pattern → Prop
  | plain {u : Word} {f : Option Char} {p : Pattern} : AtomText u p →
      (∀ c ∈ quantifierStarts, f ≠ some c) → QuantifiedText u f p
  | rep {u v : Word} {f : Option Char} {p : Pattern} {k : Quantifier} : AtomText u p →
      QuantifierText v k → QuantifiedText (u ++ v) f (.rep k p)

/-- An atom with its quantifier and the alternatives to it. -/
inductive OperandText : Word → Option Char → Pattern → Prop
  | single {a u : Word} {f : Option Char} {p : Pattern} : AnchorsText a →
      QuantifiedText u f p → f ≠ some '|' → OperandText (a ++ u) f p
  | alt {a u v : Word} {f : Option Char} {p q : Pattern} : AnchorsText a →
      QuantifiedText u (some '|') p → OperandText v f q →
      OperandText (a ++ u ++ '|' :: v) f (.alt p q)

/-- Operands one after the other, with anchors before, between and after them. -/
inductive AtomsText : Word → Option Char → List Pattern → Prop
  | nil {a : Word} {f : Option Char} : AnchorsText a → AtomsText a f []
  | cons {a u v : Word} {f : Option Char} {p : Pattern} {ps : List Pattern} : AnchorsText a →
      OperandText u (v.head?.or f) p → AtomsText v f ps → AtomsText (a ++ u ++ v) f (p :: ps)

end

/-- The text before it ends where this character, or none, follows. -/
structure Ends (f : Option Char) : Prop where
  ne_quantifier : ∀ c ∈ quantifierStarts, f ≠ some c
  ne_pipe : f ≠ some '|'

theorem ne_quantifierStart {c : Char} (h : c ∉ quantifierStarts) :
    ∀ d ∈ quantifierStarts, some c ≠ some d := by
  rintro d hd heq
  cases heq
  exact h hd

theorem ends_none : Ends none := ⟨nofun, nofun⟩

theorem ends_some {c : Char} (h : c ∉ quantifierStarts) (hpipe : c ≠ '|') : Ends (some c) :=
  ⟨ne_quantifierStart h, fun heq => hpipe (Option.some.inj heq)⟩

theorem ends_paren : Ends (some ')') := ends_some (by decide) (by decide)

theorem QuantifiedText.follow {u : Word} {f g : Option Char} {p : Pattern} (hg : Ends g) :
    QuantifiedText u f p → QuantifiedText u g p
  | .plain hu _ => .plain hu hg.ne_quantifier
  | .rep hu hv => .rep hu hv

theorem OperandText.follow {u : Word} {f g : Option Char} {p : Pattern} (hg : Ends g) :
    OperandText u f p → OperandText u g p
  | .single ha hu _ => .single ha (hu.follow hg) hg.ne_pipe
  | .alt ha hu hv => .alt ha hu (hv.follow hg)

theorem AtomsText.follow {u : Word} {f g : Option Char} {ps : List Pattern} (hg : Ends g) :
    AtomsText u f ps → AtomsText u g ps
  | .nil ha => .nil ha
  | @AtomsText.cons a u v f p ps ha hu hv => by
    refine .cons ha ?_ (hv.follow hg)
    cases v with
    | nil => exact hu.follow hg
    | cons c v => exact hu

theorem OperandText.atomsText {u : Word} {f : Option Char} {p : Pattern} (h : OperandText u f p) :
    AtomsText u f [p] := by
  have hps := AtomsText.cons (v := []) anchorsText_nil h (.nil anchorsText_nil)
  rwa [List.nil_append, List.append_nil] at hps

/-- The whole of a text is a pattern. -/
inductive Derives : Word → Pattern → Prop
  | mk {s : Word} {ps : List Pattern} : AtomsText s none ps → Derives s (.concat ps)

end Pattern

end RegLan
