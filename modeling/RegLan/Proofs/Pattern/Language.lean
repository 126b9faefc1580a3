import RegLan.Pattern.Basic
import RegLan.Proofs.Language

/-! The language of a pattern, said of its tree alone. There are two kinds of negation: that of a
bracket stays within the characters of `.`, and that of a shorthand admits every other word, of
whatever length. -/

namespace RegLan

open Computability Language

/-- The characters that `.` stands for. -/
def anyChars : Set Char := {c | c.toNat ≤ 0xFF ∧ c ≠ '\n'}

def Shorthand.chars : Shorthand → Set Char
  | .digit => {c | '0' ≤ c ∧ c ≤ '9'}
  | .word => {c | 'a' ≤ c ∧ c ≤ 'z' ∨ 'A' ≤ c ∧ c ≤ 'Z' ∨ '0' ≤ c ∧ c ≤ '9' ∨ c = '_'}
  | .space => {' ', '\t', '\r', '\n', '\x0c'}

def Member.chars : Member → Set Char
  | .char c => {c}
  | .range lo hi => {c | lo ≤ c ∧ c ≤ hi}

/-- What lies in some member, or the rest of what `.` stands for. -/
def Bracket.chars (b : Bracket) : Set Char :=
  if b.negated then {c ∈ anyChars | ∀ m ∈ b.members, c ∉ m.chars}
  else {c | ∃ m ∈ b.members, c ∈ m.chars}

/-- The words that a quantifier makes of those of a language. -/
def Quantifier.lang (l : Language Char) : Quantifier → Language Char
  | .zeroOrMore => l∗
  | .oneOrMore => l * l∗
  | .zeroOrOne => 1 + l
  | .between min max => l.between min max

namespace Pattern

mutual

/-- The words that a pattern stands for. -/
def lang : Pattern → Language Char
  | .concat ps => langConcat ps
  | .alt p q => lang p + lang q
  | .rep k p => k.lang (lang p)
  | .char c => {[c]}
  | .any => ofChars anyChars
  | .shorthand k negated => if negated then (ofChars k.chars)ᶜ else ofChars k.chars
  | .bracket b => ofChars b.chars

def langConcat : List Pattern → Language Char
  | [] => 1
  | p :: ps => lang p * langConcat ps

end

theorem lang_concat (ps : List Pattern) : (concat ps).lang = (ps.map lang).prod := by
  rw [lang]
  induction ps with
  | nil => rfl
  | cons p ps ih => rw [langConcat, ih, List.map_cons, List.prod_cons]

end Pattern

end RegLan
