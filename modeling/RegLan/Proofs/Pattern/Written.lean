import Mathlib.Data.List.Chain
import RegLan.Proofs.Pattern.Parser

/-! Which patterns are read from some text. A pattern that is put together as the grammar puts it
together has a text of its own: characters that would be taken for something else are escaped, so
that nothing runs over into what stands beside it. -/

namespace RegLan

namespace Member

/-- The character that a member begins with. -/
def start : Member → Char
  | .char c => c
  | .range lo _ => lo

/-- A `-` after a single character would make it a range. -/
def MayPrecede : Member → Member → Prop
  | .char _, n => n.start ≠ '-'
  | .range _ _, _ => True

end Member

structure Bracket.WellFormed (b : Bracket) : Prop where
  ne_nil : b.members ≠ []
  start : ∀ m ∈ b.members, m.start ≠ ')' ∧ m.start ≠ ']'
  dash : b.members.IsChain Member.MayPrecede
  caret : b.negated = false → ∀ m ∈ b.members.head?, m.start ≠ '^'

/-- Counts fit into 32 bits. -/
def Quantifier.Bounded : Quantifier → Prop
  | .between min max => min < 2 ^ 32 ∧ max < 2 ^ 32
  | _ => True

namespace Pattern

mutual

inductive IsUnit : Pattern → Prop
  | char (c : Char) : IsUnit (.char c)
  | any : IsUnit .any
  | shorthand (k : Shorthand) (negated : Bool) : IsUnit (.shorthand k negated)
  | bracket {b : Bracket} : b.WellFormed → IsUnit (.bracket b)
  | concat {ps : List Pattern} : (∀ p ∈ ps, IsOperand p) → IsUnit (.concat ps)

/-- A unit, or one that is repeated. -/
inductive IsQuantified : Pattern → Prop
  | plain {p : Pattern} : IsUnit p → IsQuantified p
  | rep {k : Quantifier} {p : Pattern} : k.Bounded → IsUnit p → IsQuantified (.rep k p)

inductive IsOperand : Pattern → Prop
  | single {p : Pattern} : IsQuantified p → IsOperand p
  | alt {p q : Pattern} : IsQuantified p → IsOperand q → IsOperand (.alt p q)

end

inductive WellFormed : Pattern → Prop
  | mk {ps : List Pattern} : (∀ p ∈ ps, IsOperand p) → WellFormed (.concat ps)

end Pattern

def Member.text : Member → Word
  | .char c => [c]
  | .range lo hi => [lo, '-', hi]

def Bracket.text : Bracket → Word
  | ⟨false, ms⟩ => '[' :: ms.flatMap Member.text ++ [']']
  | ⟨true, ms⟩ => '[' :: '^' :: ms.flatMap Member.text ++ [']']

def Quantifier.text : Quantifier → Word
  | .zeroOrMore => ['*']
  | .oneOrMore => ['+']
  | .zeroOrOne => ['?']
  | .between min max => '\x7b' :: Nat.toDigits 10 min ++ ',' :: Nat.toDigits 10 max ++ ['\x7d']

def Shorthand.letter : Shorthand → Bool → Char
  | .digit, false => 'd'
  | .digit, true => 'D'
  | .word, false => 'w'
  | .word, true => 'W'
  | .space, false => 's'
  | .space, true => 'S'

namespace Pattern

/-- The characters that are escaped: those that do not stand for themselves, and the brace that
could be taken for a quantifier of what stands before it. -/
def guarded : List Char := '\x7b' :: special

mutual

def text : Pattern → Word
  | .concat ps => '(' :: textAll ps ++ [')']
  | .alt p q => text p ++ '|' :: text q
  | .rep k p => text p ++ k.text
  | .char c => if c ∈ guarded then ['\\', c] else [c]
  | .any => ['.']
  | .shorthand k negated => ['\\', k.letter negated]
  | .bracket b => b.text

def textAll : List Pattern → Word
  | [] => []
  | p :: ps => text p ++ textAll ps

end

theorem head?_flatMap_text (ms : List Member) :
    (ms.flatMap Member.text).head? = ms.head?.map Member.start := by
  cases ms with
  | nil => rfl
  | cons m ms =>
    cases m with
    | char c => rfl
    | range lo hi => rfl

/-- Nothing is escaped in a bracket, so its members have one text only. -/
theorem MembersText.wellFormed {u : Word} {ms : List Member} (h : MembersText u ms) :
    u = ms.flatMap Member.text ∧ (∀ m ∈ ms, m.start ≠ ')' ∧ m.start ≠ ']') ∧
      ms.IsChain Member.MayPrecede := by
  induction h with
  | nil => exact ⟨rfl, nofun, .nil⟩
  | @char c u ms hparen hclose hhead _ ih =>
    obtain ⟨rfl, hstart, hdash⟩ := ih
    refine ⟨rfl, List.forall_mem_cons.2 ⟨⟨hparen, hclose⟩, hstart⟩,
      List.isChain_cons.2 ⟨fun n hn heq => hhead ?_, hdash⟩⟩
    rw [head?_flatMap_text, Option.mem_def.1 hn, Option.map_some, heq]
  | @range lo hi u ms hparen hclose _ ih =>
    obtain ⟨rfl, hstart, hdash⟩ := ih
    exact ⟨rfl, List.forall_mem_cons.2 ⟨⟨hparen, hclose⟩, hstart⟩,
      List.isChain_cons.2 ⟨fun _ _ => trivial, hdash⟩⟩

theorem SimpleText.isUnit {u : Word} {p : Pattern} (h : SimpleText u p) : IsUnit p := by
  cases h with
  | bracket hcaret hms hne =>
    obtain ⟨rfl, hstart, hdash⟩ := hms.wellFormed
    refine .bracket ⟨hne, hstart, hdash, fun _ m hm heq => hcaret ?_⟩
    rw [head?_flatMap_text, Option.mem_def.1 hm, Option.map_some, heq]
  | negatedBracket hms hne =>
    obtain ⟨-, hstart, hdash⟩ := hms.wellFormed
    exact .bracket ⟨hne, hstart, hdash, nofun⟩
  | escape hc =>
    cases hc
    all_goals constructor
  | any => exact .any
  | char => exact .char _

theorem QuantifierText.bounded {u : Word} {k : Quantifier} (h : QuantifierText u k) :
    k.Bounded := by
  cases h with
  | star => trivial
  | plus => trivial
  | opt => trivial
  | exactly hn => exact ⟨hn.bound, hn.bound⟩
  | between hm hn => exact ⟨hm.bound, hn.bound⟩

mutual

theorem AtomText.isUnit {u : Word} {p : Pattern} : AtomText u p → IsUnit p
  | .simple h => h.isUnit
  | .group h => .concat h.isOperand

theorem QuantifiedText.isQuantified {u : Word} {f : Option Char} {p : Pattern} :
    QuantifiedText u f p → IsQuantified p
  | .plain h _ => .plain h.isUnit
  | .rep h hk => .rep hk.bounded h.isUnit

theorem OperandText.isOperand {u : Word} {f : Option Char} {p : Pattern} :
    OperandText u f p → IsOperand p
  | .single _ h _ => .single h.isQuantified
  | .alt _ h h' => .alt h.isQuantified h'.isOperand

theorem AtomsText.isOperand {u : Word} {f : Option Char} {ps : List Pattern} :
    AtomsText u f ps → ∀ p ∈ ps, IsOperand p
  | .nil _ => nofun
  | .cons _ h hs => List.forall_mem_cons.2 ⟨h.isOperand, hs.isOperand⟩

end

theorem numberText_toDigits {n : ℕ} (hn : n < 2 ^ 32) : NumberText (Nat.toDigits 10 n) n where
  ne_nil := Nat.toDigits_ne_nil
  digits _ hd := Nat.isDigit_of_mem_toDigits (by decide) (by decide) hd
  value := Nat.ofDigitChars_toDigits (by decide) (by decide)
  bound := hn

theorem quantifierText_text {k : Quantifier} (h : k.Bounded) :
    QuantifierText k.text k := by
  cases k with
  | zeroOrMore => exact .star
  | oneOrMore => exact .plus
  | zeroOrOne => exact .opt
  | between min max => exact .between (numberText_toDigits h.1) (numberText_toDigits h.2)

theorem membersText_flatMap {ms : List Member} (hstart : ∀ m ∈ ms, m.start ≠ ')' ∧ m.start ≠ ']')
    (hdash : ms.IsChain Member.MayPrecede) : MembersText (ms.flatMap Member.text) ms := by
  induction ms with
  | nil => exact .nil
  | cons m ms ih =>
    obtain ⟨⟨hparen, hclose⟩, hstart⟩ := List.forall_mem_cons.1 hstart
    obtain ⟨hnext, hdash⟩ := List.isChain_cons.1 hdash
    have hms := ih hstart hdash
    rw [List.flatMap_cons]
    cases m with
    | char c =>
      refine .char hparen hclose (fun hhead => ?_) hms
      change (ms.flatMap Member.text).head? = _ at hhead
      rw [head?_flatMap_text, Option.map_eq_some_iff] at hhead
      obtain ⟨n, hn, heq⟩ := hhead
      exact hnext n hn heq
    | range lo hi => exact .range hparen hclose hms

theorem simpleText_text {b : Bracket} (h : b.WellFormed) :
    SimpleText b.text (.bracket b) := by
  obtain ⟨negated, ms⟩ := b
  have hms := membersText_flatMap h.start h.dash
  cases negated with
  | false =>
    refine .bracket (fun hhead => ?_) hms h.ne_nil
    rw [head?_flatMap_text, Option.map_eq_some_iff] at hhead
    obtain ⟨m, hm, heq⟩ := hhead
    exact h.caret rfl m hm heq
  | true => exact .negatedBracket hms h.ne_nil

theorem escapeText_letter (k : Shorthand) (negated : Bool) :
    EscapeText (k.letter negated) (.shorthand k negated) := by
  cases k <;> cases negated <;> constructor

theorem escapeText_of_mem_guarded {c : Char} (h : c ∈ guarded) : EscapeText c (.char c) := by
  simp only [guarded, special, List.mem_cons, List.not_mem_nil, or_false] at h
  refine .self ?_
  rcases h with rfl | rfl | rfl | rfl | rfl | rfl | rfl | rfl | rfl | rfl | rfl | rfl <;> decide

theorem ends_of_not_mem_guarded {c : Char} (h : c ∉ guarded) : Ends (some c) := by
  refine ends_some (fun hc => h ?_) ?_
  · simp only [quantifierStarts, List.mem_cons, List.not_mem_nil, or_false] at hc
    rcases hc with rfl | rfl | rfl | rfl <;> decide
  · rintro rfl
    exact h (by decide)

/-- No text begins with a character that could belong to what stands before it. -/
theorem exists_head?_text (p : Pattern) : ∃ c, (text p).head? = some c ∧ Ends (some c) := by
  induction p with
  | concat ps => exact ⟨'(', by rw [text]; rfl, ends_some (by decide) (by decide)⟩
  | alt p q ihp _ =>
    obtain ⟨c, hc, hends⟩ := ihp
    exact ⟨c, by rw [text, List.head?_append, hc, Option.some_or], hends⟩
  | rep k p ih =>
    obtain ⟨c, hc, hends⟩ := ih
    exact ⟨c, by rw [text, List.head?_append, hc, Option.some_or], hends⟩
  | char c =>
    rw [text]
    split
    · exact ⟨'\\', rfl, ends_some (by decide) (by decide)⟩
    · rename_i hc
      exact ⟨c, rfl, ends_of_not_mem_guarded hc⟩
  | any => exact ⟨'.', by rw [text]; rfl, ends_some (by decide) (by decide)⟩
  | shorthand k negated => exact ⟨'\\', by rw [text]; rfl, ends_some (by decide) (by decide)⟩
  | bracket b =>
    obtain ⟨negated, ms⟩ := b
    refine ⟨'[', ?_, ends_some (by decide) (by decide)⟩
    rw [text]
    cases negated with
    | false => rfl
    | true => rfl

theorem ends_head?_textAll (ps : List Pattern) {f : Option Char} (hf : Ends f) :
    Ends ((textAll ps).head?.or f) := by
  cases ps with
  | nil => exact hf
  | cons p ps =>
    obtain ⟨c, hc, hends⟩ := exists_head?_text p
    rwa [textAll, List.head?_append, hc, Option.some_or, Option.some_or]

theorem simpleText_char (c : Char) : SimpleText (text (.char c)) (.char c) := by
  rw [text]
  split
  · rename_i hc
    exact .escape (escapeText_of_mem_guarded hc)
  · rename_i hc
    exact .char fun h => hc (List.mem_cons_of_mem _ h)

theorem atomsText_textAll {ps : List Pattern} {f : Option Char} (hf : Ends f)
    (hps : ∀ p ∈ ps, ∀ g, Ends g → OperandText (text p) g p) : AtomsText (textAll ps) f ps := by
  induction ps with
  | nil => exact .nil anchorsText_nil
  | cons p ps ih =>
    obtain ⟨hp, hps⟩ := List.forall_mem_cons.1 hps
    rw [textAll]
    exact .cons anchorsText_nil (hp _ (ends_head?_textAll ps hf)) (ih hps)

mutual

theorem IsUnit.atomText {p : Pattern} : IsUnit p → AtomText (text p) p
  | .char c => .simple (simpleText_char c)
  | .any => by
    rw [text]
    exact .simple .any
  | .shorthand k negated => by
    rw [text]
    exact .simple (.escape (escapeText_letter k negated))
  | .bracket h => by
    rw [text]
    exact .simple (simpleText_text h)
  | .concat hps => by
    rw [text]
    exact .group (atomsText_textAll ends_paren fun p hp _ hg => (hps p hp).operandText hg)

theorem IsQuantified.quantifiedText {p : Pattern} {f : Option Char}
    (hf : ∀ c ∈ quantifierStarts, f ≠ some c) : IsQuantified p → QuantifiedText (text p) f p
  | .plain h => .plain h.atomText hf
  | .rep hk h => by
    rw [text]
    exact .rep h.atomText (quantifierText_text hk)

theorem IsOperand.operandText {p : Pattern} {f : Option Char} (hf : Ends f) :
    IsOperand p → OperandText (text p) f p
  | .single h => .single anchorsText_nil (h.quantifiedText hf.ne_quantifier) hf.ne_pipe
  | .alt h h' => by
    rw [text]
    have hleft := h.quantifiedText (f := some '|') (ne_quantifierStart (by decide))
    exact .alt anchorsText_nil hleft (h'.operandText hf)

end

theorem parse_textAll {ps : List Pattern} (hps : ∀ p ∈ ps, IsOperand p) :
    parse (textAll ps) = .ok (.concat ps) :=
  parse_eq_ok.2 (.mk (atomsText_textAll ends_none fun p hp _ hg => (hps p hp).operandText hg))

/-- A pattern is read from some text exactly if it is a list of operands: units, repetitions of
units, and alternatives to one of these. -/
theorem exists_parse_eq_ok_iff (p : Pattern) : (∃ s, parse s = .ok p) ↔ p.WellFormed := by
  refine ⟨fun h => ?_, fun h => ?_⟩
  · obtain ⟨s, h⟩ := h
    obtain ⟨hps⟩ := parse_eq_ok.1 h
    exact .mk hps.isOperand
  · obtain ⟨hps⟩ := h
    exact ⟨_, parse_textAll hps⟩

end Pattern

end RegLan
