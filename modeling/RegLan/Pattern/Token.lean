import RegLan.Pattern.Error

/-! The tokens of a pattern. Each of them covers one character, so that a quantifier or a range
applies to the one character before it. A token has a rule that says which characters it takes, and
the rules are tried in order. -/

namespace RegLan

inductive Token where
  | backslash
  | lparen
  | rparen
  | lbracket
  | rbracket
  | lbrace
  | rbrace
  | pipe
  | star
  | plus
  | question
  | dot
  | caret
  | dollar
  | dash
  | comma
  | digit
  /-- Any other character, line feeds included. -/
  | char
deriving DecidableEq

namespace Token

def all : List Token :=
  [.backslash, .lparen, .rparen, .lbracket, .rbracket, .lbrace, .rbrace, .pipe, .star, .plus,
    .question, .dot, .caret, .dollar, .dash, .comma, .digit, .char]

/-- The characters that have a token to themselves. -/
def marks : List Char :=
  ['\\', '(', ')', '[', ']', '\x7b', '\x7d', '|', '*', '+', '?', '.', '^', '$', '-', ',']

def takes : Token → Char → Bool
  | .backslash, c => c == '\\'
  | .lparen, c => c == '('
  | .rparen, c => c == ')'
  | .lbracket, c => c == '['
  | .rbracket, c => c == ']'
  | .lbrace, c => c == '\x7b'
  | .rbrace, c => c == '\x7d'
  | .pipe, c => c == '|'
  | .star, c => c == '*'
  | .plus, c => c == '+'
  | .question, c => c == '?'
  | .dot, c => c == '.'
  | .caret, c => c == '^'
  | .dollar, c => c == '$'
  | .dash, c => c == '-'
  | .comma, c => c == ','
  | .digit, c => c.isDigit
  | .char, c => !marks.contains c && !c.isDigit

end Token

/-- A character of a pattern, with its token and its byte offset. -/
structure Lexeme where
  token : Token
  ch : Char
  offset : Nat
  takes : token.takes ch = true

namespace Lexeme

/-- The character as a lexeme of the first of some tokens whose rule takes it. -/
def first? (c : Char) (offset : Nat) : List Token → Option Lexeme
  | [] => none
  | t :: ts => if h : t.takes c = true then some ⟨t, c, offset, h⟩ else first? c offset ts

end Lexeme

namespace Pattern

/-- The lexemes of a text that begins at an offset. A character that no rule takes is an error. -/
def lexFrom (offset : Nat) : Word → Except ParseError (List Lexeme)
  | [] => .ok []
  | c :: s =>
    match Lexeme.first? c offset Token.all with
    | none => .error ⟨.invalidToken, offset⟩
    | some l => do return l :: (← lexFrom (offset + c.utf8Size) s)

def lex (p : Word) : Except ParseError (List Lexeme) := lexFrom 0 p

end Pattern

end RegLan
