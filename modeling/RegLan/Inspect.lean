import RegLan.Word

/-! Values written out constructor by constructor, for the log and for inspection: `Name`,
`Name(x, y)`, a record with its fields in braces, and lists in brackets. Characters stand in
single quotes and words in double quotes. A backslash, the quote around it, line breaks, tabs and
the null character have escapes of their own. Which other characters cannot be shown, because they
do not print or because they attach to the character before them, is read off the tables of a
version of Unicode. These are not part of the library: they are given as `hidden`, and a hidden
character is written by its number. -/

namespace RegLan

namespace Inspect

variable (hidden : Char → Bool)

/-- A character as it stands between two quotes `q`. -/
def escape (q c : Char) : String :=
  if c = '\\' then "\\\\"
  else if c = q then "\\" ++ q.toString
  else if c = '\n' then "\\n"
  else if c = '\r' then "\\r"
  else if c = '\t' then "\\t"
  else if c = '\x00' then "\\0"
  else if hidden c then "\\u\x7b" ++ String.ofList (Nat.toDigits 16 c.toNat) ++ "\x7d"
  else c.toString

def quoted (q : Char) (w : Word) : String :=
  q.toString ++ String.join (w.map (escape hidden q)) ++ q.toString

def char (c : Char) : String := quoted hidden '\x27' [c]

def word (w : Word) : String := quoted hidden '"' w

def number (n : Nat) : String := String.ofList (Nat.toDigits 10 n)

def bool (b : Bool) : String := if b then "true" else "false"

def commaSeparated (xs : List String) : String := ", ".intercalate xs

def list (xs : List String) : String := "[" ++ commaSeparated xs ++ "]"

/-- A constructor with its arguments. -/
def applied (name : String) (args : List String) : String :=
  name ++ "(" ++ commaSeparated args ++ ")"

/-- A constructor with named fields. -/
def record (name : String) (fields : List (String × String)) : String :=
  name ++ " \x7b " ++ commaSeparated (fields.map fun f => f.1 ++ ": " ++ f.2) ++ " \x7d"

end Inspect

end RegLan
