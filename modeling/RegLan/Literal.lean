import RegLan.Word

/-! Regex literals, such as `/a+b/gi`. -/

namespace RegLan

structure Literal where
  pattern : Word
  flags : Word

namespace Literal

/-- The text before the last slash and the text after it. -/
def splitLast : Word → Option (Word × Word)
  | [] => none
  | c :: w =>
    match splitLast w with
    | some (v, u) => some (c :: v, u)
    | none => if c = '/' then some ([], w) else none

/-- The pattern stands between the first slash and the last, and the flags after the last. A text
with fewer than two slashes is a pattern without flags. -/
def ofText (w : Word) : Literal :=
  match splitLast ((w.dropWhile (· ≠ '/')).drop 1) with
  | some (pattern, flags) => ⟨pattern, flags⟩
  | none => ⟨w, []⟩

end Literal

end RegLan
