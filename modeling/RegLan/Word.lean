/-! Words over the Unicode scalar values. A word is what a term accepts, the text of a
pattern and the label of a result. -/

namespace RegLan

abbrev Word := List Char

namespace Word

/-- The number of bytes of the word in UTF-8. -/
def utf8Size : Word → Nat
  | [] => 0
  | c :: w => c.utf8Size + utf8Size w

theorem utf8Size_append (v w : Word) : utf8Size (v ++ w) = utf8Size v + utf8Size w := by
  induction v with
  | nil => simp [utf8Size]
  | cons c v ih => rw [List.cons_append, utf8Size, utf8Size, ih, Nat.add_assoc]

/-- Lexicographic by code point, a proper beginning first. -/
def cmp : Word → Word → Ordering
  | [], [] => .eq
  | [], _ :: _ => .lt
  | _ :: _, [] => .gt
  | a :: v, b :: w => (compare a.toNat b.toNat).then (cmp v w)

/-- The text after the character `c`, if that comes first. -/
def after? (c : Char) : Word → Option Word
  | d :: r => if d = c then some r else none
  | [] => none

theorem length_after? {c : Char} {s r : Word} (h : after? c s = some r) : r.length < s.length := by
  unfold after? at h
  split at h
  · split at h
    · cases h; simp
    · cases h
  · cases h

end Word

end RegLan
