import RegLan.Proofs.Language
import RegLan.Term.Basic

/-! The language of a term, by the rules of the SMT-LIB theory of strings. A concatenation of
nothing is the empty word, a union of nothing accepts no word and an intersection of nothing
accepts every word. -/

namespace RegLan

namespace Term

open Computability

mutual

/-- The words that belong to a term. -/
def lang : Term → Language Char
  | .none => 0
  | .literal w => {w}
  | .range lo hi => .ofChars {c | lo ≤ c ∧ c ≤ hi}
  | .concat ts => langConcat ts
  | .union ts => langUnion ts
  | .inter ts => langInter ts
  | .compl t => (lang t)ᶜ
  | .star t => (lang t)∗
  | .plus t => lang t * (lang t)∗
  | .opt t => 1 + lang t
  | .loop t min max => (lang t).between min max

def langConcat : List Term → Language Char
  | [] => 1
  | t :: ts => lang t * langConcat ts

def langUnion : List Term → Language Char
  | [] => 0
  | t :: ts => lang t + langUnion ts

def langInter : List Term → Language Char
  | [] => ⊤
  | t :: ts => lang t ⊓ langInter ts

end

variable {t : Term} {ts : List Term} {w : Word}

theorem lang_concat (ts : List Term) : (concat ts).lang = (ts.map lang).prod := by
  rw [lang]
  induction ts with
  | nil => rfl
  | cons t ts ih => rw [langConcat, ih, List.map_cons, List.prod_cons]

theorem mem_lang_literal {v : Word} : w ∈ (literal v).lang ↔ w = v := Iff.rfl

theorem mem_lang_range {lo hi : Char} :
    w ∈ (range lo hi).lang ↔ ∃ c, (lo ≤ c ∧ c ≤ hi) ∧ w = [c] := Iff.rfl

theorem mem_lang_union : w ∈ (union ts).lang ↔ ∃ t ∈ ts, w ∈ t.lang := by
  change w ∈ langUnion ts ↔ _
  induction ts with
  | nil => simp [langUnion]
  | cons t ts ih => rw [langUnion, Language.mem_add, ih, List.exists_mem_cons_iff]

theorem mem_lang_inter : w ∈ (inter ts).lang ↔ ∀ t ∈ ts, w ∈ t.lang := by
  change w ∈ langInter ts ↔ _
  induction ts with
  | nil => exact ⟨fun _ _ h => absurd h List.not_mem_nil, fun _ => trivial⟩
  | cons t ts ih => rw [langInter, Language.mem_inf, ih, List.forall_mem_cons]

theorem mem_lang_compl : w ∈ (compl t).lang ↔ w ∉ t.lang := Iff.rfl

theorem lang_concat_pair (t u : Term) : (concat [t, u]).lang = t.lang * u.lang := by
  rw [lang_concat, List.map_cons, List.map_singleton, List.prod_cons, List.prod_singleton]

theorem lang_union_pair (t u : Term) : (union [t, u]).lang = t.lang + u.lang := by
  ext w
  rw [mem_lang_union, Language.mem_add]
  simp

theorem lang_inter_pair (t u : Term) : (inter [t, u]).lang = t.lang ⊓ u.lang := by
  ext w
  rw [mem_lang_inter, Language.mem_inf]
  simp

theorem lang_epsilon : epsilon.lang = 1 := rfl

end Term

end RegLan
