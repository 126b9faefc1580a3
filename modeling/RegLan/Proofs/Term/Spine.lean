import RegLan.Proofs.Term.Normal

/-! A normal form as a sequence. The spine of a term lists the operands of a concatenation, with a
literal taken apart into its characters, so that concatenating normal forms is appending their
spines, whatever literals are joined on the way. -/

namespace RegLan

namespace Term

/-- A literal as a sequence of characters, any other term by itself. -/
def spread : Term → List Term
  | .literal w => w.map fun c => .literal [c]
  | t => [t]

def spine (t : Term) : List Term := (concatOperands t).flatMap spread

variable {t : Term} {ts us : List Term}

theorem spread_eq_singleton (h : ¬t.IsLiteral) : spread t = [t] := by
  cases t with
  | literal w => exact absurd ⟨w, rfl⟩ h
  | _ => rfl

theorem spine_eq_spread (h : ∀ ts, t ≠ .concat ts) : spine t = spread t := by
  rw [spine, concatOperands_eq_self h, List.flatMap_singleton]

theorem spine_literal (w : Word) : spine (.literal w) = w.map fun c => .literal [c] :=
  spine_eq_spread nofun

theorem spine_eq_singleton (hconcat : ∀ ts, t ≠ .concat ts) (hlit : ¬t.IsLiteral) :
    spine t = [t] := by
  rw [spine_eq_spread hconcat, spread_eq_singleton hlit]

theorem flatMap_spine_eq (h : ∀ t ∈ ts, ∀ us, t ≠ .concat us) :
    ts.flatMap spine = ts.flatMap spread :=
  List.flatMap_congr fun t ht => spine_eq_spread (h t ht)

theorem flatMap_spread_joinOperand (t : Term) (ts : List Term) :
    (joinOperand t ts).flatMap spread = spread t ++ ts.flatMap spread := by
  unfold joinOperand
  split
  · rfl
  · simp [spread]
  · rfl

theorem flatMap_spread_foldr (ts : List Term) :
    (ts.foldr joinOperand []).flatMap spread = ts.flatMap spread := by
  induction ts with
  | nil => rfl
  | cons t ts ih => rw [List.foldr_cons, flatMap_spread_joinOperand, ih, List.flatMap_cons]

theorem spine_concatOf (h : ∀ t ∈ ts, ∀ us, t ≠ .concat us) :
    spine (concatOf ts) = ts.flatMap spread := by
  unfold concatOf
  split
  · rfl
  · rw [spine_eq_spread (h _ List.mem_cons_self), List.flatMap_singleton]
  · rfl

theorem normConcat_eq_none (h : Term.none ∈ ts) : normConcat ts = .none := by
  have hany : (ts.flatMap concatOperands).any isNone = true :=
    List.any_eq_true.2 ⟨.none, List.mem_flatMap.2 ⟨.none, h, List.mem_cons_self⟩, rfl⟩
  rw [normConcat]
  exact if_pos hany

theorem spine_normConcat (h : ∀ t ∈ ts, Normal t) (hnone : normConcat ts ≠ .none) :
    spine (normConcat ts) = ts.flatMap spine := by
  rw [normConcat] at hnone ⊢
  split at hnone
  · exact absurd rfl hnone
  · rename_i hany
    have hlist := factorList_of_normal h hany
    rw [if_neg hany, spine_concatOf fun t ht => (hlist.factor t ht).ne_concat,
      flatMap_spread_foldr, List.flatMap_assoc]
    rfl

theorem foldr_joinOperand_map (w : Word) (ts : List Term) :
    (w.map fun c => literal [c]).foldr joinOperand ts = joinOperand (.literal w) ts := by
  induction w with
  | nil => rfl
  | cons c w ih =>
    rw [List.map_cons, List.foldr_cons, ih]
    cases w with
    | nil => rfl
    | cons d w =>
      match ts with
      | .literal v :: ts => rfl
      | [] => rfl
      | .none :: ts | .range _ _ :: ts | .concat _ :: ts | .union _ :: ts | .inter _ :: ts
      | .compl _ :: ts | .star _ :: ts | .plus _ :: ts | .opt _ :: ts | .loop _ _ _ :: ts => rfl

theorem foldr_joinOperand_spread (t : Term) (ts : List Term) :
    (spread t).foldr joinOperand ts = joinOperand t ts := by
  cases t with
  | literal w => exact foldr_joinOperand_map w ts
  | _ => rfl

theorem foldr_joinOperand_flatMap (ts : List Term) :
    (ts.flatMap spread).foldr joinOperand [] = ts.foldr joinOperand [] := by
  induction ts with
  | nil => rfl
  | cons t ts ih =>
    rw [List.flatMap_cons, List.foldr_append, ih, foldr_joinOperand_spread, List.foldr_cons]

/-- The term can be read back from its spine. -/
theorem concatOf_spine (h : Normal t) : concatOf ((spine t).foldr joinOperand []) = t := by
  rw [spine, foldr_joinOperand_flatMap]
  cases h with
  | concat hlen _ hfactor hapart =>
    rw [concatOperands, foldr_joinOperand_eq_self (fun t ht => (hfactor t ht).ne_epsilon) hapart,
      concatOf_eq_concat hlen]
  | literal w => cases w <;> rfl
  | _ => rfl

end Term

end RegLan
