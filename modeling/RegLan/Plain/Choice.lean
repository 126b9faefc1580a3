import RegLan.Plain.Basic

/-! The choice between plain expressions. Characters and sets of them become one set, and what
several sequences begin with is written once in front of the choice between their rests. -/

namespace RegLan

namespace Plain

mutual

def size : Plain → Nat
  | .empty => 1
  | .fail => 1
  | .word _ => 1
  | .set _ => 1
  | .rep _ _ e => 1 + size e
  | .seq es => 1 + sizeAll es
  | .alt es => 1 + sizeAll es

def sizeAll : List Plain → Nat
  | [] => 0
  | e :: es => size e + sizeAll es

end

/-- What an expression contributes to a choice around it. -/
def choiceParts : Plain → List Plain
  | .alt es => es
  | e => [e]

/-- The characters of words of one character each. -/
def charsOf : List Plain → Option (List Char)
  | [] => some []
  | .word [c] :: es => (charsOf es).map (c :: ·)
  | _ :: _ => none

def setsOf : List Plain → Option (List CharSet)
  | [] => some []
  | .set a :: es => (setsOf es).map (a :: ·)
  | .fail :: es => (setsOf es).map (.empty :: ·)
  | _ :: _ => none

def sequencesOf : List Plain → Option (List (List Plain))
  | [] => some []
  | .seq ds :: es => (sequencesOf es).map (ds :: ·)
  | _ :: _ => none

/-- The tails of lists that all begin with `d`. -/
def tailsAfter (d : Plain) : List (List Plain) → Option (List (List Plain))
  | [] => some []
  | (e :: es) :: rest => if same d e then (tailsAfter d rest).map (es :: ·) else none
  | [] :: _ => none

/-- The longest common beginning of a list and all of some others, and what follows it in each. -/
def splitCommon : List Plain → List (List Plain) → List Plain × List (List Plain)
  | [], rest => ([], [] :: rest)
  | d :: ds, rest =>
    match tailsAfter d rest with
    | some tails =>
      let (start, rests) := splitCommon ds tails
      (d :: start, rests)
    | none => ([], (d :: ds) :: rest)

/-- If all are sequences with a common beginning: that, and what follows it in each. -/
def factor (es : List Plain) : Option (List Plain × List Plain) :=
  match sequencesOf es with
  | some (ds :: rest) =>
    match splitCommon ds rest with
    | ([], _) => none
    | (start, rests) => some (start, rests.map sequence)
  | _ => none

/-- The size of a choice between sequences. -/
def sizeRests : List (List Plain) → Nat
  | [] => 0
  | es :: rest => 1 + sizeAll es + sizeRests rest

theorem size_pos (e : Plain) : 0 < size e := by
  cases e <;> simp only [size] <;> omega

theorem sizeAll_append (ds es : List Plain) : sizeAll (ds ++ es) = sizeAll ds + sizeAll es := by
  induction ds with
  | nil => simp [sizeAll]
  | cons d ds ih => simp only [List.cons_append, sizeAll, ih]; omega

theorem sizeAll_choiceParts (es : List Plain) : sizeAll (es.flatMap choiceParts) ≤ sizeAll es := by
  induction es with
  | nil => simp [sizeAll]
  | cons e es ih =>
    rw [List.flatMap_cons, sizeAll_append, sizeAll]
    have : sizeAll (choiceParts e) ≤ size e := by
      cases e <;> simp only [choiceParts, sizeAll, size] <;> omega
    omega

theorem sizeAll_joinPart (e : Plain) (es : List Plain) :
    sizeAll (joinPart e es) ≤ size e + sizeAll es := by
  unfold joinPart
  split
  · simp only [sizeAll, size]; omega
  · simp only [sizeAll]; omega

theorem sizeAll_foldr_joinPart (es : List Plain) : sizeAll (es.foldr joinPart []) ≤ sizeAll es := by
  induction es with
  | nil => simp [sizeAll]
  | cons e es ih =>
    have := sizeAll_joinPart e (es.foldr joinPart [])
    simp only [List.foldr_cons, sizeAll]
    omega

theorem sizeAll_sequenceParts (es : List Plain) :
    sizeAll (es.flatMap sequenceParts) ≤ sizeAll es := by
  induction es with
  | nil => simp [sizeAll]
  | cons e es ih =>
    rw [List.flatMap_cons, sizeAll_append, sizeAll]
    have : sizeAll (sequenceParts e) ≤ size e := by
      cases e <;> simp only [sequenceParts, sizeAll, size] <;> omega
    omega

theorem size_sequence (es : List Plain) : size (sequence es) ≤ 1 + sizeAll es := by
  have h1 := sizeAll_foldr_joinPart (es.flatMap sequenceParts)
  have h2 := sizeAll_sequenceParts es
  unfold sequence seqOf
  split
  · simp only [size]; omega
  · rename_i heq
    rw [heq] at h1
    simp only [sizeAll] at h1
    omega
  · simp only [size]; omega

theorem sizeAll_map_sequence (rests : List (List Plain)) :
    sizeAll (rests.map sequence) ≤ sizeRests rests := by
  induction rests with
  | nil => simp [sizeAll]
  | cons es rest ih =>
    have := size_sequence es
    simp only [List.map_cons, sizeAll, sizeRests]
    omega

theorem sizeRests_sequencesOf {es : List Plain} {rests : List (List Plain)}
    (h : sequencesOf es = some rests) : sizeRests rests = sizeAll es := by
  fun_induction sequencesOf es generalizing rests with
  | case1 => cases h; rfl
  | case2 ds es ih =>
    obtain ⟨r, hr, rfl⟩ := Option.map_eq_some_iff.1 h
    simp only [sizeRests, sizeAll, size, ih hr]
  | case3 => cases h

theorem sizeRests_tailsAfter {d : Plain} {rest tails : List (List Plain)}
    (h : tailsAfter d rest = some tails) : sizeRests tails ≤ sizeRests rest := by
  fun_induction tailsAfter d rest generalizing tails with
  | case1 => cases h; exact Nat.le_refl _
  | case2 e es rest _ ih =>
    obtain ⟨r, hr, rfl⟩ := Option.map_eq_some_iff.1 h
    have := ih hr
    simp only [sizeRests, sizeAll]
    omega
  | case3 => cases h
  | case4 => cases h

theorem sizeRests_splitCommon (ds : List Plain) (rest : List (List Plain)) :
    sizeRests (splitCommon ds rest).2 + (splitCommon ds rest).1.length ≤
      sizeRests (ds :: rest) := by
  fun_induction splitCommon ds rest with
  | case1 => simp
  | case2 d ds rest tails h start rests heq ih =>
    have ht := sizeRests_tailsAfter h
    have hd := size_pos d
    simp only [heq] at ih
    simp only [sizeRests, sizeAll, List.length_cons] at ih ⊢
    omega
  | case3 => simp

theorem sizeAll_factor {es start rests : List Plain} (h : factor es = some (start, rests)) :
    sizeAll rests < sizeAll es := by
  unfold factor at h
  split at h
  · rename_i ds rest hs
    have h1 := sizeRests_sequencesOf hs
    have h2 := sizeRests_splitCommon ds rest
    split at h
    · cases h
    · rename_i start' rests' hne hc
      cases h
      have h3 := sizeAll_map_sequence rests'
      simp only [hc] at h2
      cases start with
      | nil => exact (hne rfl).elim
      | cons d start =>
        simp only [List.length_cons] at h2
        omega
  · cases h

/-- One or another. -/
def choice (es : List Plain) : Plain :=
  match hp : es.flatMap choiceParts with
  | [] => .fail
  | [e] => e
  | parts =>
    match charsOf parts, setsOf parts, hf : factor parts with
    | some cs, _, _ => ofSet (cs.foldl (fun a c => a.union (.singleton c)) .empty)
    | none, some as, _ => ofSet (as.foldl CharSet.union .empty)
    | none, none, some (start, rests) =>
      have : sizeAll rests < sizeAll es := by
        have h1 := sizeAll_choiceParts es
        have h2 := sizeAll_factor hf
        rw [hp] at h1
        omega
      sequence (start ++ [choice rests])
    | none, none, none => .alt parts
termination_by sizeAll es

end Plain

end RegLan
