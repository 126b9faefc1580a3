import RegLan.Proofs.Pattern.Composition

/-! Counts are exact. The value of the digits read so far never falls as further digits are read,
so the bound is passed on the way exactly if the whole run of digits passes it, however long the
run and however many zeros it begins with. -/

namespace RegLan

namespace Pattern

open Word

variable {ds es r : Word}

/-- A run of digits, of any length and value. -/
structure DigitsText (ds : Word) : Prop where
  ne_nil : ds ≠ []
  digits : ∀ d ∈ ds, d.isDigit = true

/-- The number that the digits write in the decimal system. -/
def decimal (ds : Word) : ℕ := Nat.ofDigitChars 10 ds 0

theorem DigitsText.numberText (h : DigitsText ds) (hb : decimal ds < 2 ^ 32) :
    NumberText ds (decimal ds) := ⟨h.ne_nil, h.digits, rfl, hb⟩

theorem readDigits_eq_none {n : ℕ} (hds : ∀ d ∈ ds, d.isDigit = true) (hn : n < countBound)
    (hb : countBound ≤ Nat.ofDigitChars 10 ds n) : readDigits n (ds ++ r) = none := by
  induction ds generalizing n with
  | nil =>
    rw [Nat.ofDigitChars_nil] at hb
    omega
  | cons d ds ih =>
    rw [List.forall_mem_cons] at hds
    rw [Nat.ofDigitChars_cons] at hb
    rw [List.cons_append, readDigits, if_pos hds.1]
    split
    · rename_i hlt
      exact ih hds.2 hlt hb
    · rfl

theorem readNumber_eq_error (h : DigitsText ds) (hb : 2 ^ 32 ≤ decimal ds) (r : Word) :
    readNumber (ds ++ r) = .error ⟨.countTooLarge, ds ++ r⟩ := by
  have hread : readDigits 0 (ds ++ r) = none := readDigits_eq_none h.digits (by decide) hb
  obtain ⟨d, ds, rfl⟩ := List.exists_cons_of_ne_nil h.ne_nil
  have hd : d.isDigit = true := h.digits d List.mem_cons_self
  rw [readNumber, if_pos (by simpa using hd), hread]

/-- The first count is too large, whatever comes after it. -/
theorem readQuantifier_first_too_large (h : DigitsText ds) (hb : 2 ^ 32 ≤ decimal ds) (r : Word) :
    readQuantifier ('\x7b' :: (ds ++ r)) = .error ⟨.countTooLarge, ds ++ r⟩ :=
  bind_eq_error.2 (.inl (readCounts_eq_error.2 (.inl (readNumber_eq_error h hb r))))

/-- The first count is not too large, and the second is. -/
theorem readQuantifier_second_too_large (hds : DigitsText ds) (hd : decimal ds < 2 ^ 32)
    (hes : DigitsText es) (he : 2 ^ 32 ≤ decimal es) (r : Word) :
    readQuantifier ('\x7b' :: (ds ++ ',' :: (es ++ r))) = .error ⟨.countTooLarge, es ++ r⟩ := by
  have hfirst : readNumber (ds ++ ',' :: (es ++ r)) = .ok (decimal ds, ',' :: (es ++ r)) :=
    readNumber_eq_ok.2 ⟨ds, hds.numberText hd, rfl, by simp [NoDigit]⟩
  have hsecond := readNumber_eq_error hes he r
  exact bind_eq_error.2 (.inl (readCounts_eq_error.2 (.inr ⟨_, _, hfirst, hsecond⟩)))

theorem utf8Size_of_isDigit {d : Char} (h : d.isDigit = true) : d.utf8Size = 1 := by
  rw [Char.isDigit, Bool.and_eq_true, decide_eq_true_iff, decide_eq_true_iff] at h
  exact Char.utf8Size_eq_one_iff.2 (UInt32.le_trans h.2 (by decide))

theorem utf8Size_digits (h : ∀ d ∈ ds, d.isDigit = true) : utf8Size ds = ds.length := by
  induction ds with
  | nil => rfl
  | cons d ds ih =>
    rw [List.forall_mem_cons] at h
    rw [utf8Size, utf8Size_of_isDigit h.1, ih h.2, List.length_cons, Nat.add_comm]

theorem atomText_a : AtomText ['a'] (.char 'a') := .simple (.char (by decide))

/-- A fault in the quantifier of an atom is one of the pattern, at the end of what was read. -/
theorem parse_error_of_readQuantifier {v : Word} {k : Problem}
    (h : readQuantifier (v ++ r) = .error ⟨k, r⟩) :
    parse (['a'] ++ v ++ r) = .error ⟨k, 1 + utf8Size v⟩ := by
  have hatom : atom (['a'] ++ (v ++ r)) = .ok (.char 'a', v ++ r) := atom_complete _ atomText_a
  have hstop : stops (skipAnchors (['a'] ++ (v ++ r))) = false := by
    rw [List.singleton_append, skipAnchors_cons rfl]
    rfl
  have hfault := AtomsFault.operand hstop (.quantifier hatom h)
  rw [← List.append_assoc] at hfault
  refine parse_eq_error.2 (.inl ⟨_, hfault, ?_⟩)
  rw [Fault.locate, utf8Size_append, utf8Size_append, Nat.add_sub_cancel]
  rfl

theorem parse_one_count (h : DigitsText ds) : parse (['a', '\x7b'] ++ ds ++ ['\x7d']) =
    if decimal ds < 2 ^ 32 then
      .ok (.concat [.rep (.between (decimal ds) (decimal ds)) (.char 'a')])
    else .error ⟨.countTooLarge, 2⟩ := by
  split
  · rename_i hd
    have hquantifier := QuantifierText.exactly (h.numberText hd)
    have hparse := parse_of_quantifiedText (.rep atomText_a hquantifier)
    simpa using hparse
  · rename_i hd
    have hfault := readQuantifier_first_too_large h (Nat.le_of_not_lt hd) ['\x7d']
    rw [List.append_assoc]
    exact parse_error_of_readQuantifier (v := ['\x7b']) hfault

theorem parse_two_counts (hds : DigitsText ds) (hes : DigitsText es) :
    parse (['a', '\x7b'] ++ ds ++ [','] ++ es ++ ['\x7d']) =
      if 2 ^ 32 ≤ decimal ds then .error ⟨.countTooLarge, 2⟩
      else if 2 ^ 32 ≤ decimal es then .error ⟨.countTooLarge, 3 + ds.length⟩
      else .ok (.concat [.rep (.between (decimal ds) (decimal es)) (.char 'a')]) := by
  split_ifs with hd he
  · have hfault := readQuantifier_first_too_large hds hd ([','] ++ es ++ ['\x7d'])
    rw [List.append_assoc, List.append_assoc, List.append_assoc, ← List.append_assoc [',']]
    exact parse_error_of_readQuantifier (v := ['\x7b']) hfault
  · have hfault := readQuantifier_second_too_large hds (Nat.lt_of_not_le hd) hes he ['\x7d']
    have hparse := parse_error_of_readQuantifier (v := '\x7b' :: (ds ++ [',']))
      (by simpa using hfault)
    have hsize : 1 + utf8Size ('\x7b' :: (ds ++ [','])) = 3 + ds.length := by
      rw [utf8Size, utf8Size_append, utf8Size_digits hds.digits]
      change 1 + (1 + (ds.length + 1)) = _
      omega
    rw [hsize] at hparse
    simpa using hparse
  · have hquantifier := QuantifierText.between (hds.numberText (Nat.lt_of_not_le hd))
      (hes.numberText (Nat.lt_of_not_le he))
    have hparse := parse_of_quantifiedText (.rep atomText_a hquantifier)
    simpa using hparse

/-- One count is read as the number that its digits write, and so are two, in either order of
size. A count is too large exactly if that number does not fit into 32 bits, and the first such
count is blamed, where it begins. -/
theorem parse_counts_exact (hds : DigitsText ds) (hes : DigitsText es) :
    (parse (['a', '\x7b'] ++ ds ++ ['\x7d']) =
      if decimal ds < 2 ^ 32 then
        .ok (.concat [.rep (.between (decimal ds) (decimal ds)) (.char 'a')])
      else .error ⟨.countTooLarge, 2⟩) ∧
    parse (['a', '\x7b'] ++ ds ++ [','] ++ es ++ ['\x7d']) =
      if 2 ^ 32 ≤ decimal ds then .error ⟨.countTooLarge, 2⟩
      else if 2 ^ 32 ≤ decimal es then .error ⟨.countTooLarge, 3 + ds.length⟩
      else .ok (.concat [.rep (.between (decimal ds) (decimal es)) (.char 'a')]) :=
  ⟨parse_one_count hds, parse_two_counts hds hes⟩

/-- The largest count after leading zeros, and one more than it as the second of two. -/
theorem parse_counts_exact_at_bound :
    parse "a\x7b0004294967295\x7d".toList =
        .ok (.concat [.rep (.between 4294967295 4294967295) (.char 'a')]) ∧
      parse "a\x7b0004294967295,4294967296\x7d".toList = .error ⟨.countTooLarge, 16⟩ := by
  have hds : DigitsText "0004294967295".toList := ⟨nofun, List.all_eq_true.1 rfl⟩
  have hes : DigitsText "4294967296".toList := ⟨nofun, List.all_eq_true.1 rfl⟩
  obtain ⟨hone, htwo⟩ := parse_counts_exact hds hes
  have hd : decimal "0004294967295".toList = 4294967295 := by decide
  have he : decimal "4294967296".toList = 4294967296 := by decide
  rw [hd, if_pos (by decide)] at hone
  rw [hd, he, if_neg (by decide), if_pos (by decide)] at htwo
  exact ⟨hone, htwo⟩

end Pattern

end RegLan
