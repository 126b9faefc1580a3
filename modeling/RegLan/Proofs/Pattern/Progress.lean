import RegLan.Proofs.Pattern.Cursor

/-! Reading with a cursor comes to an end. An atom and an operand move the cursor forward, so that
each turn of a loop and each call within a call has less text before it than the one around it,
even a turn that only passes anchors. What is read in the end is what the readers of the remaining
text read. -/

namespace RegLan

namespace Pattern

namespace Cursor

open Word

variable {s : Lexed} {c d : Cursor s}

/-- A call comes to an end with what a reader of the remaining text comes to: the same fault, at the
offset of a place that has the text of the fault before it, or the same value with the rest of the
text left from the cursor on, at a place as described. -/
inductive Returns {α : Type} (P : Cursor s → Prop) :
    Reading (α × Cursor s) → Except Fault (α × Word) → Prop
  | fault {k : Problem} {d : Cursor s} {r : Word} : d.rest = r →
      Returns P (throw ⟨k, d.offset⟩) (.error ⟨k, r⟩)
  | value {x : α} {d : Cursor s} {r : Word} : d.rest = r → P d →
      Returns P (pure (x, d)) (.ok (x, r))

variable {α β : Type} {P Q : Cursor s → Prop} {n : ℕ}

theorem Returns.mono {x : Reading (α × Cursor s)} {y : Except Fault (α × Word)} (h : Returns P x y)
    (hPQ : ∀ d, P d → Q d) : Returns Q x y := by
  cases h with
  | fault hr => exact .fault hr
  | value hr hd => exact .value hr (hPQ _ hd)

theorem Returns.bind {x : Reading (α × Cursor s)} {y : Except Fault (α × Word)}
    {f : α × Cursor s → Reading (β × Cursor s)} {g : α × Word → Except Fault (β × Word)}
    (h : Returns P x y) (hfg : ∀ a d, P d → Returns Q (f (a, d)) (g (a, d.rest))) :
    Returns Q (x >>= f) (y >>= g) := by
  cases h with
  | fault hr => exact .fault hr
  | value hr hd =>
    subst hr
    exact hfg _ _ hd

theorem Returns.exists_eq_pure {x : Reading (α × Cursor s)} {a : α} {r : Word}
    (h : Returns P x (.ok (a, r))) : ∃ d, x = pure (a, d) ∧ d.rest = r ∧ P d := by
  cases h with
  | value hr hd => exact ⟨_, rfl, hr, hd⟩

theorem Returns.bind_ok {x : Reading (α × Cursor s)} {a : α} {r : Word}
    {f : α × Cursor s → Reading (β × Cursor s)} {y : Except Fault (β × Word)}
    (h : Returns P x (.ok (a, r))) (hf : ∀ d, P d → d.rest = r → Returns Q (f (a, d)) y) :
    Returns Q (x >>= f) y := by
  obtain ⟨d, rfl, hr, hd⟩ := h.exists_eq_pure
  exact hf d hd hr

theorem returns_takeAnchors (h : c.rest.length < n) :
    Returns c.Reached (c.takeAnchors n) (.ok ((), skipAnchors c.rest)) := by
  induction n generalizing c with
  | zero => omega
  | succ n ih =>
    have hpass : ∀ t a d, (∀ b, Token.takes t b = (b == a)) → isAnchor a = true →
        c.eat? t = some d → Returns c.Reached (d.takeAnchors n) (.ok ((), skipAnchors c.rest)) := by
      intro t a d ht ha hd
      have hahead := ahead_of_eat? hd
      have hlt := hahead.length_rest
      rw [after?_eq_some.1 (after?_of_eat?_eq_some ht hd), skipAnchors,
        List.dropWhile_cons_of_pos ha]
      exact (ih (by omega)).mono fun e he => .inr (hahead.trans_reached he)
    rw [takeAnchors]
    cases hcaret : c.eat? .caret with
    | some d => exact hpass .caret '^' d (fun _ => rfl) rfl hcaret
    | none =>
      cases hdollar : c.eat? .dollar with
      | some d => exact hpass .dollar '$' d (fun _ => rfl) rfl hdollar
      | none =>
        have hcaret := after?_eq_none.1 (after?_of_eat?_eq_none (fun _ => rfl) hcaret)
        have hdollar := after?_eq_none.1 (after?_of_eat?_eq_none (fun _ => rfl) hdollar)
        exact .value (skipAnchors_of_head?_ne hcaret hdollar).symm (.inl rfl)

/-- The multiplication and the addition of a digit are checked apart, which comes to the same as
checking the sum. -/
theorem checked_bind_checked (m k : ℕ) :
    ((checked (m * 10)).bind fun m => checked (m + k)) = checked (10 * m + k) := by
  rw [Nat.mul_comm]
  unfold checked
  by_cases h : 10 * m < countBound
  · rw [if_pos h, Option.bind_some]
  · rw [if_neg h, if_neg (by omega), Option.bind_none]

theorem returns_takeDigits (b : Cursor s) (m : ℕ) (h : c.rest.length < n) :
    Returns c.Reached (takeDigits b n m c)
      ((readDigits m c.rest).elim (.error ⟨.countTooLarge, b.rest⟩) .ok) := by
  induction n generalizing c m with
  | zero => omega
  | succ n ih =>
    rw [takeDigits]
    cases hc : c.current with
    | none =>
      have hrest := rest_eq_nil hc
      rw [hrest]
      exact .value hrest (.inl rfl)
    | some l =>
      have hrest := rest_eq_cons hc
      have hahead := ahead_next hc
      have hlt := hahead.length_rest
      have htoken : l.token = .digit ↔ l.ch.isDigit = true := Lexeme.token_eq_iff
      rw [hrest, readDigits, Option.filter_some]
      by_cases hl : l.token = .digit
      · rw [if_pos (decide_eq_true hl), if_pos (htoken.1 hl)]
        dsimp only
        rw [checked_bind_checked, checked]
        split_ifs
        · exact (ih _ (by omega)).mono fun d hd => .inr (hahead.trans_reached hd)
        · exact .fault rfl
      · rw [if_neg (by simpa using hl), if_neg (mt htoken.2 hl)]
        exact .value hrest (.inl rfl)

theorem returns_takeNumber (h : c.rest.length < n) :
    Returns c.Reached (c.takeNumber n) (readNumber c.rest) := by
  have hdigits := returns_takeDigits c 0 h
  rw [takeNumber, readNumber, isAt_eq]
  change Returns _ (if c.rest.head?.any Char.isDigit then _ else _) _
  split_ifs
  · cases hread : readDigits 0 c.rest with
    | none =>
      rw [hread] at hdigits
      exact hdigits
    | some x =>
      rw [hread] at hdigits
      exact hdigits
  · exact .fault rfl

theorem returns_takeCounts (h : c.rest.length < n) :
    Returns c.Reached (c.takeCounts n) (readCounts c.rest) := by
  refine (returns_takeNumber h).bind fun min d hd => ?_
  have hle := hd.length_rest
  dsimp only
  cases he : d.eat? .comma with
  | none =>
    rw [after?_of_eat?_eq_none (fun _ => rfl) he]
    exact .value rfl hd
  | some e =>
    have hce := hd.trans_ahead (ahead_of_eat? he)
    have hlt := hce.length_rest
    rw [after?_of_eat?_eq_some (fun _ => rfl) he]
    refine (returns_takeNumber (by omega)).bind fun max f hf => ?_
    exact .value rfl (.inr (hce.trans_reached hf))

theorem returns_takeQuantifier (h : c.rest.length < n) :
    Returns c.Reached (c.takeQuantifier n) (readQuantifier c.rest) := by
  unfold takeQuantifier
  split
  case h_1 hc | h_2 hc | h_3 hc =>
    obtain ⟨hrest, hahead⟩ := rest_eq_of_map_token (fun _ => rfl) hc
    rw [hrest]
    exact .value rfl (.inr hahead)
  case h_4 hc =>
    obtain ⟨hrest, hahead⟩ := rest_eq_of_map_token (fun _ => rfl) hc
    have hlt := hahead.length_rest
    rw [hrest]
    refine (returns_takeCounts (by omega)).bind fun counts d hd => ?_
    dsimp only
    cases he : d.eat? .rbrace with
    | none =>
      rw [after?_of_eat?_eq_none (fun _ => rfl) he]
      exact .fault hrest
    | some e =>
      rw [after?_of_eat?_eq_some (fun _ => rfl) he]
      exact .value rfl (.inr ((hahead.trans_reached hd).trans (ahead_of_eat? he)))
  case h_5 hstar hplus hopt hbrace =>
    have hnone : readQuantifier c.rest = .ok (none, c.rest) := by
      refine readQuantifier_eq_none.2 ⟨rfl, fun a ha hhead => ?_⟩
      simp only [quantifierStarts, List.mem_cons, List.not_mem_nil, or_false] at ha
      rcases ha with rfl | rfl | rfl | rfl
      · exact hstar (map_token_of_head? rfl hhead)
      · exact hplus (map_token_of_head? rfl hhead)
      · exact hopt (map_token_of_head? rfl hhead)
      · exact hbrace (map_token_of_head? rfl hhead)
    rw [hnone]
    exact .value rfl (.inl rfl)

theorem returns_takeClose (b : Cursor s) (ms : List Member) (c : Cursor s) :
    Returns c.Ahead (takeClose b (ms, c))
      ((after? ']' c.rest).elim (.error ⟨.unclosedClass, b.rest⟩) fun r => .ok (ms, r)) := by
  rw [takeClose]
  cases he : c.eat? .rbracket with
  | none =>
    rw [after?_of_eat?_eq_none (fun _ => rfl) he]
    exact .fault rfl
  | some e =>
    rw [after?_of_eat?_eq_some (fun _ => rfl) he]
    exact .value rfl (ahead_of_eat? he)

theorem returns_takeMembers (b : Cursor s) (ms : List Member) (h : c.rest.length < n) :
    Returns c.Ahead (takeMembers b n ms c >>= takeClose b)
      ((readMembers c.rest).elim (.error ⟨.unclosedClass, b.rest⟩)
        fun x => .ok (ms ++ x.1, x.2)) := by
  induction n generalizing c ms with
  | zero => omega
  | succ n ih =>
    have hclose := returns_takeClose b ms c
    rw [takeMembers]
    cases hc : c.current with
    | none =>
      rw [rest_eq_nil hc] at hclose ⊢
      exact hclose
    | some lo =>
      have hahead := ahead_next hc
      have hlt := hahead.length_rest
      dsimp only
      by_cases hend : lo.token = .rparen ∨ lo.token = .rbracket
      · rw [if_pos hend]
        rw [rest_eq_cons hc] at hclose ⊢
        rcases hend with hlo | hlo
        · rw [ch_eq_of_token (fun _ => rfl) hlo] at hclose ⊢
          exact hclose
        · rw [ch_eq_of_token (fun _ => rfl) hlo] at hclose ⊢
          rw [readMembers, Option.elim_some, List.append_nil]
          exact hclose
      · rw [if_neg hend]
        simp only [Lexeme.token_eq_iff, Token.takes, beq_iff_eq, not_or] at hend
        obtain ⟨hparen, hbracket⟩ := hend
        cases hd : c.next.eat? .dash with
        | none =>
          have hdash := after?_eq_none.1 (after?_of_eat?_eq_none (fun _ => rfl) hd)
          have hrest := ih (ms ++ [.char lo.ch]) (show c.next.rest.length < n by omega)
          rw [rest_eq_cons hc, readMembers_char hparen hbracket hdash, Option.elim_map]
          refine Returns.mono ?_ fun e => hahead.trans
          simpa [Function.comp_def] using hrest
        | some d =>
          have hd' := after?_eq_some.1 (after?_of_eat?_eq_some (fun _ => rfl) hd)
          have hcd := hahead.trans (ahead_of_eat? hd)
          rw [rest_eq_cons hc, hd']
          dsimp only
          cases hhi : d.current with
          | none =>
            have hnone : readMembers [lo.ch, '-'] = none := by
              rw [readMembers]
              · exact hparen
              · exact hbracket
            rw [rest_eq_nil hhi, hnone]
            exact .fault rfl
          | some hi =>
            have hce := hcd.trans (ahead_next hhi)
            have hlt := hce.length_rest
            have hrest := ih (ms ++ [.range lo.ch hi.ch]) (show d.next.rest.length < n by omega)
            rw [rest_eq_cons hhi, readMembers_range hi.ch _ hparen hbracket, Option.elim_map]
            refine Returns.mono ?_ fun e => hce.trans
            simpa [Function.comp_def] using hrest

/-- A bracket from its members on; `b` is where it begins. -/
theorem returns_bracket (b : Cursor s) (negated : Bool) (h : d.rest.length < n) :
    Returns d.Ahead (do
        let (ms, e) ← takeMembers b n [] d >>= takeClose b
        if ms.isEmpty then throw ⟨.emptyClass, b.offset⟩
        else return (Pattern.bracket ⟨negated, ms⟩, e))
      (match readMembers d.rest with
        | none => .error ⟨.unclosedClass, b.rest⟩
        | some ([], _) => .error ⟨.emptyClass, b.rest⟩
        | some (ms, r) => .ok (.bracket ⟨negated, ms⟩, r)) := by
  have hmembers := returns_takeMembers b [] h
  generalize takeMembers b n [] d >>= takeClose b = x at hmembers
  generalize readMembers d.rest = y at hmembers
  rcases y with _ | ⟨_ | ⟨m, ms⟩, r⟩
  · cases hmembers with
    | fault hr => exact .fault hr
  · cases hmembers
    exact .fault rfl
  · cases hmembers with
    | value hr he => exact .value hr he

theorem returns_takeBracket (h : c.rest.length < n) :
    Returns c.Ahead (c.takeBracket n) (readBracket c.rest c.rest.tail) := by
  have hnext := reached_next c
  have hle := hnext.length_rest
  rw [← rest_next, takeBracket]
  cases hd : c.next.eat? .caret with
  | some d =>
    have hcd := hnext.trans_ahead (ahead_of_eat? hd)
    have hlt := hcd.length_rest
    have hbracket := returns_bracket (n := n) (d := d) c true (by omega)
    rw [after?_eq_some.1 (after?_of_eat?_eq_some (fun _ => rfl) hd)]
    exact hbracket.mono fun e => hcd.trans
  | none =>
    have hbracket := returns_bracket (n := n) (d := c.next) c false (by omega)
    rw [readBracket_of_head?_ne _ (after?_eq_none.1 (after?_of_eat?_eq_none (fun _ => rfl) hd))]
    exact hbracket.mono fun e => hnext.trans_ahead

theorem returns_takeEscape (hc : c.current = some l) (hl : l.ch = '\\') :
    Returns c.Ahead c.takeEscape (readSimple c.rest) := by
  have hrest := rest_eq_cons hc
  rw [hl] at hrest
  rw [takeEscape]
  cases ha : c.next.current with
  | none =>
    rw [rest_eq_nil ha] at hrest
    rw [hrest]
    exact .fault hrest
  | some k =>
    rw [hrest, rest_eq_cons ha]
    exact .value rfl ((ahead_next hc).trans (ahead_next ha))

theorem returns_takeSimple (h : c.rest.length < n) :
    Returns c.Ahead (c.takeSimple n) (readSimple c.rest) := by
  unfold takeSimple
  cases hc : c.current with
  | none =>
    rw [rest_eq_nil hc]
    exact .fault (rest_eq_nil hc)
  | some l =>
    have hrest := rest_eq_cons hc
    have hahead := ahead_next hc
    dsimp only
    split
    case h_1 hl =>
      have hbracket := returns_takeBracket h
      rw [hrest, ch_eq_of_token (fun _ => rfl) hl] at hbracket ⊢
      exact hbracket
    case h_2 hl => exact returns_takeEscape hc (ch_eq_of_token (fun _ => rfl) hl)
    case h_3 hl =>
      rw [hrest, ch_eq_of_token (fun _ => rfl) hl]
      exact .value rfl hahead
    case h_4 hl | h_5 hl | h_6 hl | h_7 hl | h_8 hl =>
      rw [ch_eq_of_token (fun _ => rfl) hl] at hrest
      rw [hrest]
      exact .fault hrest
    case h_9 hbracket hescape hdot hparen hpipe hstar hplus hopt =>
      have hl : l.ch ∉ ['[', '\\', '.', ')', '|', '*', '+', '?'] := by
        simp only [Lexeme.token_eq_iff, Token.takes, beq_iff_eq] at *
        simp only [List.mem_cons, List.not_mem_nil, or_false, not_or]
        exact ⟨hbracket, hescape, hdot, hparen, hpipe, hstar, hplus, hopt⟩
      rw [hrest, readSimple_of_not_mem hl]
      exact .value rfl hahead

/-- Calls nested `n` deep are enough wherever little enough text is left. -/
structure Enough (s : Lexed) (n : ℕ) : Prop where
  atoms : ∀ ps (c : Cursor s), 3 * c.rest.length + 4 ≤ n →
    Returns c.Stopped (takeAtoms n ps c) (do
      let (qs, r) ← atoms c.rest
      return (ps ++ qs, r))
  operand : ∀ c : Cursor s, 3 * c.rest.length + 3 ≤ n →
    Returns c.Ahead (takeOperand n c) (operand c.rest)
  atom : ∀ c : Cursor s, 3 * c.rest.length + 2 ≤ n →
    Returns c.Ahead (takeAtom n c) (atom c.rest)

theorem Enough.atoms_nil (h : Enough s n) (hc : 3 * c.rest.length + 4 ≤ n) :
    Returns c.Stopped (takeAtoms n [] c) (Pattern.atoms c.rest) := by
  have hatoms := h.atoms [] c hc
  cases hread : Pattern.atoms c.rest with
  | error f => rwa [hread] at hatoms
  | ok x => rwa [hread] at hatoms

theorem Enough.atom_succ (h : Enough s n) (hc : 3 * c.rest.length + 2 ≤ n + 1) :
    Returns c.Ahead (takeAtom (n + 1) c) (Pattern.atom c.rest) := by
  rw [takeAtom, atom_eq]
  refine (returns_takeAnchors (c := c) (by omega)).bind_ok fun d hd hskip => ?_
  have hle := hd.length_rest
  rw [← hskip]
  dsimp only
  cases he : d.eat? .lparen with
  | none =>
    rw [after?_of_eat?_eq_none (fun _ => rfl) he]
    exact (returns_takeSimple (by omega)).mono fun e => hd.trans_ahead
  | some e =>
    have hce := hd.trans_ahead (ahead_of_eat? he)
    have hlt := hce.length_rest
    rw [after?_of_eat?_eq_some (fun _ => rfl) he]
    refine (h.atoms_nil (c := e) (by omega)).bind fun ps f hf => ?_
    dsimp only
    cases hg : f.eat? .rparen with
    | none =>
      rw [after?_of_eat?_eq_none (fun _ => rfl) hg]
      exact .fault rfl
    | some g =>
      rw [after?_of_eat?_eq_some (fun _ => rfl) hg]
      exact .value rfl ((hce.trans_reached hf.reached).trans (ahead_of_eat? hg))

theorem Enough.operand_succ (h : Enough s n) (hc : 3 * c.rest.length + 3 ≤ n + 1) :
    Returns c.Ahead (takeOperand (n + 1) c) (Pattern.operand c.rest) := by
  rw [takeOperand, operand_eq]
  refine (h.atom c (by omega)).bind fun p d hd => ?_
  have hlt := hd.length_rest
  refine (returns_takeQuantifier (by omega)).bind fun k e he => ?_
  have hce := hd.trans_reached he
  dsimp only
  cases hf : e.eat? .pipe with
  | none =>
    rw [after?_of_eat?_eq_none (fun _ => rfl) hf]
    exact .value rfl hce
  | some f =>
    have hcf := hce.trans (ahead_of_eat? hf)
    have hlt := hcf.length_rest
    rw [after?_of_eat?_eq_some (fun _ => rfl) hf]
    refine (h.operand f (by omega)).bind fun q g hg => ?_
    exact .value rfl (hcf.trans hg)

theorem Enough.atoms_succ (h : Enough s n) (ps : List Pattern) (hc : 3 * c.rest.length + 4 ≤ n + 1) :
    Returns c.Stopped (takeAtoms (n + 1) ps c) (do
      let (qs, r) ← Pattern.atoms c.rest
      return (ps ++ qs, r)) := by
  rw [takeAtoms]
  by_cases hmore : c.more = true
  · rw [if_pos hmore]
    refine (returns_takeAnchors (c := c) (by omega)).bind_ok fun d hd hskip => ?_
    have hle := hd.length_rest
    dsimp only
    by_cases hmore' : d.more = true
    · have hstop : stops d.rest = false := by simpa [more_eq_not_stops] using hmore'
      rw [if_pos hmore', atoms_eq, ← hskip, hstop]
      simp only [Bool.false_eq_true, if_false, bind_assoc, pure_bind]
      refine (h.operand d (by omega)).bind fun p e he => ?_
      have hce := hd.trans_ahead he
      have hlt := hce.length_rest
      have hrest := h.atoms (ps ++ [p]) e (by omega)
      simp only [List.append_assoc, List.singleton_append] at hrest
      exact hrest.mono fun f => hce.trans_stopped
    · rw [Bool.not_eq_true] at hmore'
      have hstop : stops d.rest = true := by simpa [more_eq_not_stops] using hmore'
      -- the anchors were passed, so this turn has moved the cursor too
      have hcd : c.Ahead d := by
        rcases hd with rfl | hd
        · rw [hmore] at hmore'
          cases hmore'
        · exact hd
      have hlt := hcd.length_rest
      have hrest := h.atoms ps d (by omega)
      rw [atoms_of_stops hstop] at hrest
      rw [hmore', atoms_eq, ← hskip, if_pos hstop]
      exact hrest.mono fun e => hcd.trans_stopped
  · rw [Bool.not_eq_true] at hmore
    have hstop : stops c.rest = true := by simpa [more_eq_not_stops] using hmore
    rw [hmore, atoms_of_stops hstop]
    change Returns _ (pure (ps, c)) (.ok (ps ++ [], c.rest))
    rw [List.append_nil]
    exact .value rfl ⟨.inl rfl, more_eq_false_iff.1 hmore⟩

theorem enough (s : Lexed) (n : ℕ) : Enough s n := by
  induction n with
  | zero => exact ⟨fun _ _ h => by omega, fun _ h => by omega, fun _ h => by omega⟩
  | succ n ih =>
    exact ⟨fun ps _ => ih.atoms_succ ps, fun _ => ih.operand_succ, fun _ => ih.atom_succ⟩

theorem offset_eq {p : Word} {ls : List Lexeme} (h : lex p = .ok ls)
    (c : Cursor ⟨ls.toArray, utf8Size p⟩) : c.offset = utf8Size p - utf8Size c.rest := by
  obtain ⟨ks, hks, rfl, hoffset⟩ := exists_lex p
  obtain rfl : ks = ls := Except.ok.inj (hks.symm.trans h)
  rw [offset]
  cases hc : c.current with
  | none =>
    rw [rest_eq_nil hc]
    rfl
  | some l =>
    have hl := hoffset c.pos l (by simpa [current] using hc)
    rw [← List.map_drop] at hl
    change l.offset = _ - utf8Size ((ks.drop c.pos).map Lexeme.ch)
    omega

/-- Reading a whole pattern with a cursor comes to what the parser comes to, error offsets
included. -/
theorem takePattern_eq_parse (p : Word) (h : 3 * p.length + 4 ≤ n) :
    takePattern n p = ExceptT.mk (some (parse p)) := by
  obtain ⟨ls, hlex, hch, -⟩ := exists_lex p
  have hrest : rest (⟨0⟩ : Cursor ⟨ls.toArray, utf8Size p⟩) = p := hch
  have hatoms := (enough _ n).atoms_nil (c := (⟨0⟩ : Cursor ⟨ls.toArray, utf8Size p⟩))
    (by rwa [hrest])
  rw [hrest] at hatoms
  rw [takePattern, hlex, parse_eq, readText]
  dsimp only
  generalize takeAtoms n [] (⟨0⟩ : Cursor ⟨ls.toArray, utf8Size p⟩) = x at hatoms ⊢
  generalize atoms p = y at hatoms ⊢
  cases hatoms with
  | @fault k d r hr =>
    rw [offset_eq hlex, hr]
    rfl
  | @value ps d r hr hd =>
    rw [pure_bind]
    dsimp only
    cases hc : d.current with
    | none =>
      rw [rest_eq_nil hc] at hr
      subst hr
      rfl
    | some l =>
      rw [rest_eq_cons hc] at hr
      subst hr
      dsimp only
      rw [offset_eq hlex, rest_eq_cons hc]
      rfl

/-- From any place among any lexemes, every loop and every call comes to an end, with what the
readers of the remaining text come to. An atom and an operand leave the cursor further on and not
past the end; a list of operands leaves it no earlier, at the end or at a `)`. -/
theorem returns_and_advances {s : Lexed} (c : Cursor s) (n : ℕ) (h : 3 * c.rest.length + 4 ≤ n) :
    Returns c.Ahead (takeAtom n c) (atom c.rest) ∧
    Returns c.Ahead (takeOperand n c) (operand c.rest) ∧
    Returns c.Stopped (takeAtoms n [] c) (atoms c.rest) ∧
    Returns c.Reached (takeAnchors n c) (.ok ((), skipAnchors c.rest)) ∧
    Returns c.Ahead (takeBracket n c) (readBracket c.rest c.rest.tail) ∧
    Returns c.Reached (takeNumber n c) (readNumber c.rest) := by
  have henough := enough s n
  exact ⟨henough.atom c (by omega), henough.operand c (by omega), henough.atoms_nil h,
    returns_takeAnchors (by omega), returns_takeBracket (by omega), returns_takeNumber (by omega)⟩

/-- The lexemes of `a|^b$)`. -/
def trailingAnchor : Lexed :=
  ⟨#[⟨.char, 'a', 0, rfl⟩, ⟨.pipe, '|', 1, rfl⟩, ⟨.caret, '^', 2, rfl⟩, ⟨.char, 'b', 3, rfl⟩,
    ⟨.dollar, '$', 4, rfl⟩, ⟨.rparen, ')', 5, rfl⟩], 6⟩

/-- The last turn of the loop passes an anchor and finds no operand after it. -/
theorem returns_and_advances_trailing_anchor :
    3 * (rest (⟨0⟩ : Cursor trailingAnchor)).length + 4 ≤ 22 ∧
      ∃ d : Cursor trailingAnchor,
        takeAtoms 22 [] ⟨0⟩ = pure ([.alt (.char 'a') (.char 'b')], d) ∧
        d.rest = [')'] ∧ Stopped ⟨0⟩ d := by
  have h : 3 * (rest (⟨0⟩ : Cursor trailingAnchor)).length + 4 ≤ 22 := by decide
  obtain ⟨-, -, hatoms, -⟩ := returns_and_advances (⟨0⟩ : Cursor trailingAnchor) 22 h
  have hread : atoms (rest (⟨0⟩ : Cursor trailingAnchor)) =
      .ok ([.alt (.char 'a') (.char 'b')], [')']) := by cbv
  rw [hread] at hatoms
  exact ⟨h, hatoms.exists_eq_pure⟩

end Cursor

end Pattern

end RegLan
