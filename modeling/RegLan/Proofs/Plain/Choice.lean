import RegLan.Plain.Choice
import RegLan.Proofs.Plain.Language

/-! A choice matches what one of its alternatives matches, also when the alternatives become one
set of characters or when what they begin with is written once in front of them. -/

namespace RegLan

namespace Plain

open Computability Language

variable {d e : Plain} {es : List Plain} {w : Word}

theorem eq_of_sameAll {ds : List Plain} (ih : ∀ d ∈ ds, ∀ {e}, same d e = true → d = e)
    (h : sameAll ds es = true) : ds = es := by
  induction ds generalizing es with
  | nil =>
    cases es with
    | nil => rfl
    | cons e es => simp [sameAll] at h
  | cons d ds ihs =>
    cases es with
    | nil => simp [sameAll] at h
    | cons e es =>
      rw [sameAll, Bool.and_eq_true] at h
      obtain ⟨ihd, ihds⟩ := List.forall_mem_cons.1 ih
      rw [ihd h.1, ihs ihds h.2]

theorem eq_of_same (h : same d e = true) : d = e := by
  induction d generalizing e with
  | empty =>
    cases e with
    | empty => rfl
    | _ => simp [same] at h
  | fail =>
    cases e with
    | fail => rfl
    | _ => simp [same] at h
  | word v =>
    cases e with
    | word w =>
      rw [same, beq_iff_eq] at h
      rw [h]
    | _ => simp [same] at h
  | set a =>
    cases e with
    | set b =>
      rw [same, beq_iff_eq] at h
      rw [h]
    | _ => simp [same] at h
  | rep k m d ih =>
    cases e with
    | rep l n e =>
      simp only [same, Bool.and_eq_true, beq_iff_eq] at h
      obtain ⟨⟨hk, hm⟩, hd⟩ := h
      rw [hk, hm, ih hd]
    | _ => simp [same] at h
  | seq ds ih =>
    cases e with
    | seq es =>
      rw [same] at h
      rw [eq_of_sameAll ih h]
    | _ => simp [same] at h
  | alt ds ih =>
    cases e with
    | alt es =>
      rw [same] at h
      rw [eq_of_sameAll ih h]
    | _ => simp [same] at h

theorem eq_map_of_sequencesOf {rests : List (List Plain)} (h : sequencesOf es = some rests) :
    es = rests.map seq := by
  fun_induction sequencesOf es generalizing rests with
  | case1 =>
    cases h
    rfl
  | case2 ds es ih =>
    obtain ⟨rest, hrest, rfl⟩ := Option.map_eq_some_iff.1 h
    rw [List.map_cons, ← ih hrest]
  | case3 => cases h

theorem eq_map_of_tailsAfter {rest tails : List (List Plain)}
    (h : tailsAfter d rest = some tails) : rest = tails.map (d :: ·) := by
  fun_induction tailsAfter d rest generalizing tails with
  | case1 =>
    cases h
    rfl
  | case2 e es rest hsame ih =>
    obtain ⟨tails, htails, rfl⟩ := Option.map_eq_some_iff.1 h
    rw [List.map_cons, ← ih htails, eq_of_same hsame]
  | case3 => cases h
  | case4 => cases h

theorem eq_map_splitCommon (ds : List Plain) (rest : List (List Plain)) :
    ds :: rest = (splitCommon ds rest).2.map ((splitCommon ds rest).1 ++ ·) := by
  fun_induction splitCommon ds rest with
  | case1 rest => simp
  | case2 d ds rest tails h start rests heq ih =>
    rw [heq] at ih
    have hrest := eq_map_of_tailsAfter h
    calc (d :: ds) :: rest = (ds :: tails).map (d :: ·) := by rw [hrest, List.map_cons]
      _ = (rests.map (start ++ ·)).map (d :: ·) := by rw [ih]
      _ = rests.map (d :: start ++ ·) := by rw [List.map_map]; rfl
  | case3 => simp

/-- What is factored out stands in front of every alternative. -/
theorem exists_of_factor {start rests : List Plain} (h : factor es = some (start, rests)) :
    ∃ tails : List (List Plain),
      es = tails.map (fun t => seq (start ++ t)) ∧ rests = tails.map sequence := by
  unfold factor at h
  split at h
  · rename_i ds rest hs
    have hsplit := eq_map_splitCommon ds rest
    split at h
    · cases h
    · rename_i start' tails hne heq
      cases h
      rw [heq] at hsplit
      refine ⟨tails, ?_, rfl⟩
      rw [eq_map_of_sequencesOf hs, hsplit, List.map_map]
      rfl
  · cases h

theorem exists_mem_factored_iff {start : List Plain} {tails : List (List Plain)} :
    (∃ e ∈ tails.map (fun t => seq (start ++ t)), w ∈ e.lang) ↔
      ∃ u ∈ (start.map lang).prod, ∃ v, (∃ e ∈ tails.map sequence, v ∈ e.lang) ∧ u ++ v = w := by
  refine ⟨fun h => ?_, fun h => ?_⟩
  · obtain ⟨e, he, hw⟩ := h
    obtain ⟨t, ht, rfl⟩ := List.mem_map.1 he
    rw [lang_seq, List.map_append, List.prod_append] at hw
    obtain ⟨u, hu, v, hv, rfl⟩ := mem_mul.1 hw
    rw [← lang_sequence] at hv
    exact ⟨u, hu, v, ⟨sequence t, List.mem_map_of_mem ht, hv⟩, rfl⟩
  · obtain ⟨u, hu, v, ⟨e, he, hv⟩, rfl⟩ := h
    obtain ⟨t, ht, rfl⟩ := List.mem_map.1 he
    refine ⟨seq (start ++ t), List.mem_map_of_mem ht, ?_⟩
    rw [lang_sequence] at hv
    rw [lang_seq, List.map_append, List.prod_append]
    exact append_mem_mul hu hv

theorem sound_ofSet_union {as : List CharSet} (has : ∀ a ∈ as, a.Sound) :
    (ofSet (as.foldl CharSet.union .empty)).Sound :=
  sound_ofSet (CharSet.sound_foldl_union CharSet.sound_empty has)

theorem mem_lang_ofSet_union {as : List CharSet} (has : ∀ a ∈ as, a.Sound) :
    w ∈ (ofSet (as.foldl CharSet.union .empty)).lang ↔ ∃ a ∈ as, w ∈ ofChars a.chars := by
  rw [lang_ofSet (CharSet.sound_foldl_union CharSet.sound_empty has), mem_ofChars]
  simp only [CharSet.mem_chars_foldl_union CharSet.sound_empty has, CharSet.chars_empty,
    Set.mem_empty_iff_false, false_or]
  refine ⟨fun h => ?_, fun h => ?_⟩
  · obtain ⟨c, ⟨a, ha, hc⟩, rfl⟩ := h
    exact ⟨a, ha, c, hc, rfl⟩
  · obtain ⟨a, ha, c, hc, rfl⟩ := h
    exact ⟨c, ⟨a, ha, hc⟩, rfl⟩

theorem eq_map_of_charsOf {cs : List Char} (h : charsOf es = some cs) :
    es = cs.map fun c => word [c] := by
  fun_induction charsOf es generalizing cs with
  | case1 =>
    cases h
    rfl
  | case2 c es ih =>
    obtain ⟨cs, hcs, rfl⟩ := Option.map_eq_some_iff.1 h
    rw [List.map_cons, ← ih hcs]
  | case3 => cases h

theorem foldl_union_singleton (cs : List Char) (a : CharSet) :
    cs.foldl (fun a c => a.union (.singleton c)) a =
      (cs.map CharSet.singleton).foldl CharSet.union a := by
  rw [List.foldl_map]

theorem sound_of_mem_map_singleton (cs : List Char) : ∀ a ∈ cs.map CharSet.singleton, a.Sound := by
  intro a ha
  obtain ⟨c, -, rfl⟩ := List.mem_map.1 ha
  exact CharSet.sound_singleton c

theorem exists_mem_charsOf_iff {cs : List Char} (h : charsOf es = some cs) :
    (∃ a ∈ cs.map CharSet.singleton, w ∈ ofChars a.chars) ↔ ∃ e ∈ es, w ∈ e.lang := by
  rw [eq_map_of_charsOf h]
  refine ⟨fun h => ?_, fun h => ?_⟩
  · obtain ⟨a, ha, hw⟩ := h
    obtain ⟨c, hc, rfl⟩ := List.mem_map.1 ha
    refine ⟨word [c], List.mem_map_of_mem hc, ?_⟩
    rwa [lang, ← ofChars_singleton, ← CharSet.chars_singleton]
  · obtain ⟨e, he, hw⟩ := h
    obtain ⟨c, hc, rfl⟩ := List.mem_map.1 he
    refine ⟨.singleton c, List.mem_map_of_mem hc, ?_⟩
    rwa [CharSet.chars_singleton, ofChars_singleton, ← lang]

theorem sound_of_setsOf {as : List CharSet} (h : setsOf es = some as) (hes : ∀ e ∈ es, e.Sound) :
    ∀ a ∈ as, a.Sound := by
  fun_induction setsOf es generalizing as with
  | case1 =>
    cases h
    exact fun _ ha => nomatch ha
  | case2 a es ih =>
    obtain ⟨as, has, rfl⟩ := Option.map_eq_some_iff.1 h
    obtain ⟨ha, hes⟩ := List.forall_mem_cons.1 hes
    cases ha with
    | set ha => exact List.forall_mem_cons.2 ⟨ha, ih has hes⟩
  | case3 es ih =>
    obtain ⟨as, has, rfl⟩ := Option.map_eq_some_iff.1 h
    exact List.forall_mem_cons.2 ⟨CharSet.sound_empty, ih has (List.forall_mem_cons.1 hes).2⟩
  | case4 => cases h

theorem exists_mem_setsOf_iff {as : List CharSet} (h : setsOf es = some as) :
    (∃ a ∈ as, w ∈ ofChars a.chars) ↔ ∃ e ∈ es, w ∈ e.lang := by
  fun_induction setsOf es generalizing as with
  | case1 =>
    cases h
    simp
  | case2 a es ih =>
    obtain ⟨as, has, rfl⟩ := Option.map_eq_some_iff.1 h
    rw [List.exists_mem_cons_iff, List.exists_mem_cons_iff, ih has, lang]
  | case3 es ih =>
    obtain ⟨as, has, rfl⟩ := Option.map_eq_some_iff.1 h
    rw [List.exists_mem_cons_iff, List.exists_mem_cons_iff, ih has, CharSet.chars_empty,
      ofChars_empty, lang]
  | case4 => cases h

theorem sound_of_mem_choiceParts (he : e.Sound) : ∀ d ∈ choiceParts e, d.Sound := by
  intro d hd
  cases he with
  | alt hes => exact hes d hd
  | empty => rw [List.mem_singleton.1 hd]; exact .empty
  | fail => rw [List.mem_singleton.1 hd]; exact .fail
  | word w => rw [List.mem_singleton.1 hd]; exact .word w
  | set ha => rw [List.mem_singleton.1 hd]; exact .set ha
  | rep k m he => rw [List.mem_singleton.1 hd]; exact .rep k m he
  | seq hes => rw [List.mem_singleton.1 hd]; exact .seq hes

theorem exists_mem_choiceParts_iff : (∃ d ∈ choiceParts e, w ∈ d.lang) ↔ w ∈ e.lang := by
  unfold choiceParts
  split
  · exact mem_lang_alt.symm
  · simp

theorem exists_mem_flatMap_choiceParts_iff :
    (∃ d ∈ es.flatMap choiceParts, w ∈ d.lang) ↔ ∃ e ∈ es, w ∈ e.lang := by
  refine ⟨fun h => ?_, fun h => ?_⟩
  · obtain ⟨d, hd, hw⟩ := h
    obtain ⟨e, he, hd⟩ := List.mem_flatMap.1 hd
    exact ⟨e, he, exists_mem_choiceParts_iff.1 ⟨d, hd, hw⟩⟩
  · obtain ⟨e, he, hw⟩ := h
    obtain ⟨d, hd, hw⟩ := exists_mem_choiceParts_iff.2 hw
    exact ⟨d, List.mem_flatMap.2 ⟨e, he, hd⟩, hw⟩

theorem sound_of_mem_flatMap_choiceParts (hes : ∀ e ∈ es, e.Sound) :
    ∀ d ∈ es.flatMap choiceParts, d.Sound := by
  intro d hd
  obtain ⟨e, he, hd⟩ := List.mem_flatMap.1 hd
  exact sound_of_mem_choiceParts (hes e he) d hd

theorem sound_of_factor {start rests : List Plain} (h : factor es = some (start, rests))
    (hes : ∀ e ∈ es, e.Sound) : (∀ e ∈ start, e.Sound) ∧ ∀ e ∈ rests, e.Sound := by
  obtain ⟨tails, rfl, rfl⟩ := exists_of_factor h
  have hboth : ∀ t ∈ tails, ∀ e ∈ start ++ t, e.Sound := by
    intro t ht
    have hseq := hes (seq (start ++ t)) (List.mem_map_of_mem ht)
    cases hseq with
    | seq h => exact h
  refine ⟨fun e he => ?_, fun e he => ?_⟩
  · -- there is a tail, or no sequence would have been split
    cases tails with
    | nil => cases h
    | cons t tails => exact hboth t List.mem_cons_self e (List.mem_append_left t he)
  · obtain ⟨t, ht, rfl⟩ := List.mem_map.1 he
    exact sound_sequence fun d hd => hboth t ht d (List.mem_append_right start hd)

theorem sound_choice (hes : ∀ e ∈ es, e.Sound) : (choice es).Sound := by
  fun_induction choice es with
  | case1 es hp => exact .fail
  | case2 es e hp =>
    have hparts := sound_of_mem_flatMap_choiceParts hes
    rw [hp] at hparts
    exact hparts e (List.mem_singleton_self e)
  | case3 es cs =>
    rw [foldl_union_singleton]
    exact sound_ofSet_union (sound_of_mem_map_singleton cs)
  | case4 es as _ _ has _ =>
    exact sound_ofSet_union (sound_of_setsOf has (sound_of_mem_flatMap_choiceParts hes))
  | case5 es start rests _ _ hf _ _ _ ih =>
    obtain ⟨hstart, hrests⟩ := sound_of_factor hf (sound_of_mem_flatMap_choiceParts hes)
    apply sound_sequence
    intro e he
    rcases List.mem_append.1 he with he | he
    · exact hstart e he
    · rw [List.mem_singleton.1 he]
      exact ih hrests
  | case6 es => exact .alt (sound_of_mem_flatMap_choiceParts hes)

theorem mem_lang_choice (hes : ∀ e ∈ es, e.Sound) :
    w ∈ (choice es).lang ↔ ∃ e ∈ es, w ∈ e.lang := by
  rw [← exists_mem_flatMap_choiceParts_iff]
  fun_induction choice es generalizing w with
  | case1 es hp =>
    rw [hp, lang]
    simp
  | case2 es e hp =>
    rw [hp]
    simp
  | case3 es cs _ _ hcs =>
    rw [foldl_union_singleton, mem_lang_ofSet_union (sound_of_mem_map_singleton cs),
      exists_mem_charsOf_iff hcs]
  | case4 es as _ _ has _ =>
    rw [mem_lang_ofSet_union (sound_of_setsOf has (sound_of_mem_flatMap_choiceParts hes)),
      exists_mem_setsOf_iff has]
  | case5 es start rests _ _ hf _ _ _ ih =>
    have hrests := (sound_of_factor hf (sound_of_mem_flatMap_choiceParts hes)).2
    obtain ⟨tails, htails, rfl⟩ := exists_of_factor hf
    rw [lang_sequence, List.map_append, List.prod_append, List.map_singleton, List.prod_singleton,
      htails, exists_mem_factored_iff, mem_mul]
    simp only [ih hrests, exists_mem_flatMap_choiceParts_iff]
  | case6 es => exact mem_lang_alt

end Plain

end RegLan
