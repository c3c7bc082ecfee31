import Flux.LogLines

/-!
Segment files with a torn line. A write that is cut off leaves a part of a line at
the end of the file, and the next line that is written is glued to it. The glued line
is never read as the record it was written for, but for one case: a zero in front of
the offset zero.
-/
namespace Flux.TornLines

open GoRuntime GoStrings Checksums Cuts Numerals LogLines

variable {m r : Record} {line p : Str}

theorem mem_replay_torn {blocks : List Str} {tail : Str}
    (hblocks : ∀ line ∈ blocks, (10 : UInt8) ∉ line) (htail : (10 : UInt8) ∉ tail)
    (hm : m ∈ replay (torn blocks tail)) :
    (∃ line ∈ blocks, fits line = true ∧ parseLogLine (dropCR line) = some m) ∨
      parseLogLine (dropCR tail) = some m := by
  rw [replay, scanLines_torn hblocks htail, List.mem_filterMap] at hm
  obtain ⟨line', hline', hparse⟩ := hm
  obtain ⟨line, hline, rfl⟩ := List.mem_map.mp hline'
  rcases List.mem_append.mp ((List.takeWhile_sublist _).subset hline) with hmem | hlast
  · exact .inl ⟨line, hmem, List.mem_takeWhile_imp hline, hparse⟩
  · split at hlast
    · exact absurd hlast List.not_mem_nil
    · rw [List.mem_singleton.mp hlast] at hparse
      exact .inr hparse

def tornRecord (tail : Str) : Option Record :=
  if fits tail then parseLogLine (dropCR tail) else none

/-- The complete lines are read as they were written, and the torn one as it is. -/
theorem replay_tail {records : List Record} (h : ∀ r ∈ records, Loggable r) {tail : Str}
    (htail : (10 : UInt8) ∉ tail) :
    replay (records.flatMap formatLine ++ tail) = records ++ (tornRecord tail).toList := by
  obtain ⟨hlines, hfits⟩ := formatted h
  rw [torn_formatLine, replay, scanLines_torn hlines htail,
    List.takeWhile_append_of_pos hfits, List.map_append, List.filterMap_append, read_formatted h]
  congr 1
  by_cases hnil : tail = []
  · rw [if_pos hnil, hnil]
    rfl
  · rw [if_neg hnil, tornRecord]
    by_cases hshort : fits tail = true
    · rw [List.takeWhile_cons_of_pos hshort, if_pos hshort]
      cases hparse : parseLogLine (dropCR tail) with
      | none => simp [hparse]
      | some m => simp [hparse]
    · rw [List.takeWhile_cons_of_neg hshort, if_neg hshort]
      rfl

section Parsing

/-- The parts of a line that was read, and the checks they passed. -/
theorem parseLogLine_checked (h : parseLogLine line = some m) :
    ∃ a b c, (124 : UInt8) ∉ a ∧ (124 : UInt8) ∉ b ∧ (124 : UInt8) ∉ c ∧
      line = a ++ 124 :: (b ++ 124 :: (c ++ 124 :: m.value)) ∧ atoi a = some m.offset ∧
      atoi b = some m.timestamp ∧ equalFold (hexPad8 (checksumIEEE m.value)) c = true := by
  unfold parseLogLine at h
  split at h
  · rename_i a b c value hsplit
    obtain ⟨ha, rest, rfl, hrest⟩ := splitN_letter_cons hsplit
    obtain ⟨hb, rest', rfl, hrest'⟩ := splitN_letter_cons hrest
    obtain ⟨hc, rest'', rfl, hlast⟩ := splitN_letter_cons hrest'
    obtain rfl : rest'' = value := by simpa [splitN] using hlast
    split at h
    · rename_i offset timestamp hoffset htimestamp
      split at h
      · rename_i hsum
        obtain rfl := Option.some.inj h
        exact ⟨a, b, c, ha, hb, hc, rfl, hoffset, htimestamp, hsum⟩
      · contradiction
    · contradiction
  · contradiction

theorem parseLogLine_parts (h : parseLogLine line = some m) :
    ∃ a b c, (124 : UInt8) ∉ a ∧ (124 : UInt8) ∉ b ∧ (124 : UInt8) ∉ c ∧
      line = a ++ 124 :: (b ++ 124 :: (c ++ 124 :: m.value)) ∧ atoi a = some m.offset := by
  obtain ⟨a, b, c, ha, hb, hc, hline, hoffset, -, -⟩ := parseLogLine_checked h
  exact ⟨a, b, c, ha, hb, hc, hline, hoffset⟩

/-- A line without a bar is not read. -/
theorem parseLogLine_no_bar (h : (124 : UInt8) ∉ line) : parseLogLine line = none := by
  cases hparse : parseLogLine line with
  | none => rfl
  | some m =>
    obtain ⟨a, b, c, -, -, -, rfl, -⟩ := parseLogLine_parts hparse
    simp at h

theorem dropCR_isPrefix (line : Str) : dropCR line <+: line := by
  unfold dropCR
  split
  · exact List.dropLast_prefix line
  · exact List.prefix_refl line

theorem bar_not_mem_itoa (n : Int) : (124 : UInt8) ∉ itoa n :=
  itoa_not_mem n 124 (by decide) (by decide)

/-- Two words before the first bar of one text are the same. -/
theorem before_bar {a b s t : Str} (ha : (124 : UInt8) ∉ a) (hb : (124 : UInt8) ∉ b)
    (h : a ++ 124 :: s = b ++ 124 :: t) : a = b ∧ s = t := by
  have hcut := cut_letter_append 124 a s ha
  rw [h, cut_letter_append 124 b t hb] at hcut
  exact ⟨(congrArg Prod.fst (Option.some.inj hcut)).symm,
    (congrArg Prod.snd (Option.some.inj hcut)).symm⟩

/-- What a part of a line is read as has the offset of the line. -/
theorem torn_offset (hr : InInt64 r.offset) (hp : p <+: formatRecord r)
    (h : tornRecord p = some m) : m.offset = r.offset := by
  unfold tornRecord at h
  split at h
  · obtain ⟨a, b, c, ha, -, -, hline, hatoi⟩ := parseLogLine_parts h
    obtain ⟨more, hmore⟩ := (dropCR_isPrefix p).trans hp
    rw [hline, List.append_assoc, List.cons_append, formatRecord] at hmore
    obtain ⟨rfl, -⟩ := before_bar ha (bar_not_mem_itoa r.offset) hmore
    rw [atoi_itoa r.offset hr] at hatoi
    exact (Option.some.inj hatoi).symm
  · contradiction

/-- A glued line that is read with the value of its second part has only digits in its
first. -/
theorem glued_digits (h : parseLogLine (p ++ formatRecord r) = some m)
    (hvalue : m.value = r.value) :
    (124 : UInt8) ∉ p ∧ atoi (p ++ itoa r.offset) = some m.offset := by
  obtain ⟨a, b, c, ha, hb, hc, hline, hatoi⟩ := parseLogLine_parts h
  have hhex := hexPad8_not_mem (checksumIEEE r.value) 124 (by decide)
  have hfront : p ++ (itoa r.offset ++ 124 :: (itoa r.timestamp ++
      124 :: hexPad8 (checksumIEEE r.value))) = a ++ 124 :: (b ++ 124 :: c) := by
    refine (List.append_left_inj (124 :: r.value)).mp ?_
    rw [hvalue] at hline
    simpa [formatRecord] using hline
  have hcount := congrArg (List.count 124) hfront
  simp only [List.count_append, List.count_cons_self,
    List.count_eq_zero_of_not_mem (bar_not_mem_itoa _), List.count_eq_zero_of_not_mem hhex,
    List.count_eq_zero_of_not_mem ha, List.count_eq_zero_of_not_mem hb,
    List.count_eq_zero_of_not_mem hc] at hcount
  have hp : (124 : UInt8) ∉ p := List.count_eq_zero.mp (by omega)
  refine ⟨hp, ?_⟩
  rw [← List.append_assoc] at hfront
  have hpa : (124 : UInt8) ∉ p ++ itoa r.offset := by
    simp [hp, bar_not_mem_itoa]
  rw [(before_bar hpa ha hfront).1]
  exact hatoi

/-- A number with a part of itself in front of it is another number, zero aside. -/
theorem atoi_repeated {n : Int} (hn : 0 ≤ n) (hp : p <+: itoa n) (hne : p ≠ [])
    (h : atoi (p ++ itoa n) = some n) : n = 0 ∧ p = [48] := by
  have hitoa : itoa n = numeral 10 digitGlyph n.natAbs := by rw [itoa, if_neg (by omega)]
  rcases Nat.eq_zero_or_pos n.natAbs with hzero | hpos
  · obtain rfl : n = 0 := by omega
    refine ⟨rfl, hp.eq_of_length_le ?_⟩
    have hlength := List.length_pos_iff.mpr hne
    exact hlength
  · exfalso
    obtain ⟨first, rest, hfirst, hlt, hnumeral⟩ :=
      numeral_eq_cons 10 (by omega) digitGlyph (Nat.pos_iff_ne_zero.mp hpos)
    rw [hitoa, hnumeral] at hp h
    obtain ⟨k, hk⟩ : ∃ k, p = ((first :: rest).take (k + 1)).map digitGlyph := by
      refine ⟨p.length - 1, ?_⟩
      have hlength := List.length_pos_iff.mpr hne
      rw [List.map_take, show p.length - 1 + 1 = p.length by omega]
      exact List.prefix_iff_eq_take.mp hp
    have hword : p ++ (first :: rest).map digitGlyph =
        (first :: (rest.take k ++ first :: rest)).map digitGlyph := by
      rw [hk, ← List.map_append]
      rfl
    have hdigits : ∀ d ∈ first :: (rest.take k ++ first :: rest), d < 10 := by
      intro d hd
      rcases List.mem_cons.mp hd with rfl | hd
      · exact hlt d (List.mem_cons_self ..)
      · rcases List.mem_append.mp hd with hd | hd
        · exact hlt d (List.mem_cons_of_mem _ (List.mem_of_mem_take hd))
        · exact hlt d hd
    have hread : readNumeral 10 digitValue
        ((first :: (rest.take k ++ first :: rest)).map digitGlyph) =
          some (Nat.ofDigits 10 (first :: (rest.take k ++ first :: rest)).reverse) := by
      rw [readNumeral, mapM_map_glyph digitGlyph digitValue _
        (fun d hd => digitValue_glyph d (hdigits d hd))]
      rfl
    have hsame : Nat.ofDigits 10 (first :: (rest.take k ++ first :: rest)).reverse = n.natAbs := by
      rw [hword, atoi, readSigned_digits _ (fun c hc => ?_), hread] at h
      · have hvalue := (Option.filter_eq_some_iff.mp h).1
        rw [Option.map_some, Option.some.injEq] at hvalue
        omega
      · obtain ⟨d, hd, rfl⟩ := List.mem_map.mp hc
        exact digitGlyph_range d (hdigits d hd)
    have hcanonical := map_eq_numeral 10 (by omega) digitGlyph first _ hdigits hfirst
    rw [hsame, hnumeral] at hcanonical
    have hlength := congrArg List.length hcanonical
    simp only [List.length_map, List.length_cons, List.length_append] at hlength
    omega

/-- The one glued line that is read as its record: the record has the offset zero, and
the torn part is a zero. -/
theorem glued_zero (hoffset : r.offset = 0) (hts : InInt64 r.timestamp) :
    parseLogLine (48 :: formatRecord r) = some r := by
  have hzero : (124 : UInt8) ∉ 48 :: itoa r.offset := by
    rw [hoffset]
    decide
  have hhex := hexPad8_not_mem (checksumIEEE r.value) 124 (by decide)
  have hsplit : splitN [124] 4 (48 :: formatRecord r) =
      [48 :: itoa r.offset, itoa r.timestamp, hexPad8 (checksumIEEE r.value), r.value] := by
    rw [formatRecord, ← List.cons_append, splitN_cons 124 2 _ _ hzero,
      splitN_cons 124 1 _ _ (bar_not_mem_itoa _), splitN_cons 124 0 _ _ hhex]
    rfl
  have hatoi : atoi (48 :: itoa r.offset) = some r.offset := by
    rw [hoffset]
    decide
  simp [parseLogLine, hsplit, hatoi, atoi_itoa, hts, equalFold]

end Parsing

end Flux.TornLines
