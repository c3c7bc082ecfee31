import Flux.ChecksumErrors
import Flux.TornLines

/-!
Log lines with one byte replaced. The checksum covers the value only. A byte
replaced in the value, in the checksum or in the bar between them is noticed, and so
is a byte in the first two numbers that no number has in its place. A digit of the offset
that becomes another digit is not: the record is read at another offset.
-/
namespace Flux.CorruptedLines

open GoStrings Checksums ChecksumErrors Numerals LogLines TornLines

variable {back c front s v value : Str} {i n : ℕ} {x : UInt8}

section Numbers

abbrev Digit (c : UInt8) : Prop := 48 ≤ c.toNat ∧ c.toNat ≤ 57

abbrev Numeric (length i : ℕ) (c : UInt8) : Prop :=
  Digit c ∨ (i = 0 ∧ 2 ≤ length ∧ (c = 43 ∨ c = 45))

theorem digits_of_mapM {digits : List ℕ} (h : s.mapM digitValue = some digits) :
    ∀ c ∈ s, Digit c := by
  induction s generalizing digits with
  | nil => exact fun c hc => absurd hc List.not_mem_nil
  | cons b s ih =>
    rw [List.mapM_cons] at h
    obtain ⟨d, hd, hrest⟩ := Option.bind_eq_some_iff.mp h
    obtain ⟨ds, hds, -⟩ := Option.bind_eq_some_iff.mp hrest
    intro c hc
    rcases List.mem_cons.mp hc with rfl | hc
    · unfold digitValue at hd
      split at hd
      · assumption
      · contradiction
    · exact ih hds c hc

theorem digits_of_readNumeral (h : readNumeral 10 digitValue s = some n) : ∀ c ∈ s, Digit c := by
  unfold readNumeral at h
  split at h
  · contradiction
  · obtain ⟨digits, hdigits, -⟩ := Option.map_eq_some_iff.mp h
    exact digits_of_mapM hdigits

theorem numeric_cons {sign c : UInt8} {rest : Str} (hsign : sign = 43 ∨ sign = 45)
    (h : readNumeral 10 digitValue rest = some n) (hc : (sign :: rest)[i]? = some c) :
    Numeric (sign :: rest).length i c := by
  cases i with
  | zero =>
    obtain rfl : sign = c := by simpa using hc
    have hne : rest ≠ [] := by
      rintro rfl
      simp [readNumeral] at h
    have hpos := List.length_pos_iff.mpr hne
    exact .inr ⟨rfl, by rw [List.length_cons]; omega, hsign⟩
  | succ i =>
    rw [List.getElem?_cons_succ] at hc
    exact .inl (digits_of_readNumeral h c (List.mem_of_getElem? hc))

theorem numeric_of_atoi {n : Int} (h : atoi s = some n) {c : UInt8} (hc : s[i]? = some c) :
    Numeric s.length i c := by
  have hread := (Option.filter_eq_some_iff.mp h).1
  unfold readSigned at hread
  split at hread
  · obtain ⟨k, hk, -⟩ := Option.map_eq_some_iff.mp hread
    exact numeric_cons (.inr rfl) hk hc
  · obtain ⟨k, hk, -⟩ := Option.map_eq_some_iff.mp hread
    exact numeric_cons (.inl rfl) hk hc
  · obtain ⟨k, hk, -⟩ := Option.map_eq_some_iff.mp hread
    exact .inl (digits_of_readNumeral hk c (List.mem_of_getElem? hc))

/-- In the place of a bar only a digit keeps two numbers apart from none. -/
theorem digit_of_joined {n : Int} (hfront : front ≠ []) (h : atoi (front ++ x :: back) = some n) :
    Digit x := by
  have hplace : (front ++ x :: back)[front.length]? = some x := by simp
  have hpos := List.length_pos_iff.mpr hfront
  rcases numeric_of_atoi h hplace with hdigit | ⟨hzero, -⟩
  · exact hdigit
  · omega

theorem eq_of_atoi_itoa {n k : Int} (h : atoi (itoa n) = some k) : k = n := by
  have hread := (Option.filter_eq_some_iff.mp h).1
  rw [readSigned_itoa] at hread
  exact (Option.some.inj hread).symm

end Numbers

section HexDigits

def Hex (c : UInt8) : Prop := (48 ≤ c.toNat ∧ c.toNat ≤ 57) ∨ (97 ≤ c.toNat ∧ c.toNat ≤ 102)

/-- Lower-casing keeps the digits of a checksum, whatever follows them. -/
theorem toLower_append {w : Str} (h : ∀ c ∈ w, Hex c) (s : Str) :
    toLower (w ++ s) = w ++ toLower s := by
  induction w with
  | nil => rfl
  | cons c w ih =>
    have hc : Hex c := h c (List.mem_cons_self ..)
    have hkelvin : c ≠ 0xE2 := by
      rintro rfl
      exact absurd hc (by unfold Hex; decide)
    have hdotted : c ≠ 0xC4 := by
      rintro rfl
      exact absurd hc (by unfold Hex; decide)
    have hlower : ¬ (65 ≤ c.toNat ∧ c.toNat ≤ 90) := by
      unfold Hex at hc
      omega
    have hrest := ih (fun b hb => h b (List.mem_cons_of_mem _ hb))
    unfold toLower at hrest ⊢
    rw [List.cons_append, mapCase, List.find?_eq_none.mpr, hrest, if_neg hlower, List.cons_append]
    intro word hword
    rcases List.mem_cons.mp hword with rfl | hword
    · simp [hkelvin.symm]
    · rw [List.mem_singleton.mp hword]
      simp [hdotted.symm]

theorem toLower_eq_self {w : Str} (h : ∀ c ∈ w, Hex c) : toLower w = w := by
  have happend := toLower_append h []
  rwa [List.append_nil, show toLower [] = [] from rfl, List.append_nil] at happend

theorem toLower_ne_nil (c : UInt8) (s : Str) : toLower (c :: s) ≠ [] := by
  unfold toLower
  rw [mapCase]
  split
  · exact List.cons_ne_nil _ _
  · exact List.cons_ne_nil _ _

theorem hex_hexPad8 (n : ℕ) : ∀ c ∈ hexPad8 n, Hex c := mem_hexPad8 n

def hexValue (c : UInt8) : Option ℕ := some (if c.toNat < 58 then c.toNat - 48 else c.toNat - 87)

theorem hexValue_glyph (d : ℕ) (h : d < 16) : hexValue (hexGlyph d) = some d := by
  interval_cases d <;> rfl

theorem hexPad8_injective {m : ℕ} (h : hexPad8 m = hexPad8 n) : m = n := by
  have hm := readNumeral_padLeft 16 (by omega) hexGlyph hexValue hexValue_glyph 8 m
  have hn := readNumeral_padLeft 16 (by omega) hexGlyph hexValue hexValue_glyph 8 n
  change readNumeral 16 hexValue (hexPad8 m) = some m at hm
  rw [h] at hm
  exact Option.some.inj (hm.symm.trans hn)

theorem length_checksum (value : Str) : (hexPad8 (checksumIEEE value)).length = 8 :=
  length_hexPad8 (UInt32.toNat_lt _)

theorem bar_not_mem_checksum (value : Str) : (124 : UInt8) ∉ hexPad8 (checksumIEEE value) :=
  hexPad8_not_mem _ 124 (by decide)

/-- A checksum that is accepted has the printed one's letters, up to their case. -/
theorem toLower_of_equalFold (h : equalFold (hexPad8 (checksumIEEE value)) c = true) :
    toLower c = hexPad8 (checksumIEEE value) := by
  rw [equalFold, toLower_eq_self (hex_hexPad8 _)] at h
  exact (beq_iff_eq.mp h).symm

end HexDigits

section Fields

theorem set_front (h : i < front.length) (x : UInt8) :
    (front ++ back).set i x = front.set i x ++ back := List.set_append_left i x h

theorem set_bar (front back : Str) (b x : UInt8) :
    (front ++ b :: back).set front.length x = front ++ x :: back := by
  rw [List.set_append_right _ _ (Nat.le_refl _), Nat.sub_self, List.set_cons_zero]

theorem set_back {b : UInt8} (h : front.length < i) (x : UInt8) :
    (front ++ b :: back).set i x = front ++ b :: back.set (i - front.length - 1) x := by
  obtain ⟨k, hk⟩ : ∃ k, i - front.length = k + 1 := ⟨i - front.length - 1, by omega⟩
  rw [List.set_append_right _ _ (by omega), hk, List.set_cons_succ, Nat.add_sub_cancel]

theorem not_mem_set {b : UInt8} (hs : b ∉ s) (hx : x ≠ b) : b ∉ s.set i x := by
  intro hmem
  rcases List.mem_or_eq_of_mem_set hmem with hold | hnew
  · exact hs hold
  · exact hx hnew.symm

/-- A bar inside the digits of a checksum leaves too few of them. -/
theorem short_checksum_rejected {rest : Str} {k : ℕ} (hk : k < 8) (hc : (124 : UInt8) ∉ c)
    (hline : c ++ 124 :: v = (hexPad8 (checksumIEEE value)).set k 124 ++ rest)
    (hsum : equalFold (hexPad8 (checksumIEEE v)) c = true) : False := by
  have hlength : k < (hexPad8 (checksumIEEE value)).length := by
    rw [length_checksum]
    exact hk
  have hbars := bar_not_mem_checksum value
  rw [List.set_eq_take_cons_drop 124 hlength, List.append_assoc, List.cons_append] at hline
  obtain ⟨rfl, -⟩ := before_bar hc (fun hmem => hbars (List.mem_of_mem_take hmem)) hline
  have hlower := toLower_of_equalFold hsum
  rw [toLower_eq_self (fun b hb => hex_hexPad8 _ b (List.mem_of_mem_take hb))] at hlower
  have hcount := congrArg List.length hlower
  rw [length_checksum, List.length_take, length_checksum] at hcount
  omega

/-- Without the bar after it, a checksum runs on into the value and is too long. -/
theorem long_checksum_rejected (hx : x ≠ 124) (hc : (124 : UInt8) ∉ c)
    (hline : c ++ 124 :: v = hexPad8 (checksumIEEE value) ++ x :: value)
    (hsum : equalFold (hexPad8 (checksumIEEE v)) c = true) : False := by
  have hbars : (124 : UInt8) ∉ hexPad8 (checksumIEEE value) ++ [x] := by
    simp [bar_not_mem_checksum value, hx.symm]
  obtain ⟨more, rfl⟩ : ∃ more, c = hexPad8 (checksumIEEE value) ++ x :: more := by
    rw [← List.singleton_append (l := value), ← List.append_assoc] at hline
    rcases List.append_eq_append_iff.mp hline with ⟨more, hmore, hrest⟩ | ⟨more, hmore, -⟩
    · cases more with
      | nil => exact ⟨[], by rw [← hmore.trans (List.append_nil c)]⟩
      | cons b more =>
        obtain ⟨rfl, -⟩ := List.cons.inj hrest
        rw [hmore] at hbars
        simp at hbars
    · exact ⟨more, by rw [hmore, List.append_assoc, List.singleton_append]⟩
  have hcount := congrArg List.length (toLower_of_equalFold hsum)
  rw [toLower_append (hex_hexPad8 _), List.length_append, length_checksum,
    length_checksum] at hcount
  have hpos := List.length_pos_iff.mpr (toLower_ne_nil x more)
  omega

/-- Whatever byte is replaced behind the second bar, a value that is accepted is the one
that was written. -/
theorem checksum_guards {k : ℕ} (hc : (124 : UInt8) ∉ c)
    (hline : c ++ 124 :: v = (hexPad8 (checksumIEEE value) ++ 124 :: value).set k x)
    (hsum : equalFold (hexPad8 (checksumIEEE v)) c = true) : v = value := by
  have hbars := bar_not_mem_checksum value
  have hlength := length_checksum value
  rcases Nat.lt_trichotomy k 8 with hk | rfl | hk
  · rw [set_front (by omega)] at hline
    by_cases hx : x = 124
    · rw [hx] at hline
      exact absurd hsum (fun hsum => short_checksum_rejected hk hc hline hsum)
    · exact (before_bar hc (not_mem_set hbars hx) hline).2
  · rw [← hlength, set_bar] at hline
    by_cases hx : x = 124
    · rw [hx] at hline
      exact (before_bar hc hbars hline).2
    · exact absurd hsum (fun hsum => long_checksum_rejected hx hc hline hsum)
  · rw [set_back (by omega)] at hline
    obtain ⟨rfl, rfl⟩ := before_bar hc hbars hline
    have hlower := toLower_of_equalFold hsum
    rw [toLower_eq_self (hex_hexPad8 _)] at hlower
    exact checksum_set (hexPad8_injective hlower).symm

end Fields

/-- The replacements that are noticed: any byte behind the second bar; before it a byte
other than a bar, which is no digit in the offset and in the two bars, and in the first
place of an offset of several letters no sign either. -/
structure Noticed (r : Record) (i : ℕ) (x : UInt8) : Prop where
  no_bar : i ≤ (itoa r.offset).length + 1 + (itoa r.timestamp).length → x ≠ 124
  offset : i ≤ (itoa r.offset).length → ¬ Numeric (itoa r.offset).length i x
  second : i = (itoa r.offset).length + 1 + (itoa r.timestamp).length → ¬ Digit x

/-- A noticed change in the offset is not read. -/
theorem offset_guarded {r m : Record} (h : Noticed r i x) (hi : i ≤ (itoa r.offset).length) :
    parseLogLine ((formatRecord r).set i x) ≠ some m := by
  intro hparse
  obtain ⟨a, b, c, ha, -, -, hline, hoffset, -, -⟩ := parseLogLine_checked hparse
  have hx : x ≠ 124 := h.no_bar (by omega)
  have hfree := bar_not_mem_itoa r.offset
  refine h.offset hi ?_
  rw [formatRecord] at hline
  rcases Nat.lt_or_eq_of_le hi with hlt | rfl
  · rw [set_front hlt] at hline
    rw [← (before_bar (not_mem_set hfree hx) ha hline).1] at hoffset
    have hnumeric := numeric_of_atoi hoffset (List.getElem?_set_self hlt)
    rwa [List.length_set] at hnumeric
  · rw [set_bar, ← List.cons_append, ← List.append_assoc] at hline
    have hjoined : (124 : UInt8) ∉ itoa r.offset ++ x :: itoa r.timestamp := by
      simp [hfree, hx.symm, bar_not_mem_itoa]
    rw [← (before_bar hjoined ha hline).1] at hoffset
    exact .inl (digit_of_joined (itoa_ne_nil _) hoffset)

/-- A line with one byte replaced as above is not read, or read with its offset and value. -/
theorem altered_byte_detected (r : Record) (i : ℕ) (x : UInt8) (h : Noticed r i x) :
    ∀ m, parseLogLine ((formatRecord r).set i x) = some m →
      m.offset = r.offset ∧ m.value = r.value := by
  intro m hparse
  by_cases hi : i ≤ (itoa r.offset).length
  · exact absurd hparse (offset_guarded h hi)
  obtain ⟨a, b, c, ha, hb, hc, hline, hoffset, htimestamp, hsum⟩ := parseLogLine_checked hparse
  have hfree := bar_not_mem_itoa r.timestamp
  rw [formatRecord, set_back (by omega)] at hline
  obtain ⟨rfl, hrest⟩ := before_bar (bar_not_mem_itoa r.offset) ha hline
  refine ⟨eq_of_atoi_itoa hoffset, ?_⟩
  rcases Nat.lt_trichotomy (i - (itoa r.offset).length - 1) (itoa r.timestamp).length
    with hlt | heq | hgt
  · rw [set_front hlt] at hrest
    obtain ⟨-, hback⟩ := before_bar (not_mem_set hfree (h.no_bar (by omega))) hb hrest
    exact (before_bar hc (bar_not_mem_checksum r.value) hback.symm).2
  · exfalso
    rw [heq, set_bar, ← List.cons_append, ← List.append_assoc] at hrest
    have hx : x ≠ 124 := h.no_bar (by omega)
    have hjoined : (124 : UInt8) ∉ itoa r.timestamp ++ x :: hexPad8 (checksumIEEE r.value) := by
      simp [hfree, hx.symm, bar_not_mem_checksum]
    rw [← (before_bar hjoined hb hrest).1] at htimestamp
    exact h.second (by omega) (digit_of_joined (itoa_ne_nil _) htimestamp)
  · rw [set_back hgt] at hrest
    obtain ⟨-, hback⟩ := before_bar hfree hb hrest
    exact checksum_guards hc hback.symm hsum

/-- A value whose first letter is replaced. -/
theorem altered_value_detected :
    Noticed ⟨1, 7, lit "ok"⟩ 13 120 ∧
      ∀ m, parseLogLine ((formatRecord ⟨1, 7, lit "ok"⟩).set 13 120) = some m →
        m.offset = 1 ∧ m.value = lit "ok" := by
  have hnoticed : Noticed ⟨1, 7, lit "ok"⟩ 13 120 := by
    constructor
    · decide
    · decide
    · decide
  exact ⟨hnoticed, altered_byte_detected ⟨1, 7, lit "ok"⟩ 13 120 hnoticed⟩

/-- A sign in the place of the last digit of an offset. -/
example : parseLogLine ((formatRecord ⟨12, 7, lit "ok"⟩).set 1 45) = none := by decide +kernel

/-- A digit of the offset becomes another one, and the record is read at that offset. -/
theorem altered_offset_accepted :
    formatRecord ⟨1, 7, lit "ok"⟩ = lit "1|7|79dcdd47|ok" ∧
      parseLogLine ((formatRecord ⟨1, 7, lit "ok"⟩).set 0 50) = some ⟨2, 7, lit "ok"⟩ := by
  decide +kernel

end Flux.CorruptedLines
