import Flux.JsonState
import Flux.TextReaders
import Mathlib.Data.List.TakeWhile

/-!
Compact JSON texts, written as Go's `encoding/json` writes them and read back. The
readers take the texts of these writers only: there is no white space, and a literal
has neither bytes outside runes nor surrogates.
-/
namespace Flux.JsonText

open GoStrings JsonState Numerals TextReaders

variable {α β : Type} {b : UInt8}

section Numbers

def numberByte (b : UInt8) : Bool := b == 45 || (digitValue b).isSome

def readInt : Reader Int :=
  fun s => (readSigned (s.takeWhile numberByte)).map (fun n => (n, s.dropWhile numberByte))

theorem numberByte_itoa {n : Int} (hb : b ∈ itoa n) : numberByte b = true := by
  rcases mem_itoa n b hb with rfl | hdigit
  · rfl
  · simp [numberByte, digitValue, hdigit]

/-- An integer is read back. -/
theorem reads_int (n : Int) : Reads readInt (itoa n) n := by
  have hall : ∀ b ∈ itoa n, numberByte b = true := fun b hb => numberByte_itoa hb
  refine ⟨fun c rest hc => ?_, fun p hp => ?_⟩
  · have hstop : numberByte c = false := by
      simp only [delimiters, List.mem_cons, List.not_mem_nil, or_false] at hc
      rcases hc with rfl | rfl | rfl <;> decide
    have htake : (itoa n ++ c :: rest).takeWhile numberByte = itoa n := by
      rw [List.takeWhile_append_of_pos hall, List.takeWhile_cons_of_neg (by simp [hstop]),
        List.append_nil]
    have hdrop : (itoa n ++ c :: rest).dropWhile numberByte = c :: rest := by
      rw [List.dropWhile_append_of_pos hall, List.dropWhile_cons_of_neg (by simp [hstop])]
    rw [readInt, htake, hdrop, readSigned_itoa]
    rfl
  · have hpart : ∀ b ∈ p, numberByte b = true := fun b hb => hall b (hp.subset hb)
    rw [readInt, List.dropWhile_eq_nil_iff.mpr hpart]
    cases readSigned (p.takeWhile numberByte) with
    | none => exact .inl rfl
    | some n' => exact .inr ⟨n', rfl⟩

end Numbers

section Strings

def hexValue (c : UInt8) : Option ℕ :=
  if 48 ≤ c.toNat ∧ c.toNat ≤ 57 then some (c.toNat - 48)
  else if 97 ≤ c.toNat ∧ c.toNat ≤ 102 then some (c.toNat - 87)
  else if 65 ≤ c.toNat ∧ c.toNat ≤ 70 then some (c.toNat - 55)
  else none

def runeBytes (code : ℕ) : Str :=
  if code < 0x80 then [UInt8.ofNat code]
  else if code < 0x800 then [UInt8.ofNat (0xC0 + code / 64), UInt8.ofNat (0x80 + code % 64)]
  else if 0xD800 ≤ code ∧ code ≤ 0xDFFF then replacementRune
  else [UInt8.ofNat (0xE0 + code / 4096), UInt8.ofNat (0x80 + code / 64 % 64),
    UInt8.ofNat (0x80 + code % 64)]

def shortEscapes : List (UInt8 × UInt8) :=
  [(34, 34), (92, 92), (98, 8), (102, 12), (110, 10), (114, 13), (116, 9)]

def before (out : Str) (r : Str × Str) : Str × Str := (out ++ r.1, r.2)

def readString : Reader Str
  | [] => none
  | 34 :: rest => some ([], rest)
  | 92 :: 117 :: h₁ :: h₂ :: h₃ :: h₄ :: rest =>
      (readNumeral 16 hexValue [h₁, h₂, h₃, h₄]).bind (fun code =>
        (readString rest).map (before (runeBytes code)))
  | 92 :: e :: rest => (shortEscapes.lookup e).bind (fun c => (readString rest).map (before [c]))
  | b :: rest => if b.toNat < 32 then none else (readString rest).map (before [b])

def escapeByte (b : UInt8) : Str :=
  match shortEscapes.find? (fun e => e.2 == b) with
  | some e => [92, e.1]
  | none =>
      if b.toNat < 32 ∨ b = 60 ∨ b = 62 ∨ b = 38 then
        [92, 117, 48, 48, hexGlyph (b.toNat / 16), hexGlyph (b.toNat % 16)]
      else [b]

def escapeSeparator (s : Str) : Option Str :=
  if s = [0xE2, 0x80, 0xA8] then some (lit "\\u2028")
  else if s = [0xE2, 0x80, 0xA9] then some (lit "\\u2029")
  else none

def escapeFrom : ℕ → ℕ → Str → Str
  | _, _, [] => []
  | skip + 1, copy, _ :: rest => escapeFrom skip copy rest
  | 0, copy + 1, b :: rest => b :: escapeFrom 0 copy rest
  | 0, 0, b :: rest =>
      match runeLength (b :: rest) with
      | 0 => lit "\\ufffd" ++ escapeFrom 0 0 rest
      | 1 => escapeByte b ++ escapeFrom 0 0 rest
      | more + 2 =>
          match escapeSeparator ((b :: rest).take 3) with
          | some escape => escape ++ escapeFrom (more + 1) 0 rest
          | none => b :: escapeFrom 0 (more + 1) rest

def quote (s : Str) : Str := 34 :: (escapeFrom 0 0 s ++ [34])

def readText : Reader Str := (readLit [34]).andThen (fun _ => readString)

structure Piece (text out : Str) : Prop where
  whole : ∀ rest, readString (text ++ rest) = (readString rest).map (before out)
  short : ∀ p, p <+: text → p ≠ text → readString p = none

theorem Piece.takes {t out t' b : Str} (h : Piece t out) (h' : Takes readString t' b) :
    Takes readString (t ++ t') (out ++ b) := by
  refine ⟨fun rest => ?_, fun p hp htext => ?_⟩
  · rw [List.append_assoc, h.whole, h'.whole]
    rfl
  · rcases cut_cases hp with ⟨hshort, hne⟩ | ⟨q, rfl, hq⟩
    · exact h.short p hshort hne
    · rw [h.whole, h'.short q hq (fun heq => htext (by rw [heq]))]
      rfl

theorem takes_close : Takes readString [34] [] := by
  refine ⟨fun rest => rfl, fun p hp hne => ?_⟩
  cases p with
  | nil => rfl
  | cons b p => exact absurd (hp.eq_of_length_le (by simp)) hne

theorem piece_plain (hquote : b ≠ 34) (hslash : b ≠ 92) (hlow : 32 ≤ b.toNat) : Piece [b] [b] := by
  refine ⟨fun rest => ?_, fun p hp hne => ?_⟩
  · rw [List.singleton_append, readString, if_neg (by omega)]
    · exact hquote
    · exact fun _ _ _ _ _ h => absurd h hslash
    · exact fun _ _ h => absurd h hslash
  · cases p with
    | nil => rfl
    | cons b p => exact absurd (hp.eq_of_length_le (by simp)) hne

theorem piece_short {e c : UInt8} (he : e ≠ 117) (hlookup : shortEscapes.lookup e = some c) :
    Piece [92, e] [c] := by
  refine ⟨fun rest => ?_, fun p hp hne => ?_⟩
  · rw [List.cons_append, List.singleton_append, readString, hlookup]
    · rfl
    · exact fun _ _ _ _ _ h => absurd h he
  · rcases p with _ | ⟨b, _ | ⟨b', p⟩⟩
    · rfl
    · obtain ⟨rfl, -⟩ := List.cons_prefix_cons.mp hp
      rfl
    · exact absurd (hp.eq_of_length_le (by simp)) hne

theorem piece_code {h₁ h₂ h₃ h₄ : UInt8} (code : ℕ) {out : Str}
    (hcode : readNumeral 16 hexValue [h₁, h₂, h₃, h₄] = some code) (hout : runeBytes code = out) :
    Piece [92, 117, h₁, h₂, h₃, h₄] out := by
  subst hout
  refine ⟨fun rest => ?_, fun p hp hne => ?_⟩
  · simp only [List.cons_append, List.nil_append, readString, hcode]
    rfl
  · obtain ⟨k, hk, rfl⟩ : ∃ k, k < 6 ∧ p = [92, 117, h₁, h₂, h₃, h₄].take k := by
      refine ⟨p.length, ?_, List.prefix_iff_eq_take.mp hp⟩
      have hle := hp.length_le
      have hlength : p.length ≠ 6 := fun h6 => hne (hp.eq_of_length h6)
      simp only [List.length_cons, List.length_nil] at hle
      omega
    interval_cases k <;> rfl

theorem piece_escapeByte (hascii : b.toNat < 128) : Piece (escapeByte b) [b] := by
  by_cases hescape : ∃ e ∈ shortEscapes, e.2 = b
  · obtain ⟨e, he, rfl⟩ := hescape
    simp only [shortEscapes, List.mem_cons, List.not_mem_nil, or_false] at he
    rcases he with rfl | rfl | rfl | rfl | rfl | rfl | rfl <;>
      exact piece_short (by decide) (by decide)
  · have hfind : shortEscapes.find? (fun e => e.2 == b) = none := by
      rw [List.find?_eq_none]
      exact fun e he heq => hescape ⟨e, he, eq_of_beq heq⟩
    rw [escapeByte, hfind]
    by_cases hcode : b.toNat < 32 ∨ b = 60 ∨ b = 62 ∨ b = 38
    · simp only [if_pos hcode]
      have hread : readNumeral 16 hexValue
          [48, 48, hexGlyph (b.toNat / 16), hexGlyph (b.toNat % 16)] = some b.toNat := by
        have hvalue : ∀ d < 16, hexValue (hexGlyph d) = some d := by
          intro d hd
          interval_cases d <;> rfl
        have hzero : hexValue 48 = some 0 := rfl
        simp [readNumeral, hvalue (b.toNat / 16) (by omega), hvalue (b.toNat % 16) (by omega),
          hzero, Nat.ofDigits]
        omega
      refine piece_code b.toNat hread ?_
      rw [runeBytes, if_pos (by omega), UInt8.ofNat_toNat]
    · simp only [if_neg hcode]
      refine piece_plain (fun h => hescape ⟨(34, 34), by decide, h.symm⟩)
        (fun h => hescape ⟨(92, 92), by decide, h.symm⟩) ?_
      by_contra hlow
      exact hcode (.inl (by omega))

theorem runeLength_one {rest : Str} (h : runeLength (b :: rest) = 1) : b.toNat < 128 := by
  simp only [runeLength, List.getD_cons_zero] at h
  split_ifs at h with hascii
  · simp only [within, decide_eq_true_eq] at hascii
    omega
  all_goals omega

theorem within_high {low high : ℕ} (h : within low high b = true) (hlow : 128 ≤ low) :
    128 ≤ b.toNat := by
  rw [within, decide_eq_true_eq] at h
  omega

theorem startsThree_high {a : UInt8} (h : startsThree a b = true) :
    128 ≤ a.toNat ∧ 128 ≤ b.toNat := by
  simp only [startsThree, Bool.or_eq_true, Bool.and_eq_true] at h
  rcases h with ((⟨ha, hb⟩ | ⟨ha, hb⟩) | ⟨ha, hb⟩) | ⟨ha, hb⟩ <;>
    exact ⟨within_high ha (by omega), within_high hb (by omega)⟩

theorem startsFour_high {a : UInt8} (h : startsFour a b = true) :
    128 ≤ a.toNat ∧ 128 ≤ b.toNat := by
  simp only [startsFour, Bool.or_eq_true, Bool.and_eq_true] at h
  rcases h with (⟨ha, hb⟩ | ⟨ha, hb⟩) | ⟨ha, hb⟩ <;>
    exact ⟨within_high ha (by omega), within_high hb (by omega)⟩

/-- No byte of a longer rune is an ASCII letter. -/
theorem runeLength_high {rest : Str} {more : ℕ} (h : runeLength (b :: rest) = more + 2) :
    128 ≤ b.toNat ∧ ∀ x ∈ rest.take (more + 1), 128 ≤ x.toNat := by
  simp only [runeLength, List.getD_cons_zero, List.getD_cons_succ] at h
  split_ifs at h with hascii htwo hthree hfour
  · omega
  · obtain rfl : more = 0 := by omega
    simp only [Bool.and_eq_true] at htwo
    refine ⟨within_high htwo.1 (by omega), ?_⟩
    rcases rest with _ | ⟨c, rest⟩
    · simp
    · simpa using within_high htwo.2 (by omega)
  · obtain rfl : more = 1 := by omega
    simp only [Bool.and_eq_true] at hthree
    have hstart := startsThree_high hthree.1
    have hlast := within_high hthree.2 (by omega)
    refine ⟨hstart.1, ?_⟩
    rcases rest with _ | ⟨c, _ | ⟨d, rest⟩⟩
    · simp
    · simpa using hstart.2
    · simpa using ⟨hstart.2, hlast⟩
  · obtain rfl : more = 2 := by omega
    simp only [Bool.and_eq_true] at hfour
    have hstart := startsFour_high hfour.1.1
    have hthird := within_high hfour.1.2 (by omega)
    have hlast := within_high hfour.2 (by omega)
    refine ⟨hstart.1, ?_⟩
    rcases rest with _ | ⟨c, _ | ⟨d, _ | ⟨e, rest⟩⟩⟩
    · simp
    · simpa using hstart.2
    · simpa using ⟨hstart.2, hthird⟩
    · simpa using ⟨hstart.2, hthird, hlast⟩

theorem piece_high (h : 128 ≤ b.toNat) : Piece [b] [b] := by
  refine piece_plain ?_ ?_ (by omega)
  · rintro rfl
    exact absurd h (by decide)
  · rintro rfl
    exact absurd h (by decide)

theorem piece_replacement : Piece (lit "\\ufffd") replacementRune := by
  have hlit : lit "\\ufffd" = [92, 117, 102, 102, 102, 100] := by decide
  rw [hlit]
  exact piece_code 0xFFFD (by decide) (by decide)

theorem piece_separator {s escape : Str} (h : escapeSeparator s = some escape) :
    Piece escape s ∧ s.length = 3 ∧ ∀ rest, runeLength (s ++ rest) = 3 := by
  have hline : lit "\\u2028" = [92, 117, 50, 48, 50, 56] := by decide
  have hparagraph : lit "\\u2029" = [92, 117, 50, 48, 50, 57] := by decide
  simp only [escapeSeparator, hline, hparagraph] at h
  split_ifs at h with hs hs
  · obtain rfl := Option.some.inj h
    rw [hs]
    exact ⟨piece_code 0x2028 (by decide) (by decide), rfl, fun rest => rfl⟩
  · obtain rfl := Option.some.inj h
    rw [hs]
    exact ⟨piece_code 0x2029 (by decide) (by decide), rfl, fun rest => rfl⟩

/-- A literal is read as the string without its bytes outside runes. -/
theorem takes_escapeFrom (copy : ℕ) (s : Str) (hcopy : ∀ x ∈ s.take copy, 128 ≤ x.toNat) :
    Takes readString (escapeFrom 0 copy s ++ [34]) (coerceFrom copy s) := by
  induction hlength : s.length using Nat.strong_induction_on generalizing copy s with
  | _ n ih =>
  subst hlength
  rcases s with _ | ⟨b, rest⟩
  · simpa [escapeFrom, coerceFrom] using takes_close
  · rcases copy with _ | copy
    · have hrest := ih rest.length (by simp) 0 rest (by simp) rfl
      rw [escapeFrom, coerceFrom]
      rcases hrune : runeLength (b :: rest) with _ | _ | more
      · simpa using piece_replacement.takes hrest
      · simpa using (piece_escapeByte (runeLength_one hrune)).takes hrest
      · have hhigh := runeLength_high hrune
        rcases hsep : escapeSeparator ((b :: rest).take 3) with _ | escape
        · have hmore := ih rest.length (by simp) (more + 1) rest hhigh.2 rfl
          simpa [hsep] using (piece_high hhigh.1).takes hmore
        · obtain ⟨hpiece, hlength, hthree⟩ := piece_separator hsep
          rcases rest with _ | ⟨x, _ | ⟨y, rest⟩⟩
          · simp at hlength
          · simp at hlength
          · obtain rfl : more = 1 := by
              have hrest := hthree rest
              simp only [List.take_succ_cons, List.take_zero, List.cons_append,
                List.nil_append] at hrest
              omega
            have hskip := ih rest.length (by simp; omega) 0 rest (by simp) rfl
            simpa [hsep, escapeFrom, coerceFrom] using hpiece.takes hskip
    · have hb : 128 ≤ b.toNat := hcopy b (by simp)
      have hrest := ih rest.length (by simp) copy rest
        (fun x hx => hcopy x (by simp [hx])) rfl
      simpa [escapeFrom, coerceFrom] using (piece_high hb).takes hrest

theorem takes_text (s : Str) : Takes readText (quote s) (coerce s) :=
  (takes_lit [34]).andThen (takes_escapeFrom 0 s (by simp))

end Strings

section Values

variable {K : Type}

def writeList (item : α → Str) (items : List α) : Str := 91 :: writeSeq 93 item items

def readList (read : Reader β) : Reader (List β) :=
  (readLit [91]).andThen (fun _ => readSeq 93 read)

/-- A slice without elements is nil where it is a copy made by `append`. -/
def writeSlice (item : α → Str) (items : List α) : Str :=
  if items = [] then lit "null" else writeList item items

def readSlice (read : Reader β) : Reader (List β)
  | 110 :: rest => ((readLit (lit "null")).map (fun _ => [])) (110 :: rest)
  | s => readList read s

def writeField (name value : α → Str) (a : α) : Str := quote (name a) ++ 58 :: value a

def readField (key : Str → Option K) (read : Reader β) : Reader (K × β) :=
  readText.andThen (fun name =>
    match key name with
    | none => fun _ => none
    | some k => (readLit [58]).andThen (fun _ => read.map (fun b => (k, b))))

def writeObject (name value : α → Str) (items : List α) : Str :=
  123 :: writeSeq 125 (writeField name value) items

def readObject (key : Str → Option K) (read : Reader β) : Reader (List (K × β)) :=
  (readLit [123]).andThen (fun _ => readSeq 125 (readField key read))

theorem takes_list {item : α → Str} {read : Reader β} {norm : α → β} {items : List α}
    (hitems : ∀ a ∈ items, Reads read (item a) (norm a))
    (hopen : ∀ a ∈ items, ∃ c t, item a = c :: t ∧ c ≠ 93) :
    Takes (readList read) (writeList item items) (items.map norm) :=
  (takes_lit [91]).andThen (takes_seq (by decide) (by decide) hitems hopen)

/-- A list is read back item by item. -/
theorem takes_slice {item : α → Str} {read : Reader β} {norm : α → β} {items : List α}
    (hitems : ∀ a ∈ items, Reads read (item a) (norm a))
    (hopen : ∀ a ∈ items, ∃ c t, item a = c :: t ∧ c ≠ 93) :
    Takes (readSlice read) (writeSlice item items) (items.map norm) := by
  by_cases hnil : items = []
  · have hnull : lit "null" = 110 :: [117, 108, 108] := by decide
    have htakes := (takes_lit (lit "null")).map (fun _ => ([] : List β))
    rw [writeSlice, if_pos hnil, hnil, List.map_nil]
    refine ⟨fun rest => ?_, fun p hp hne => ?_⟩
    · have hwhole := htakes.whole rest
      rw [hnull, List.cons_append] at hwhole ⊢
      rw [readSlice, hnull]
      exact hwhole
    · cases p with
      | nil => rfl
      | cons c p =>
        obtain rfl : c = 110 := by
          rw [hnull] at hp
          exact (List.cons_prefix_cons.mp hp).1
        exact htakes.short (110 :: p) hp hne
  · have htakes := takes_list hitems hopen
    rw [writeSlice, if_neg hnil]
    refine ⟨fun rest => htakes.whole rest, fun p hp hne => ?_⟩
    cases p with
    | nil => rfl
    | cons c p =>
      obtain rfl : c = 91 := (List.cons_prefix_cons.mp hp).1
      exact htakes.short (91 :: p) hp hne

theorem reads_field {key : Str → Option K} {name value : α → Str} {read : Reader β} {a : α} {k : K}
    {b : β} (hkey : key (coerce (name a)) = some k) (hvalue : Reads read (value a) b) :
    Reads (readField key read) (writeField name value a) (k, b) := by
  refine (takes_text (name a)).andThen_reads ?_
  simp only [hkey]
  exact (takes_lit [58]).andThen_reads (hvalue.map (fun b => (k, b)))

theorem takes_object {key : Str → Option K} {name value : α → Str} {read : Reader β} (k : α → K)
    {b : α → β} {items : List α} (hkey : ∀ a ∈ items, key (coerce (name a)) = some (k a))
    (hvalue : ∀ a ∈ items, Reads read (value a) (b a)) :
    Takes (readObject key read) (writeObject name value items)
      (items.map (fun a => (k a, b a))) :=
  (takes_lit [123]).andThen (takes_seq (by decide) (by decide)
    (fun a ha => reads_field (hkey a ha) (hvalue a ha))
    (fun a _ => ⟨34, _, rfl, by decide⟩))

end Values

end Flux.JsonText
