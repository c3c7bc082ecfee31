import Flux.GoStrings
import Mathlib.Data.List.DropRight

/-!
The texts of the client libraries: sequences of Unicode characters that travel
in UTF-8. This module gives the string functions and integer parsers of
JavaScript and Python that the clients call on them.
-/
namespace Flux.ClientText

open GoStrings Numerals

/-- The client libraries. -/
inductive Sdk
  | typescript
  | python
  deriving DecidableEq

abbrev Text := List Char

variable {c : Char} {t : Text}

def utf8 (t : Text) : Str := t.flatMap String.utf8EncodeChar

def ascii (s : Str) : Text := s.map (fun b => Char.ofNat b.toNat)

def text (s : String) : Text := ascii (lit s)

/-- The strict decoder of Python. -/
def decodeStrict (s : Str) : Option Text := s.toByteArray.utf8Decode?.map Array.toList

/-- `trim` and `strip`, with the white space of the language. -/
def strip (space : Char → Bool) (t : Text) : Text := (t.dropWhile space).rdropWhile space

/-- White space and line terminators of JavaScript. -/
def jsSpaces : List ℕ :=
  [0x9, 0xA, 0xB, 0xC, 0xD, 0x20, 0xA0, 0x1680, 0x2000, 0x2001, 0x2002, 0x2003, 0x2004, 0x2005,
    0x2006, 0x2007, 0x2008, 0x2009, 0x200A, 0x2028, 0x2029, 0x202F, 0x205F, 0x3000, 0xFEFF]

/-- The characters for which `str.isspace` holds in Python. -/
def pySpaces : List ℕ :=
  [0x9, 0xA, 0xB, 0xC, 0xD, 0x1C, 0x1D, 0x1E, 0x1F, 0x20, 0x85, 0xA0, 0x1680, 0x2000, 0x2001,
    0x2002, 0x2003, 0x2004, 0x2005, 0x2006, 0x2007, 0x2008, 0x2009, 0x200A, 0x2028, 0x2029,
    0x202F, 0x205F, 0x3000]

def jsSpace (c : Char) : Bool := c.toNat ∈ jsSpaces

def pySpace (c : Char) : Bool := c.toNat ∈ pySpaces

def isDigit (c : Char) : Bool := 48 ≤ c.toNat ∧ c.toNat ≤ 57

def digitOf (c : Char) : Option ℕ := if isDigit c then some (c.toNat - 48) else none

def takeSign : Text → Int × Text
  | '-' :: rest => (-1, rest)
  | '+' :: rest => (1, rest)
  | t => (1, t)

def nearestDouble (n : Int) : Int :=
  let spacing := 2 ^ (n.natAbs.log2 - 52)
  let quotient := n.natAbs / spacing
  let remainder := n.natAbs % spacing
  let rounded :=
    if spacing < 2 * remainder ∨ (2 * remainder = spacing ∧ quotient % 2 = 1) then quotient + 1
    else quotient
  n.sign * (rounded * spacing : ℕ)

/-- `Number.parseInt(s, 10)`: the longest front part that is a numeral. -/
def jsParseInt (t : Text) : Option Int :=
  let signed := takeSign (t.dropWhile jsSpace)
  (readNumeral 10 digitOf (signed.2.takeWhile isDigit)).map
    (fun n : ℕ => nearestDouble (signed.1 * n))

/-- `int(s)` in Python: digits of any script, with single underscores between
them. `decimal` is the Unicode decimal value of a character. -/
def pyInt (decimal : Char → Option ℕ) (t : Text) : Option Int :=
  let signed := takeSign (strip pySpace t)
  let parts := signed.2.splitOn '_'
  if [] ∈ parts then none
  else (readNumeral 10 decimal parts.flatten).map (fun n : ℕ => signed.1 * n)

example : nearestDouble (2 ^ 53 + 1) = 2 ^ 53 := by decide

example : jsParseInt (text "12px") = some 12 := by decide

example : pyInt digitOf (text " -1_0") = some (-10) := by decide

@[simp] theorem utf8_append (a b : Text) : utf8 (a ++ b) = utf8 a ++ utf8 b :=
  List.flatMap_append

theorem decodeStrict_utf8 (t : Text) : decodeStrict (utf8 t) = some t := by
  have h : (utf8 t).toByteArray.utf8Decode? = some t.toArray := List.utf8Decode?_utf8Encode
  simp [decodeStrict, h]

theorem utf8_injective {a b : Text} (h : utf8 a = utf8 b) : a = b := by
  have hdecoded := congrArg decodeStrict h
  simpa [decodeStrict_utf8] using hdecoded

theorem toNat_ofNat_byte (b : UInt8) : (Char.ofNat b.toNat).toNat = b.toNat := by
  have hvalid : b.toNat.isValidChar := Or.inl (by have := b.toNat_lt; omega)
  rw [Char.ofNat, dif_pos hvalid]
  rfl

theorem utf8_ascii (s : Str) (h : ∀ b ∈ s, b.toNat < 128) : utf8 (ascii s) = s := by
  induction s with
  | nil => rfl
  | cons b rest ih =>
    have hb := h b (List.mem_cons_self ..)
    have hrest := ih (fun x hx => h x (List.mem_cons_of_mem _ hx))
    have hchar : String.utf8EncodeChar (Char.ofNat b.toNat) = [b] := by
      have hval : (Char.ofNat b.toNat).val.toNat = b.toNat := toNat_ofNat_byte b
      have hle : b.toNat ≤ 127 := by omega
      simp [String.utf8EncodeChar, hval, hle]
    show String.utf8EncodeChar (Char.ofNat b.toNat) ++ utf8 (ascii rest) = b :: rest
    rw [hchar, hrest]
    rfl

theorem mem_ascii {s : Str} (h : c ∈ ascii s) : ∃ b ∈ s, c.toNat = b.toNat := by
  obtain ⟨b, hb, rfl⟩ := List.mem_map.mp h
  exact ⟨b, hb, toNat_ofNat_byte b⟩

/-- A character is one byte of ASCII, or bytes above ASCII that stay below 248. -/
theorem mem_encodeChar {b : UInt8} (h : b ∈ String.utf8EncodeChar c) :
    (c = Char.ofNat b.toNat ∧ String.utf8EncodeChar c = [b] ∧ b.toNat < 128) ∨
      (128 ≤ b.toNat ∧ b.toNat < 248) := by
  have hbyte : ∀ n, n < 248 → 128 ≤ n → b = UInt8.ofNat n → 128 ≤ b.toNat ∧ b.toNat < 248 := by
    intro n hhigh hlow heq
    rw [heq, UInt8.toNat_ofNat', Nat.mod_eq_of_lt (by omega)]
    exact ⟨hlow, hhigh⟩
  unfold String.utf8EncodeChar at h ⊢
  dsimp only at h ⊢
  split at h
  · rename_i hsmall
    left
    have hb : b = UInt8.ofNat c.val.toNat := List.mem_singleton.mp h
    have hval : b.toNat = c.toNat := by
      rw [hb, UInt8.toNat_ofNat']
      exact Nat.mod_eq_of_lt (by omega)
    have hlow : c.toNat < 128 := by
      have : c.toNat = c.val.toNat := rfl
      omega
    rw [if_pos hsmall, hval, Char.ofNat_toNat, hb]
    exact ⟨rfl, rfl, hlow⟩
  · right
    split at h
    · simp only [List.mem_cons, List.not_mem_nil, or_false] at h
      rcases h with heq | heq
      · exact hbyte _ (by omega) (by omega) heq
      · exact hbyte _ (by omega) (by omega) heq
    · split at h
      · simp only [List.mem_cons, List.not_mem_nil, or_false] at h
        rcases h with heq | heq | heq
        · exact hbyte _ (by omega) (by omega) heq
        · exact hbyte _ (by omega) (by omega) heq
        · exact hbyte _ (by omega) (by omega) heq
      · simp only [List.mem_cons, List.not_mem_nil, or_false] at h
        rcases h with heq | heq | heq | heq
        · exact hbyte _ (by omega) (by omega) heq
        · exact hbyte _ (by omega) (by omega) heq
        · exact hbyte _ (by omega) (by omega) heq
        · exact hbyte _ (by omega) (by omega) heq

/-- A byte of ASCII stands for itself wherever it occurs. -/
theorem encodeChar_ascii {b : UInt8} (hmem : b ∈ String.utf8EncodeChar c) (hb : b.toNat < 128) :
    c = Char.ofNat b.toNat ∧ String.utf8EncodeChar c = [b] := by
  rcases mem_encodeChar hmem with ⟨hc, hsingle, -⟩ | ⟨hhigh, -⟩
  · exact ⟨hc, hsingle⟩
  · omega

/-- A character is encoded somewhere in the text that holds it. -/
theorem encodeChar_infix_of_mem (h : c ∈ t) : String.utf8EncodeChar c <:+: utf8 t := by
  obtain ⟨front, back, rfl⟩ := List.append_of_mem h
  refine ⟨utf8 front, utf8 back, ?_⟩
  simp [utf8]

theorem jsSpace_of_spaceFree (h : SpaceFree (utf8 t)) (hc : c ∈ t) :
    jsSpace c = true ↔ c.toNat = 0xFEFF := by
  have hall : ∀ n ∈ jsSpaces, n ≠ 0xFEFF → String.utf8EncodeChar (Char.ofNat n) ∈ spaces := by
    decide
  constructor
  · intro hspace
    by_contra hne
    have hmem := hall c.toNat (by simpa [jsSpace] using hspace) hne
    rw [Char.ofNat_toNat] at hmem
    exact h _ hmem (encodeChar_infix_of_mem hc)
  · intro heq
    simp only [jsSpace, heq]
    decide

theorem pySpace_of_spaceFree (h : SpaceFree (utf8 t)) (hc : c ∈ t) :
    pySpace c = true ↔ c.toNat ∈ [0x1C, 0x1D, 0x1E, 0x1F] := by
  have hall : ∀ n ∈ pySpaces, n ∉ [0x1C, 0x1D, 0x1E, 0x1F] →
      String.utf8EncodeChar (Char.ofNat n) ∈ spaces := by
    decide
  have hfour : ∀ n ∈ [0x1C, 0x1D, 0x1E, 0x1F], n ∈ pySpaces := by decide
  constructor
  · intro hspace
    by_contra hne
    have hmem := hall c.toNat (by simpa [pySpace] using hspace) hne
    rw [Char.ofNat_toNat] at hmem
    exact h _ hmem (encodeChar_infix_of_mem hc)
  · intro hin
    simpa [pySpace] using hfour _ hin

def decimalText (n : Int) : Text := ascii (itoa n)

theorem utf8_decimalText (n : Int) : utf8 (decimalText n) = itoa n := by
  refine utf8_ascii _ (fun b hb => ?_)
  rcases mem_itoa n b hb with rfl | hdigit
  · decide
  · omega

theorem mem_decimalText {n : Int} (h : c ∈ decimalText n) :
    c.toNat = 45 ∨ (48 ≤ c.toNat ∧ c.toNat ≤ 57) := by
  obtain ⟨b, hb, hc⟩ := mem_ascii h
  rcases mem_itoa n b hb with rfl | hdigit
  · exact Or.inl (by simpa using hc)
  · exact Or.inr (by omega)

theorem decimalText_ne_nil (n : Int) : decimalText n ≠ [] := by
  simpa [decimalText, ascii] using itoa_ne_nil n

theorem not_mem_decimalText (n : Int) (c : Char) (h45 : c.toNat ≠ 45)
    (hdigit : c.toNat < 48 ∨ 57 < c.toNat) : c ∉ decimalText n := by
  intro hc
  rcases mem_decimalText hc with h | h
  · exact h45 h
  · omega

theorem dropWhile_decimalText (space : Char → Bool)
    (hspace : ∀ c : Char, 45 ≤ c.toNat → c.toNat ≤ 58 → space c = false) (n : Int)
    (rest : Text) : (decimalText n ++ rest).dropWhile space = decimalText n ++ rest := by
  cases htext : decimalText n with
  | nil => exact absurd htext (decimalText_ne_nil n)
  | cons c tail =>
    have hc : space c = false := by
      rcases mem_decimalText (n := n) (c := c) (by simp [htext]) with h | h
      · exact hspace c (by omega) (by omega)
      · exact hspace c (by omega) (by omega)
    simp [hc]

def digits (n : ℕ) : Text := numeral 10 (fun d => Char.ofNat (digitGlyph d).toNat) n

theorem ascii_numeral (n : ℕ) : ascii (numeral 10 digitGlyph n) = digits n := by
  unfold digits ascii numeral
  split
  · rfl
  · rw [List.map_map]
    rfl

theorem mem_digits {n : ℕ} (h : c ∈ digits n) : 48 ≤ c.toNat ∧ c.toNat ≤ 57 := by
  rw [← ascii_numeral] at h
  obtain ⟨b, hb, hc⟩ := mem_ascii h
  rw [hc]
  exact mem_decimal n b hb

theorem readNumeral_digits (value : Char → Option ℕ)
    (hvalue : ∀ d < 10, value (Char.ofNat (48 + d)) = some d) (n : ℕ) :
    readNumeral 10 value (digits n) = some n := by
  refine readNumeral_numeral 10 (by omega) _ value (fun d hd => ?_) n
  have hglyph : (digitGlyph d).toNat = 48 + d := by
    interval_cases d <;> decide
  rw [hglyph]
  exact hvalue d hd

theorem takeSign_decimalText (n : Int) :
    takeSign (decimalText n) = (if n < 0 then -1 else 1, digits n.natAbs) := by
  unfold decimalText itoa
  split
  · show takeSign ('-' :: ascii (numeral 10 digitGlyph n.natAbs)) = _
    rw [ascii_numeral]
    rfl
  · rw [ascii_numeral]
    have hnot : ∀ c : Char, c.toNat < 48 → ∀ rest, digits n.natAbs ≠ c :: rest := by
      intro c hc rest heq
      have := mem_digits (n := n.natAbs) (c := c) (by simp [heq])
      omega
    unfold takeSign
    split
    · exact absurd ‹_› (hnot '-' (by decide) _)
    · exact absurd ‹_› (hnot '+' (by decide) _)
    · rfl

theorem sign_mul_natAbs (n : Int) : (if n < 0 then -1 else 1) * (n.natAbs : Int) = n := by
  split <;> omega

/-- Neither language takes a sign, a digit or a colon for white space. -/
theorem jsSpace_plain (c : Char) (hlow : 45 ≤ c.toNat) (hhigh : c.toNat ≤ 58) :
    jsSpace c = false := by
  have hall : ∀ n ∈ jsSpaces, ¬ (45 ≤ n ∧ n ≤ 58) := by decide
  exact decide_eq_false (fun hc => hall _ hc ⟨hlow, hhigh⟩)

theorem pySpace_plain (c : Char) (hlow : 45 ≤ c.toNat) (hhigh : c.toNat ≤ 58) :
    pySpace c = false := by
  have hall : ∀ n ∈ pySpaces, ¬ (45 ≤ n ∧ n ≤ 58) := by decide
  exact decide_eq_false (fun hc => hall _ hc ⟨hlow, hhigh⟩)

theorem jsParseInt_decimalText (n : Int) : jsParseInt (decimalText n) = some (nearestDouble n) := by
  have hdrop := dropWhile_decimalText jsSpace jsSpace_plain n []
  rw [List.append_nil] at hdrop
  have htake : (digits n.natAbs).takeWhile isDigit = digits n.natAbs := by
    rw [List.takeWhile_eq_self_iff]
    intro c hc
    simpa [isDigit] using mem_digits hc
  have hvalue : ∀ d < 10, digitOf (Char.ofNat (48 + d)) = some d := by decide
  simp only [jsParseInt, hdrop, takeSign_decimalText, htake, readNumeral_digits digitOf hvalue,
    Option.map_some, sign_mul_natAbs]

theorem strip_eq_self (space : Char → Bool) (t : Text) (h : ∀ c ∈ t, space c = false) :
    strip space t = t := by
  have hdrop : t.dropWhile space = t := by
    rw [List.dropWhile_eq_self_iff]
    intro hl
    simp [h _ (List.getElem_mem hl)]
  rw [strip, hdrop, List.rdropWhile_eq_self_iff]
  intro hl
  simp [h _ (List.getLast_mem hl)]

/-- Python reads a decimal number back. -/
theorem pyInt_decimalText {decimal : Char → Option ℕ}
    (hdecimal : ∀ d < 10, decimal (Char.ofNat (48 + d)) = some d) (n : Int) :
    pyInt decimal (decimalText n) = some n := by
  have hstrip : strip pySpace (decimalText n) = decimalText n := by
    refine strip_eq_self _ _ (fun c hc => ?_)
    have hrange : 45 ≤ c.toNat ∧ c.toNat ≤ 58 := by
      rcases mem_decimalText hc with h | h <;> omega
    exact pySpace_plain c hrange.1 hrange.2
  have hparts : (digits n.natAbs).splitOn '_' = [digits n.natAbs] := by
    refine List.splitOn_eq_singleton (fun hc => ?_)
    have := (mem_digits hc).2
    exact absurd this (by decide)
  have hne : digits n.natAbs ≠ [] := numeral_ne_nil 10 (by omega) _ _
  simp only [pyInt, hstrip, takeSign_decimalText, hparts, List.mem_singleton, hne.symm,
    ↓reduceIte, List.flatten_singleton, readNumeral_digits decimal hdecimal, Option.map_some,
    sign_mul_natAbs]

/-- Integers of up to 53 bits are doubles. -/
theorem nearestDouble_of_small (n : Int) (h : n.natAbs < 2 ^ 53) : nearestDouble n = n := by
  have hspacing : n.natAbs.log2 - 52 = 0 := by
    by_cases hzero : n.natAbs = 0
    · simp [hzero]
    · have := (Nat.log2_lt hzero).mpr h
      omega
  simp only [nearestDouble, hspacing, pow_zero, Nat.div_one, Nat.mod_one, Nat.mul_zero, mul_one]
  rw [if_neg (by omega)]
  exact Int.sign_mul_natAbs n

end Flux.ClientText
