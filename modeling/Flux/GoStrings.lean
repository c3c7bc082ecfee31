import Flux.Cuts
import Flux.GoRuntime
import Flux.Numerals
import Mathlib.Data.List.Sort
import Mathlib.Tactic.IntervalCases

/-!
Go strings are byte sequences. This module gives the functions of `strconv`,
`strings`, `sort` and `fmt` that the broker calls on them. White space is
Unicode white space in its UTF-8 encoding: no such encoding can start inside
another rune, so it is found byte by byte.
-/
namespace Flux.GoStrings

open GoRuntime Numerals

abbrev Str := List UInt8

def lit (s : String) : Str := s.toUTF8.data.toList

def digitGlyph (d : ℕ) : UInt8 := UInt8.ofNat (48 + d)

def digitValue (c : UInt8) : Option ℕ :=
  if 48 ≤ c.toNat ∧ c.toNat ≤ 57 then some (c.toNat - 48) else none

def hexGlyph (d : ℕ) : UInt8 := if d < 10 then UInt8.ofNat (48 + d) else UInt8.ofNat (87 + d)

def itoa (n : Int) : Str :=
  if n < 0 then 45 :: numeral 10 digitGlyph n.natAbs else numeral 10 digitGlyph n.natAbs

def itoaPad6 (n : Int) : Str :=
  if n < 0 then 45 :: padLeft 5 (digitGlyph 0) (numeral 10 digitGlyph n.natAbs)
  else padLeft 6 (digitGlyph 0) (numeral 10 digitGlyph n.natAbs)

def hexPad8 (n : ℕ) : Str := padLeft 8 (hexGlyph 0) (numeral 16 hexGlyph n)

def readSigned (s : Str) : Option Int :=
  match s with
  | 45 :: rest => (readNumeral 10 digitValue rest).map (fun n : ℕ => -(n : Int))
  | 43 :: rest => (readNumeral 10 digitValue rest).map (fun n : ℕ => (n : Int))
  | _ => (readNumeral 10 digitValue s).map (fun n : ℕ => (n : Int))

/-- `strconv.Atoi`, and `strconv.ParseInt` in base 10 for 64 bits. -/
def atoi (s : Str) : Option Int :=
  (readSigned s).filter (fun n => decide (InInt64 n))

def spaces : List Str :=
  [[9], [10], [11], [12], [13], [32], [0xC2, 0x85], [0xC2, 0xA0], [0xE1, 0x9A, 0x80],
    [0xE2, 0x80, 0x80], [0xE2, 0x80, 0x81], [0xE2, 0x80, 0x82], [0xE2, 0x80, 0x83],
    [0xE2, 0x80, 0x84], [0xE2, 0x80, 0x85], [0xE2, 0x80, 0x86], [0xE2, 0x80, 0x87],
    [0xE2, 0x80, 0x88], [0xE2, 0x80, 0x89], [0xE2, 0x80, 0x8A], [0xE2, 0x80, 0xA8],
    [0xE2, 0x80, 0xA9], [0xE2, 0x80, 0xAF], [0xE2, 0x81, 0x9F], [0xE3, 0x80, 0x80]]

def SpaceFree (s : Str) : Prop := ∀ w ∈ spaces, ¬ w <:+: s

instance (s : Str) : Decidable (SpaceFree s) :=
  inferInstanceAs (Decidable (∀ w ∈ spaces, ¬ w <:+: s))

def dropRunes (runes : List Str) : ℕ → Str → Str
  | _, [] => []
  | skip + 1, _ :: rest => dropRunes runes skip rest
  | 0, c :: rest =>
      match runes.find? (fun w => w.isPrefixOf (c :: rest)) with
      | some w => dropRunes runes (w.length - 1) rest
      | none => c :: rest

def trimLeft (s : Str) : Str := dropRunes spaces 0 s

def trimRight (s : Str) : Str := (dropRunes (spaces.map List.reverse) 0 s.reverse).reverse

/-- `strings.TrimSpace` -/
def trimSpace (s : Str) : Str := trimRight (trimLeft s)

def flushField (field : Str) : List Str := if field.isEmpty then [] else [field]

def fieldsFrom : ℕ → Str → Str → List Str
  | _, field, [] => flushField field
  | skip + 1, field, _ :: rest => fieldsFrom skip field rest
  | 0, field, c :: rest =>
      match spaces.find? (fun w => w.isPrefixOf (c :: rest)) with
      | some w => flushField field ++ fieldsFrom (w.length - 1) [] rest
      | none => fieldsFrom 0 (field ++ [c]) rest

/-- `strings.Fields` -/
def fields (s : Str) : List Str := fieldsFrom 0 [] s

def mapCase (ascii : UInt8 → UInt8) (foreign : List (Str × UInt8)) : ℕ → Str → Str
  | _, [] => []
  | skip + 1, _ :: rest => mapCase ascii foreign skip rest
  | 0, c :: rest =>
      match foreign.find? (fun w => w.1.isPrefixOf (c :: rest)) with
      | some w => w.2 :: mapCase ascii foreign (w.1.length - 1) rest
      | none => ascii c :: mapCase ascii foreign 0 rest

/-- `strings.ToLower`: the Kelvin sign and the dotted capital I become ASCII. -/
def toLower (s : Str) : Str :=
  mapCase (fun c => if 65 ≤ c.toNat ∧ c.toNat ≤ 90 then c + 32 else c)
    [([0xE2, 0x84, 0xAA], 107), ([0xC4, 0xB0], 105)] 0 s

/-- `strings.ToUpper`: the dotless i and the long s become ASCII. -/
def toUpper (s : Str) : Str :=
  mapCase (fun c => if 97 ≤ c.toNat ∧ c.toNat ≤ 122 then c - 32 else c)
    [([0xC4, 0xB1], 73), ([0xC5, 0xBF], 83)] 0 s

/-- `strings.EqualFold` against a word of digits and lower case letters. -/
def equalFold (a b : Str) : Bool := toLower a == toLower b

/-- `strings.Join` -/
def join (sep : Str) (parts : List Str) : Str := sep.intercalate parts

def bracketed (parts : List Str) : Str := lit "[" ++ join (lit " ") parts ++ lit "]"

def strLe : Str → Str → Bool
  | [], _ => true
  | _ :: _, [] => false
  | a :: as, b :: bs =>
      if a.toNat < b.toNat then true else if b.toNat < a.toNat then false else strLe as bs

/-- `sort.Strings` -/
def sortStrings (l : List Str) : List Str := l.insertionSort (fun a b => strLe a b = true)

/-- `sort.Ints` -/
def sortInts (l : List Int) : List Int := l.insertionSort (fun a b => a ≤ b)

example : atoi (lit "-42") = some (-42) := by decide

example : fields (lit " a  b ") = [lit "a", lit "b"] := by decide

theorem mem_flushField {field w : Str} (h : w ∈ flushField field) : w = field := by
  unfold flushField at h
  split at h
  · simp at h
  · exact List.mem_singleton.mp h

/-- No field holds a byte that is white space on its own. -/
theorem not_mem_fieldsFrom {c : UInt8} (hc : [c] ∈ spaces) (skip : ℕ) (field s : Str)
    (hfield : c ∉ field) : ∀ w ∈ fieldsFrom skip field s, c ∉ w := by
  fun_induction fieldsFrom skip field s with
  | case1 skip field =>
    intro w hw
    rwa [mem_flushField hw]
  | case2 field skip x rest ih => exact ih hfield
  | case3 field x rest w hfind ih =>
    intro v hv
    rcases List.mem_append.mp hv with hflush | hrest
    · rwa [mem_flushField hflush]
    · exact ih List.not_mem_nil v hrest
  | case4 field x rest hfind ih =>
    refine ih (fun hmem => ?_)
    rcases List.mem_append.mp hmem with hold | hnew
    · exact hfield hold
    · have hnone := List.find?_eq_none.mp hfind [c] hc
      rw [List.mem_singleton.mp hnew] at hnone
      simp at hnone

theorem not_mem_fields {c : UInt8} (hc : [c] ∈ spaces) {s w : Str} (hw : w ∈ fields s) : c ∉ w :=
  not_mem_fieldsFrom hc 0 [] s List.not_mem_nil w hw

theorem digitValue_glyph (d : ℕ) (h : d < 10) : digitValue (digitGlyph d) = some d := by
  interval_cases d <;> decide

theorem digitGlyph_range (d : ℕ) (h : d < 10) :
    48 ≤ (digitGlyph d).toNat ∧ (digitGlyph d).toNat ≤ 57 := by
  interval_cases d <;> decide

theorem hexGlyph_range (d : ℕ) (h : d < 16) :
    (48 ≤ (hexGlyph d).toNat ∧ (hexGlyph d).toNat ≤ 57) ∨
      (97 ≤ (hexGlyph d).toNat ∧ (hexGlyph d).toNat ≤ 102) := by
  interval_cases d <;> decide

/-- The numeral of a natural number has only decimal digits. -/
theorem mem_decimal (n : ℕ) (c : UInt8) (hc : c ∈ numeral 10 digitGlyph n) :
    48 ≤ c.toNat ∧ c.toNat ≤ 57 := by
  obtain ⟨d, hd, rfl⟩ := mem_numeral 10 (by omega) digitGlyph n c hc
  exact digitGlyph_range d hd

theorem mem_itoa (n : Int) (c : UInt8) (hc : c ∈ itoa n) :
    c = 45 ∨ (48 ≤ c.toNat ∧ c.toNat ≤ 57) := by
  unfold itoa at hc
  split at hc
  · rcases List.mem_cons.mp hc with rfl | hdigit
    · exact Or.inl rfl
    · exact Or.inr (mem_decimal n.natAbs c hdigit)
  · exact Or.inr (mem_decimal n.natAbs c hc)

theorem itoa_not_mem (n : Int) (c : UInt8) (h45 : c ≠ 45) (hdigit : c.toNat < 48 ∨ 57 < c.toNat) :
    c ∉ itoa n := by
  intro hc
  rcases mem_itoa n c hc with h | h
  · exact h45 h
  · omega

theorem mem_itoaPad6 (n : Int) (hn : 0 ≤ n) (c : UInt8) (hc : c ∈ itoaPad6 n) :
    48 ≤ c.toNat ∧ c.toNat ≤ 57 := by
  have hneg : ¬ n < 0 := by omega
  simp only [itoaPad6, hneg, ↓reduceIte] at hc
  obtain ⟨d, hd, rfl⟩ := mem_padLeft_numeral 10 (by omega) digitGlyph 6 n.natAbs c hc
  exact digitGlyph_range d hd

theorem mem_hexPad8 (n : ℕ) (c : UInt8) (hc : c ∈ hexPad8 n) :
    (48 ≤ c.toNat ∧ c.toNat ≤ 57) ∨ (97 ≤ c.toNat ∧ c.toNat ≤ 102) := by
  obtain ⟨d, hd, rfl⟩ := mem_padLeft_numeral 16 (by omega) hexGlyph 8 n c hc
  exact hexGlyph_range d hd

theorem length_itoa_le {n : Int} (h : InInt64 n) : (itoa n).length ≤ 20 := by
  unfold InInt64 at h
  have hdigits : (numeral 10 digitGlyph n.natAbs).length ≤ 19 :=
    length_numeral_le 10 (by omega) digitGlyph (by omega) (by omega)
  unfold itoa
  split
  · rw [List.length_cons]
    omega
  · omega

theorem length_hexPad8 {n : ℕ} (h : n < 2 ^ 32) : (hexPad8 n).length = 8 := by
  have hdigits : (numeral 16 hexGlyph n).length ≤ 8 :=
    length_numeral_le 16 (by omega) hexGlyph (by omega) (by omega)
  rw [hexPad8, padLeft, List.length_append, List.length_replicate]
  omega

theorem itoa_ne_nil (n : Int) : itoa n ≠ [] := by
  unfold itoa
  split
  · simp
  · exact numeral_ne_nil 10 (by omega) digitGlyph n.natAbs

theorem readSigned_digits (s : Str) (h : ∀ c ∈ s, 48 ≤ c.toNat ∧ c.toNat ≤ 57) :
    readSigned s = (readNumeral 10 digitValue s).map (fun n : ℕ => (n : Int)) := by
  unfold readSigned
  split
  · have := h 45 (List.mem_cons_self ..)
    simp at this
  · have := h 43 (List.mem_cons_self ..)
    simp at this
  · rfl

theorem readSigned_itoa (n : Int) : readSigned (itoa n) = some n := by
  have hread := readNumeral_numeral 10 (by omega) digitGlyph digitValue digitValue_glyph n.natAbs
  unfold itoa
  split
  · simp only [readSigned, hread, Option.map_some]
    congr 1
    omega
  · rw [readSigned_digits _ (mem_decimal n.natAbs), hread, Option.map_some]
    congr 1
    omega

/-- Printing an `int` and reading it back recovers it. -/
theorem atoi_itoa (n : Int) (h : InInt64 n) : atoi (itoa n) = some n := by
  simp [atoi, readSigned_itoa, h]

theorem readSigned_itoaPad6 (n : Int) : readSigned (itoaPad6 n) = some n := by
  have hread := fun width =>
    readNumeral_padLeft 10 (by omega) digitGlyph digitValue digitValue_glyph width n.natAbs
  by_cases hneg : n < 0
  · simp only [itoaPad6, hneg, ↓reduceIte, readSigned, hread, Option.map_some]
    congr 1
    omega
  · rw [readSigned_digits _ (mem_itoaPad6 n (by omega))]
    simp only [itoaPad6, hneg, ↓reduceIte, hread, Option.map_some]
    congr 1
    omega

theorem atoi_itoaPad6 (n : Int) (h : InInt64 n) : atoi (itoaPad6 n) = some n := by
  simp [atoi, readSigned_itoaPad6, h]

theorem itoa_injective (m n : Int) (h : itoa m = itoa n) : m = n := by
  have := congrArg readSigned h
  simpa [readSigned_itoa] using this

theorem strLe_total (a b : Str) : strLe a b = true ∨ strLe b a = true := by
  induction a generalizing b with
  | nil => exact Or.inl (by simp [strLe])
  | cons x a ih =>
    cases b with
    | nil => exact Or.inr (by simp [strLe])
    | cons y b =>
      have := ih b
      grind [strLe]

theorem strLe_trans (a b c : Str) (hab : strLe a b = true) (hbc : strLe b c = true) :
    strLe a c = true := by
  induction a generalizing b c with
  | nil => simp [strLe]
  | cons x a ih =>
    cases b with
    | nil => simp [strLe] at hab
    | cons y b =>
      cases c with
      | nil => simp [strLe] at hbc
      | cons z c =>
        have := ih b c
        grind [strLe]

theorem strLe_antisymm (a b : Str) (hab : strLe a b = true) (hba : strLe b a = true) : a = b := by
  induction a generalizing b with
  | nil =>
    cases b with
    | nil => rfl
    | cons y b => simp [strLe] at hba
  | cons x a ih =>
    cases b with
    | nil => simp [strLe] at hab
    | cons y b =>
      have heq : x.toNat = y.toNat ∧ strLe a b = true ∧ strLe b a = true := by grind [strLe]
      rw [UInt8.toNat_inj.mp heq.1, ih b heq.2.1 heq.2.2]

end Flux.GoStrings
