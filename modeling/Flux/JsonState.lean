import Flux.FiniteMap
import Flux.GoStrings

/-!
What a Go value looks like after `encoding/json` has written it and read it
back. Strings come back as valid UTF-8, every byte that belongs to no rune
replaced by U+FFFD. The keys of a map are written in sorted order, and of two
keys that have become equal the later one is kept.
-/
namespace Flux.JsonState

open GoStrings FiniteMap

def within (low high : ℕ) (b : UInt8) : Bool := decide (low ≤ b.toNat ∧ b.toNat ≤ high)

def startsThree (a b : UInt8) : Bool :=
  (within 0xE0 0xE0 a && within 0xA0 0xBF b) || (within 0xE1 0xEC a && within 0x80 0xBF b) ||
    (within 0xED 0xED a && within 0x80 0x9F b) || (within 0xEE 0xEF a && within 0x80 0xBF b)

def startsFour (a b : UInt8) : Bool :=
  (within 0xF0 0xF0 a && within 0x90 0xBF b) || (within 0xF1 0xF3 a && within 0x80 0xBF b) ||
    (within 0xF4 0xF4 a && within 0x80 0x8F b)

/-- The size `utf8.DecodeRune` gives a well-formed first rune, 0 for any other.
A byte past the end is read as 0xFF, which no rune contains. -/
def runeLength (s : Str) : ℕ :=
  let a := s.getD 0 0xFF
  let b := s.getD 1 0xFF
  let continues (b : UInt8) : Bool := within 0x80 0xBF b
  if within 0 0x7F a then 1
  else if within 0xC2 0xDF a && continues b then 2
  else if startsThree a b && continues (s.getD 2 0xFF) then 3
  else if startsFour a b && continues (s.getD 2 0xFF) && continues (s.getD 3 0xFF) then 4
  else 0

def replacementRune : Str := [0xEF, 0xBF, 0xBD]

def coerceFrom : ℕ → Str → Str
  | _, [] => []
  | inside + 1, b :: rest => b :: coerceFrom inside rest
  | 0, b :: rest =>
      match runeLength (b :: rest) with
      | 0 => replacementRune ++ coerceFrom 0 rest
      | more + 1 => b :: coerceFrom more rest

def coerce (s : Str) : Str := coerceFrom 0 s

/-- A string that comes back as it was. -/
def ValidText (s : Str) : Prop := coerce s = s

instance (s : Str) : Decidable (ValidText s) := inferInstanceAs (Decidable (coerce s = s))

variable {V W : Type}

def putKey (f : V → W) (m : FMap Str V) (acc : FMap Str W) (key : Str) : FMap Str W :=
  match m.get key with
  | none => acc
  | some v => acc.set (coerce key) (f v)

def jsonMap (f : V → W) (m : FMap Str V) : FMap Str W :=
  (sortStrings m.keys).foldl (putKey f m) FMap.empty

theorem get_foldl_putKey (f : V → W) (m : FMap Str V) (keys : List Str)
    (hvalid : ∀ key ∈ keys, ValidText key) (hsome : ∀ key ∈ keys, (m.get key).isSome)
    (acc : FMap Str W) (key : Str) :
    (keys.foldl (putKey f m) acc).get key =
      if key ∈ keys then (m.get key).map f else acc.get key := by
  induction keys generalizing acc with
  | nil => simp
  | cons first rest ih =>
    rw [List.foldl_cons, ih (fun k hk => hvalid k (List.mem_cons_of_mem _ hk))
      (fun k hk => hsome k (List.mem_cons_of_mem _ hk))]
    obtain ⟨v, hv⟩ := Option.isSome_iff_exists.mp (hsome first (List.mem_cons_self ..))
    have hput : putKey f m acc first = acc.set first (f v) := by
      have hname : coerce first = first := hvalid first (List.mem_cons_self ..)
      simp [putKey, hv, hname]
    rw [hput]
    by_cases hrest : key ∈ rest
    · simp [hrest]
    · by_cases hkey : key = first
      · simp [hkey, hv]
      · simp [hrest, hkey]

/-- What a map is read back with was written for some key. -/
theorem exists_of_get_jsonMap (f : V → W) (m : FMap Str V) {key : Str} {w : W}
    (h : (jsonMap f m).get key = some w) :
    ∃ key' v, m.get key' = some v ∧ coerce key' = key ∧ f v = w := by
  have hfold : ∀ (keys : List Str) (acc : FMap Str W),
      (keys.foldl (putKey f m) acc).get key = some w → acc.get key = some w ∨
        ∃ key' v, m.get key' = some v ∧ coerce key' = key ∧ f v = w := by
    intro keys
    induction keys with
    | nil => exact fun acc hacc => Or.inl hacc
    | cons first rest ih =>
      intro acc hacc
      rcases ih _ hacc with hput | hlater
      · unfold putKey at hput
        split at hput
        · exact Or.inl hput
        · rename_i v hv
          by_cases hkey : key = coerce first
          · rw [hkey, FMap.get_set_self, Option.some.injEq] at hput
            exact Or.inr ⟨first, v, hv, hkey.symm, hput⟩
          · rw [FMap.get_set_ne _ _ hkey] at hput
            exact Or.inl hput
      · exact Or.inr hlater
  rcases hfold _ _ h with hempty | hfound
  · simp at hempty
  · exact hfound

theorem coerceFrom_ascii {s t : Str} {inside : ℕ} (ht : ∀ b ∈ t, b.toNat < 0x80)
    (h : coerceFrom inside s = t) : s = t := by
  induction s generalizing t inside with
  | nil => simpa [coerceFrom] using h
  | cons b rest ih =>
    have hcons : ∀ more, b :: coerceFrom more rest = t → b :: rest = t := by
      rintro more rfl
      rw [← ih (fun c hc => ht c (List.mem_cons_of_mem _ hc)) rfl]
    cases inside with
    | succ more => exact hcons more h
    | zero =>
      unfold coerceFrom at h
      split at h
      · subst h
        exact absurd (ht 0xEF (by simp [replacementRune])) (by decide)
      · exact hcons _ h

/-- Only the text itself comes back as a text of ASCII characters. -/
theorem coerce_eq_iff_of_ascii {s t : Str} (ht : ∀ b ∈ t, b.toNat < 0x80) (hvalid : ValidText t) :
    coerce s = t ↔ s = t := by
  constructor
  · exact coerceFrom_ascii ht
  · rintro rfl
    exact hvalid

/-- A map whose keys are valid text keeps them. -/
theorem get_jsonMap (f : V → W) (m : FMap Str V)
    (hvalid : ∀ key, (m.get key).isSome → ValidText key) (key : Str) :
    (jsonMap f m).get key = (m.get key).map f := by
  have hkeys : ∀ k, k ∈ sortStrings m.keys ↔ (m.get k).isSome := by
    intro k
    rw [sortStrings, List.mem_insertionSort, FMap.mem_keys_iff, Option.isSome_iff_exists]
  unfold jsonMap
  rw [get_foldl_putKey f m _ (fun k hk => hvalid k ((hkeys k).mp hk))
    (fun k hk => (hkeys k).mp hk)]
  by_cases hkey : (m.get key).isSome
  · rw [if_pos ((hkeys key).mpr hkey)]
  · rw [if_neg (fun h => hkey ((hkeys key).mp h))]
    simp only [Bool.not_eq_true, Option.isSome_eq_false_iff, Option.isNone_iff_eq_none] at hkey
    rw [hkey, FMap.get_empty]
    rfl

end Flux.JsonState
