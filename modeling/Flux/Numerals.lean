import Mathlib.Data.Nat.Digits.Lemmas

/-!
Positional numerals over an arbitrary alphabet. `glyph` writes one digit and
`value` reads one; they agree on the digits below the base. Writing a number
and reading it back recovers it, with any number of leading zero glyphs.
-/
namespace Flux.Numerals

variable {α : Type}

def numeral (b : ℕ) (glyph : ℕ → α) (n : ℕ) : List α :=
  if n = 0 then [glyph 0] else ((Nat.digits b n).reverse).map glyph

def readNumeral (b : ℕ) (value : α → Option ℕ) (word : List α) : Option ℕ :=
  if word.isEmpty then none
  else (word.mapM value).map (fun digits => Nat.ofDigits b digits.reverse)

def padLeft (width : ℕ) (pad : α) (word : List α) : List α :=
  List.replicate (width - word.length) pad ++ word

theorem mapM_map_glyph (glyph : ℕ → α) (value : α → Option ℕ) (digits : List ℕ)
    (h : ∀ d ∈ digits, value (glyph d) = some d) :
    (digits.map glyph).mapM value = some digits := by
  induction digits with
  | nil => rfl
  | cons d rest ih =>
    have hd : value (glyph d) = some d := h d (List.mem_cons_self ..)
    have hrest := ih (fun e he => h e (List.mem_cons_of_mem _ he))
    simp [List.mapM_cons, hd, hrest]

theorem numeral_eq_map (b : ℕ) (hb : 1 < b) (glyph : ℕ → α) (n : ℕ) :
    ∃ digits : List ℕ, digits ≠ [] ∧ (∀ d ∈ digits, d < b) ∧
      Nat.ofDigits b digits.reverse = n ∧ numeral b glyph n = digits.map glyph := by
  by_cases hn : n = 0
  · subst hn
    refine ⟨[0], by simp, ?_, by simp, by simp [numeral]⟩
    intro d hd
    simp only [List.mem_singleton] at hd
    omega
  · refine ⟨(Nat.digits b n).reverse, ?_, ?_, ?_, by simp [numeral, hn]⟩
    · simpa [Nat.digits_eq_nil_iff_eq_zero] using hn
    · intro d hd
      exact Nat.digits_lt_base hb (List.mem_reverse.mp hd)
    · rw [List.reverse_reverse, Nat.ofDigits_digits]

theorem numeral_ne_nil (b : ℕ) (hb : 1 < b) (glyph : ℕ → α) (n : ℕ) : numeral b glyph n ≠ [] := by
  obtain ⟨digits, hne, _, _, heq⟩ := numeral_eq_map b hb glyph n
  rw [heq]
  simpa using hne

theorem length_numeral_le (b : ℕ) (hb : 1 < b) (glyph : ℕ → α) {n k : ℕ} (hk : 0 < k)
    (h : n < b ^ k) : (numeral b glyph n).length ≤ k := by
  unfold numeral
  split
  · exact hk
  · rw [List.length_map, List.length_reverse]
    exact (Nat.digits_length_le_iff hb n).mpr h

theorem mem_numeral (b : ℕ) (hb : 1 < b) (glyph : ℕ → α) (n : ℕ) (x : α)
    (hx : x ∈ numeral b glyph n) : ∃ d, d < b ∧ x = glyph d := by
  obtain ⟨digits, _, hlt, _, heq⟩ := numeral_eq_map b hb glyph n
  rw [heq] at hx
  obtain ⟨d, hd, rfl⟩ := List.mem_map.mp hx
  exact ⟨d, hlt d hd, rfl⟩

/-- Leading zero glyphs do not change the number that is read. -/
theorem readNumeral_zeros_numeral (b : ℕ) (hb : 1 < b) (glyph : ℕ → α) (value : α → Option ℕ)
    (hval : ∀ d, d < b → value (glyph d) = some d) (k n : ℕ) :
    readNumeral b value (List.replicate k (glyph 0) ++ numeral b glyph n) = some n := by
  obtain ⟨digits, hne, hlt, hof, heq⟩ := numeral_eq_map b hb glyph n
  have hword : List.replicate k (glyph 0) ++ numeral b glyph n =
      (List.replicate k 0 ++ digits).map glyph := by
    rw [heq, List.map_append, List.map_replicate]
  have hread := mapM_map_glyph glyph value (List.replicate k 0 ++ digits) (by
    intro d hd
    rcases List.mem_append.mp hd with hzero | hdigit
    · rw [List.eq_of_mem_replicate hzero]
      exact hval 0 (by omega)
    · exact hval d (hlt d hdigit))
  have hempty : ((List.replicate k 0 ++ digits).map glyph).isEmpty = false := by
    simp [hne]
  rw [hword, readNumeral, hempty, hread]
  simp [List.reverse_append, Nat.ofDigits_append_replicate_zero, hof]

theorem readNumeral_numeral (b : ℕ) (hb : 1 < b) (glyph : ℕ → α) (value : α → Option ℕ)
    (hval : ∀ d, d < b → value (glyph d) = some d) (n : ℕ) :
    readNumeral b value (numeral b glyph n) = some n := by
  simpa using readNumeral_zeros_numeral b hb glyph value hval 0 n

/-- Without a leading zero, digits are the numeral of the number they stand for. -/
theorem map_eq_numeral (b : ℕ) (hb : 1 < b) (glyph : ℕ → α) (first : ℕ) (rest : List ℕ)
    (hlt : ∀ d ∈ first :: rest, d < b) (hfirst : first ≠ 0) :
    (first :: rest).map glyph = numeral b glyph (Nat.ofDigits b (first :: rest).reverse) := by
  have hdigits : Nat.digits b (Nat.ofDigits b (first :: rest).reverse) =
      (first :: rest).reverse := by
    refine Nat.digits_ofDigits b hb _ (fun d hd => hlt d (List.mem_reverse.mp hd)) (fun hne => ?_)
    simpa using hfirst
  have hpos : Nat.ofDigits b (first :: rest).reverse ≠ 0 := by
    intro hzero
    rw [hzero, Nat.digits_zero] at hdigits
    simp at hdigits
  rw [numeral, if_neg hpos, hdigits, List.reverse_reverse]

/-- The digits of a positive number. -/
theorem numeral_eq_cons (b : ℕ) (hb : 1 < b) (glyph : ℕ → α) {n : ℕ} (hn : n ≠ 0) :
    ∃ first rest, first ≠ 0 ∧ (∀ d ∈ first :: rest, d < b) ∧
      numeral b glyph n = (first :: rest).map glyph := by
  have hne : (Nat.digits b n).reverse ≠ [] := by
    simpa [Nat.digits_eq_nil_iff_eq_zero] using hn
  obtain ⟨first, rest, hcons⟩ := List.exists_cons_of_ne_nil hne
  refine ⟨first, rest, ?_, fun d hd => ?_, by rw [numeral, if_neg hn, hcons]⟩
  · have hlast := Nat.getLast_digit_ne_zero b hn
    have hhead : (Nat.digits b n).getLast? = some first := by
      rw [← List.head?_reverse, hcons, List.head?_cons]
    rw [List.getLast?_eq_some_getLast (by simpa [Nat.digits_eq_nil_iff_eq_zero] using hn)] at hhead
    rwa [← Option.some.inj hhead]
  · rw [← hcons] at hd
    exact Nat.digits_lt_base hb (List.mem_reverse.mp hd)

theorem readNumeral_padLeft (b : ℕ) (hb : 1 < b) (glyph : ℕ → α) (value : α → Option ℕ)
    (hval : ∀ d, d < b → value (glyph d) = some d) (width n : ℕ) :
    readNumeral b value (padLeft width (glyph 0) (numeral b glyph n)) = some n :=
  readNumeral_zeros_numeral b hb glyph value hval _ n

theorem mem_padLeft_numeral (b : ℕ) (hb : 1 < b) (glyph : ℕ → α) (width n : ℕ) (x : α)
    (hx : x ∈ padLeft width (glyph 0) (numeral b glyph n)) : ∃ d, d < b ∧ x = glyph d := by
  rcases List.mem_append.mp hx with hpad | hnum
  · exact ⟨0, by omega, List.eq_of_mem_replicate hpad⟩
  · exact mem_numeral b hb glyph n x hnum

end Flux.Numerals
