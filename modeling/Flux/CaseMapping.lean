import Flux.WhiteSpace

/-!
Trimming and upper-casing byte strings. A trimmed string neither starts nor ends
with white space, and trimming it again changes nothing. Upper-casing touches
letters only, so it neither makes nor moves white space and separators, and a
string that it gives stays as it is when it is upper-cased again.
-/
namespace Flux.CaseMapping

open GoStrings WhiteSpace

variable {runes : List Str} {s : Str}

/-- What is left after dropping runes is an end of the string that starts with none. -/
theorem dropRunes_spec (hrunes : ∀ w ∈ runes, w ≠ []) (s : Str) :
    dropRunes runes 0 s <:+ s ∧ ∀ w ∈ runes, ¬ w <+: dropRunes runes 0 s := by
  induction hn : s.length using Nat.strong_induction_on generalizing s with
  | h n ih =>
    by_cases hclear : ∀ w ∈ runes, ¬ w <+: s
    · rw [dropRunes_eq_self hclear]
      exact ⟨List.suffix_rfl, hclear⟩
    · cases s with
      | nil => exact absurd (fun w hw h => hrunes w hw (List.prefix_nil.mp h)) hclear
      | cons c s =>
        cases hfind : runes.find? (fun w => w.isPrefixOf (c :: s)) with
        | none =>
          refine absurd (fun w hw h => ?_) hclear
          exact List.find?_eq_none.mp hfind w hw (List.isPrefixOf_iff_prefix.mpr h)
        | some w =>
          obtain ⟨hw, rest, hrest⟩ := find_prefix hfind
          obtain ⟨x, ws, rfl⟩ := List.exists_cons_of_ne_nil (hrunes w hw)
          rw [List.cons_append] at hrest
          obtain ⟨-, rfl⟩ := List.cons.inj hrest
          have hdrop : dropRunes runes 0 (c :: (ws ++ rest)) = dropRunes runes 0 rest := by
            rw [dropRunes, hfind]
            exact dropRunes_skip runes ws rest
          have hshorter : rest.length < n := by
            rw [List.length_cons, List.length_append] at hn
            omega
          obtain ⟨hsuffix, hstart⟩ := ih rest.length hshorter rest rfl
          rw [hdrop]
          exact ⟨hsuffix.trans ⟨c :: ws, rfl⟩, hstart⟩

theorem reverse_prefix_of_map :
    (∀ v ∈ runes.map List.reverse, ¬ v <+: s.reverse) ↔ ∀ w ∈ runes, ¬ w <:+ s := by
  simp only [List.mem_map, forall_exists_index, and_imp, forall_apply_eq_imp_iff₂,
    List.reverse_prefix]

/-- Trimming leaves a part of the string that neither starts nor ends with white space. -/
theorem trimSpace_spec (s : Str) : trimSpace s <:+: s ∧
    (∀ w ∈ spaces, ¬ w <+: trimSpace s) ∧ ∀ w ∈ spaces, ¬ w <:+ trimSpace s := by
  obtain ⟨hleft, hstart⟩ := dropRunes_spec (fun _ hw => spaces_ne_nil hw) (s := s)
  obtain ⟨hright, hend⟩ := dropRunes_spec (fun _ hv => reversed_ne_nil hv)
    (s := (trimLeft s).reverse)
  have hfront : trimSpace s <+: trimLeft s := by
    rw [← List.reverse_suffix, trimSpace, trimRight, List.reverse_reverse]
    exact hright
  refine ⟨hfront.isInfix.trans hleft.isInfix, fun w hw h => hstart w hw (h.trans hfront), ?_⟩
  rw [← reverse_prefix_of_map, trimSpace, trimRight, List.reverse_reverse]
  exact hend

theorem trimSpace_eq_self_iff (s : Str) : trimSpace s = s ↔
    (∀ w ∈ spaces, ¬ w <+: s) ∧ ∀ w ∈ spaces, ¬ w <:+ s := by
  constructor
  · intro h
    rw [← h]
    exact (trimSpace_spec s).2
  · rintro ⟨hstart, hend⟩
    rw [trimSpace, trimLeft, dropRunes_eq_self hstart, trimRight,
      dropRunes_eq_self (reverse_prefix_of_map.mpr hend), List.reverse_reverse]

theorem trimSpace_trimSpace (s : Str) : trimSpace (trimSpace s) = trimSpace s :=
  (trimSpace_eq_self_iff _).mpr (trimSpace_spec s).2

/-- What the request parser needs of `strings.ToUpper`. -/
structure UpperCase (upper : Str → Str) : Prop where
  again : ∀ s, upper (upper s) = upper s
  trimmed : ∀ s, trimSpace s = s → trimSpace (upper s) = upper s
  bar : ∀ s, (124 : UInt8) ∉ s → (124 : UInt8) ∉ upper s

def upperByte (c : UInt8) : UInt8 := if 97 ≤ c.toNat ∧ c.toNat ≤ 122 then c - 32 else c

def foreignLower : List (Str × UInt8) := [([0xC4, 0xB1], 73), ([0xC5, 0xBF], 83)]

theorem toUpper_eq (s : Str) : toUpper s = mapCase upperByte foreignLower 0 s := rfl

theorem mapCase_skip (ascii : UInt8 → UInt8) (foreign : List (Str × UInt8)) (front rest : Str) :
    mapCase ascii foreign front.length (front ++ rest) = mapCase ascii foreign 0 rest := by
  induction front with
  | nil => rfl
  | cons c front ih => exact ih

/-- Upper-casing goes rune by rune: it replaces a foreign letter or one byte. -/
theorem toUpper_cases (s : Str) : s = [] ∨
    (∃ w ∈ foreignLower, ∃ rest, s = w.1 ++ rest ∧ toUpper s = w.2 :: toUpper rest) ∨
    ∃ c rest, s = c :: rest ∧ toUpper s = upperByte c :: toUpper rest := by
  cases s with
  | nil => exact Or.inl rfl
  | cons c s =>
    refine Or.inr ?_
    cases hfind : foreignLower.find? (fun w => w.1.isPrefixOf (c :: s)) with
    | none => exact Or.inr ⟨c, s, rfl, by rw [toUpper_eq, mapCase, hfind, toUpper_eq]⟩
    | some w =>
      have hw := List.mem_of_find?_eq_some hfind
      have hstart : w.1.isPrefixOf (c :: s) = true := by simpa using List.find?_some hfind
      obtain ⟨rest, hrest⟩ := List.isPrefixOf_iff_prefix.mp hstart
      have hne : ∀ w ∈ foreignLower, w.1 ≠ [] := by decide
      obtain ⟨x, ws, hws⟩ := List.exists_cons_of_ne_nil (hne w hw)
      refine Or.inl ⟨w, hw, rest, hrest.symm, ?_⟩
      rw [hws, List.cons_append] at hrest
      obtain ⟨-, rfl⟩ := List.cons.inj hrest
      rw [toUpper_eq, mapCase, hfind]
      dsimp only
      rw [hws]
      exact congrArg (List.cons w.2) (mapCase_skip upperByte foreignLower ws rest)

/-- An induction over the runes of a string as upper-casing meets them. -/
theorem toUpper_induct {motive : Str → Prop} (nil : motive [])
    (foreign : ∀ w ∈ foreignLower, ∀ rest, toUpper (w.1 ++ rest) = w.2 :: toUpper rest →
      motive rest → motive (w.1 ++ rest))
    (byte : ∀ c rest, toUpper (c :: rest) = upperByte c :: toUpper rest → motive rest →
      motive (c :: rest)) (s : Str) : motive s := by
  induction hn : s.length using Nat.strong_induction_on generalizing s with
  | h n ih =>
    rcases toUpper_cases s with rfl | ⟨w, hw, rest, rfl, hupper⟩ | ⟨c, rest, rfl, hupper⟩
    · exact nil
    · have hne : ∀ w ∈ foreignLower, 0 < w.1.length := by decide
      have hpos := hne w hw
      rw [List.length_append] at hn
      exact foreign w hw rest hupper (ih rest.length (by omega) rest rfl)
    · rw [List.length_cons] at hn
      exact byte c rest hupper (ih rest.length (by omega) rest rfl)

def Neutral (b : UInt8) : Prop :=
  (∀ c, upperByte c = b → c = b) ∧ ∀ w ∈ foreignLower, w.2 ≠ b

theorem toNat_sub_letter {c : UInt8} (h : 97 ≤ c.toNat) : (c - 32).toNat = c.toNat - 32 := by
  refine UInt8.toNat_sub_of_le c 32 ?_
  rw [UInt8.le_iff_toNat_le]
  exact (by decide : (32 : UInt8).toNat ≤ 97).trans h

theorem neutral_of_not_letter {b : UInt8} (h : b.toNat < 65 ∨ 90 < b.toNat)
    (hlower : b.toNat < 97 ∨ 122 < b.toNat) : Neutral b := by
  constructor
  · intro c hc
    unfold upperByte at hc
    split at hc
    · rename_i hletter
      have hsub := toNat_sub_letter hletter.1
      rw [hc] at hsub
      omega
    · exact hc
  · have hall : ∀ w ∈ foreignLower, 65 ≤ w.2.toNat ∧ w.2.toNat ≤ 90 := by decide
    intro w hw heq
    have := hall w hw
    rw [heq] at this
    omega

/-- Neutral bytes at the start of the result stand at the start of the string. -/
theorem toUpper_eq_append {front rest : Str} (hfront : ∀ b ∈ front, Neutral b)
    (h : toUpper s = front ++ rest) : ∃ tail, s = front ++ tail ∧ toUpper tail = rest := by
  induction front generalizing s with
  | nil => exact ⟨s, rfl, h⟩
  | cons b front ih =>
    have hb := hfront b (List.mem_cons_self ..)
    rw [List.cons_append] at h
    rcases toUpper_cases s with rfl | ⟨w, hw, tail, rfl, hupper⟩ | ⟨c, tail, rfl, hupper⟩
    · cases h
    · rw [hupper] at h
      exact absurd (List.cons.inj h).1 (hb.2 w hw)
    · rw [hupper] at h
      obtain ⟨hc, htail⟩ := List.cons.inj h
      obtain ⟨last, rfl, hlast⟩ := ih (fun x hx => hfront x (List.mem_cons_of_mem _ hx)) htail
      exact ⟨last, by rw [hb.1 c hc, List.cons_append], hlast⟩

theorem toUpper_eq_nil (h : toUpper s = []) : s = [] := by
  rcases toUpper_cases s with hnil | ⟨w, hw, rest, rfl, hupper⟩ | ⟨c, rest, rfl, hupper⟩
  · exact hnil
  · rw [hupper] at h
    cases h
  · rw [hupper] at h
    cases h

/-- An end of the result comes from an end of the string. -/
theorem suffix_toUpper {t : Str} (h : t <:+ toUpper s) : ∃ u, u <:+ s ∧ toUpper u = t := by
  induction s using toUpper_induct with
  | nil => exact ⟨[], List.suffix_rfl, (List.suffix_nil.mp h).symm⟩
  | foreign w hw rest hupper ih =>
    rw [hupper, List.suffix_cons_iff] at h
    rcases h with rfl | hrest
    · exact ⟨w.1 ++ rest, List.suffix_rfl, hupper⟩
    · obtain ⟨u, hu, ht⟩ := ih hrest
      exact ⟨u, hu.trans (List.suffix_append _ _), ht⟩
  | byte c rest hupper ih =>
    rw [hupper, List.suffix_cons_iff] at h
    rcases h with rfl | hrest
    · exact ⟨c :: rest, List.suffix_rfl, hupper⟩
    · obtain ⟨u, hu, ht⟩ := ih hrest
      exact ⟨u, hu.trans (List.suffix_cons c rest), ht⟩

def noLetter (b : UInt8) : Bool :=
  (b.toNat < 65 || 90 < b.toNat) && (b.toNat < 97 || 122 < b.toNat)

theorem neutral_of_all {bytes : Str} (h : bytes.all noLetter = true) : ∀ b ∈ bytes, Neutral b := by
  intro b hb
  have hletter := List.all_eq_true.mp h b hb
  simp only [noLetter, Bool.and_eq_true, Bool.or_eq_true, decide_eq_true_eq] at hletter
  exact neutral_of_not_letter hletter.1 hletter.2

theorem neutral_of_mem_space {w : Str} (hw : w ∈ spaces) : ∀ b ∈ w, Neutral b := by
  have hall : ∀ w ∈ spaces, w.all noLetter = true := by decide
  exact neutral_of_all (hall w hw)

theorem trimSpace_toUpper (h : trimSpace s = s) : trimSpace (toUpper s) = toUpper s := by
  rw [trimSpace_eq_self_iff] at h ⊢
  refine ⟨fun w hw hstart => ?_, fun w hw hend => ?_⟩
  · obtain ⟨rest, hrest⟩ := hstart
    obtain ⟨tail, rfl, -⟩ := toUpper_eq_append (neutral_of_mem_space hw) hrest.symm
    exact h.1 w hw (List.prefix_append w tail)
  · obtain ⟨u, hu, hupper⟩ := suffix_toUpper hend
    rw [← List.append_nil w] at hupper
    obtain ⟨tail, rfl, htail⟩ := toUpper_eq_append (neutral_of_mem_space hw) hupper
    rw [toUpper_eq_nil htail, List.append_nil] at hu
    exact h.2 w hw hu

theorem bar_toUpper (h : (124 : UInt8) ∉ s) : (124 : UInt8) ∉ toUpper s := by
  have hneutral : Neutral 124 := neutral_of_not_letter (by decide) (by decide)
  induction s using toUpper_induct with
  | nil => exact List.not_mem_nil
  | foreign w hw rest hupper ih =>
    rw [hupper, List.mem_cons, not_or]
    exact ⟨Ne.symm (hneutral.2 w hw), ih (fun hmem => h (List.mem_append_right _ hmem))⟩
  | byte c rest hupper ih =>
    rw [hupper, List.mem_cons, not_or]
    refine ⟨fun hc => ?_, ih (fun hmem => h (List.mem_cons_of_mem _ hmem))⟩
    rw [hneutral.1 c hc.symm] at h
    exact h (List.mem_cons_self ..)

theorem upperByte_upperByte (c : UInt8) : upperByte (upperByte c) = upperByte c := by
  by_cases hletter : 97 ≤ c.toNat ∧ c.toNat ≤ 122
  · have hsub := toNat_sub_letter hletter.1
    have hupper : upperByte c = c - 32 := if_pos hletter
    rw [hupper]
    exact if_neg (by omega)
  · have hsame : upperByte c = c := if_neg hletter
    rw [hsame, hsame]

/-- No foreign letter is left in the result. -/
theorem foreign_not_prefix_toUpper {w : Str × UInt8} (hw : w ∈ foreignLower) (s : Str) :
    ¬ w.1 <+: toUpper s := by
  have hall : ∀ w ∈ foreignLower, w.1.all noLetter = true := by decide
  rintro ⟨rest, hrest⟩
  obtain ⟨tail, rfl, -⟩ := toUpper_eq_append (neutral_of_all (hall w hw)) hrest.symm
  have hfound : ∀ w ∈ foreignLower, toUpper (w.1 ++ tail) = w.2 :: toUpper tail := by
    intro w hw
    simp only [foreignLower, List.mem_cons, List.not_mem_nil, or_false] at hw
    rcases hw with rfl | rfl
    · rfl
    · rfl
  have hhead : ∀ w ∈ foreignLower, w.1.head? ≠ some w.2 := by decide
  obtain ⟨b, ws, hb⟩ : ∃ b ws, w.1 = b :: ws := by
    have hne : ∀ w ∈ foreignLower, w.1 ≠ [] := by decide
    exact List.exists_cons_of_ne_nil (hne w hw)
  rw [hfound w hw, hb, List.cons_append] at hrest
  refine hhead w hw ?_
  rw [hb, List.head?_cons, (List.cons.inj hrest).1]

theorem toUpper_cons_of_not_foreign {c : UInt8} (h : ∀ w ∈ foreignLower, ¬ w.1 <+: c :: s) :
    toUpper (c :: s) = upperByte c :: toUpper s := by
  rcases toUpper_cases (c :: s) with hnil | ⟨w, hw, rest, hs, -⟩ | ⟨c', rest, hs, hupper⟩
  · cases hnil
  · exact absurd ⟨rest, hs.symm⟩ (h w hw)
  · obtain ⟨rfl, rfl⟩ := List.cons.inj hs
    exact hupper

theorem toUpper_toUpper (s : Str) : toUpper (toUpper s) = toUpper s := by
  induction s using toUpper_induct with
  | nil => rfl
  | foreign w hw rest hupper ih =>
    have hclear : ∀ v ∈ foreignLower, ¬ v.1 <+: w.2 :: toUpper rest := by
      intro v hv
      rw [← hupper]
      exact foreign_not_prefix_toUpper hv _
    have hfixed : ∀ w ∈ foreignLower, upperByte w.2 = w.2 := by decide
    rw [hupper, toUpper_cons_of_not_foreign hclear, ih, hfixed w hw]
  | byte c rest hupper ih =>
    have hclear : ∀ v ∈ foreignLower, ¬ v.1 <+: upperByte c :: toUpper rest := by
      intro v hv
      rw [← hupper]
      exact foreign_not_prefix_toUpper hv _
    rw [hupper, toUpper_cons_of_not_foreign hclear, ih, upperByte_upperByte]

theorem upperCase_toUpper : UpperCase toUpper where
  again := toUpper_toUpper
  trimmed _ := trimSpace_toUpper
  bar _ := bar_toUpper

end Flux.CaseMapping
