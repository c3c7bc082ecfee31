import Flux.GoStrings
import Mathlib.Data.List.Find

/-!
White space in byte strings. The encodings of white space runes cannot overlap,
so a string that is cut at one of them falls into the words before it and the
words after it, trimming does not change the words, and a word never holds white
space itself.
-/
namespace Flux.WhiteSpace

open GoStrings

variable {s v w : Str} {c letter : UInt8}

theorem spaces_ne_nil (h : w ∈ spaces) : w ≠ [] := by
  intro hnil
  rw [hnil] at h
  exact absurd h (by decide)

theorem spaces_prefix_eq (hv : v ∈ spaces) (hw : w ∈ spaces) (h : v <+: w) : v = w := by
  have hall : ∀ v ∈ spaces, ∀ w ∈ spaces, v <+: w → v = w := by decide
  exact hall v hv w hw h

/-- The encoding of one rune does not start inside that of another. -/
theorem head_not_mem_tail (hv : v ∈ spaces) (hw : w ∈ spaces) (hc : w.head? = some c) :
    c ∉ v.tail := by
  have hall : ∀ v ∈ spaces, ∀ w ∈ spaces, w.headD 0 ∉ v.tail := by decide
  have hhead : w.headD 0 = c := by rw [List.headD_eq_head?_getD, hc, Option.getD_some]
  exact hhead ▸ hall v hv w hw

theorem dropRunes_eq_self {runes : List Str} (h : ∀ w ∈ runes, ¬ w <+: s) :
    dropRunes runes 0 s = s := by
  cases s with
  | nil => rfl
  | cons c s =>
    have hnone : runes.find? (fun w => w.isPrefixOf (c :: s)) = none := by
      rw [List.find?_eq_none]
      intro w hw hstart
      exact h w hw (List.isPrefixOf_iff_prefix.mp hstart)
    rw [dropRunes, hnone]

/-- What a search for a rune at the start of a string finds. -/
theorem find_prefix {runes : List Str} (h : runes.find? (fun w => w.isPrefixOf s) = some v) :
    v ∈ runes ∧ v <+: s := by
  have hstart : v.isPrefixOf s = true := by
    have := List.find?_some h
    simpa using this
  exact ⟨List.mem_of_find?_eq_some h, List.isPrefixOf_iff_prefix.mp hstart⟩

theorem find_space (hw : w ∈ spaces) (rest : Str) :
    spaces.find? (fun v => v.isPrefixOf (w ++ rest)) = some w := by
  cases hfind : spaces.find? (fun v => v.isPrefixOf (w ++ rest)) with
  | none =>
    have hnot := List.find?_eq_none.mp hfind w hw
    exact absurd (List.isPrefixOf_iff_prefix.mpr (List.prefix_append w rest)) hnot
  | some v =>
    obtain ⟨hv, hstarts⟩ := find_prefix hfind
    rcases List.prefix_or_prefix_of_prefix hstarts (List.prefix_append w rest) with h | h
    · rw [spaces_prefix_eq hv hw h]
    · rw [spaces_prefix_eq hw hv h]

/-- White space after a string is not found in its beginning. -/
theorem find_none_append (hw : w ∈ spaces)
    (h : spaces.find? (fun v => v.isPrefixOf (c :: s)) = none) (rest : Str) :
    spaces.find? (fun v => v.isPrefixOf (c :: s ++ (w ++ rest))) = none := by
  rw [List.find?_eq_none] at h ⊢
  intro v hv hstart
  have hstarts := List.isPrefixOf_iff_prefix.mp hstart
  rcases List.prefix_or_prefix_of_prefix hstarts (List.prefix_append (c :: s) (w ++ rest)) with
    hin | ⟨tail, rfl⟩
  · exact h v hv (List.isPrefixOf_iff_prefix.mpr hin)
  · obtain ⟨x, ws, rfl⟩ := List.exists_cons_of_ne_nil (spaces_ne_nil hw)
    rw [List.prefix_append_right_inj] at hstarts
    cases tail with
    | nil =>
      rw [List.append_nil] at hv
      exact h _ hv (List.isPrefixOf_iff_prefix.mpr (List.prefix_refl _))
    | cons y tail =>
      rw [List.cons_append, List.cons_prefix_cons] at hstarts
      refine head_not_mem_tail hv hw (c := x) rfl ?_
      rw [← hstarts.1]
      simp

theorem fieldsFrom_skip (front rest field : Str) :
    fieldsFrom front.length field (front ++ rest) = fieldsFrom 0 field rest := by
  induction front with
  | nil => rfl
  | cons c front ih => exact ih

theorem fieldsFrom_space (hw : w ∈ spaces) (field rest : Str) :
    fieldsFrom 0 field (w ++ rest) = flushField field ++ fields rest := by
  have hfind := find_space hw rest
  obtain ⟨x, ws, rfl⟩ := List.exists_cons_of_ne_nil (spaces_ne_nil hw)
  rw [List.cons_append] at hfind ⊢
  rw [fieldsFrom, hfind]
  exact congrArg (flushField field ++ ·) (fieldsFrom_skip ws rest [])

/-- White space ends a field. -/
theorem fieldsFrom_append_space (hw : w ∈ spaces) (rest : Str) (skip : ℕ) (field s : Str)
    (hskip : skip ≤ s.length) :
    fieldsFrom skip field (s ++ (w ++ rest)) = fieldsFrom skip field s ++ fields rest := by
  fun_induction fieldsFrom skip field s with
  | case1 skip field =>
    obtain rfl := Nat.le_zero.mp hskip
    exact fieldsFrom_space hw field rest
  | case2 field skip c s ih => exact ih (by simpa using hskip)
  | case3 field c s v hfind ih =>
    obtain ⟨hv, tail, htail⟩ := find_prefix hfind
    have hlength : v.length - 1 ≤ s.length := by
      have := congrArg List.length htail
      simp only [List.length_append, List.length_cons] at this
      omega
    have hagain : spaces.find? (fun v => v.isPrefixOf (c :: (s ++ (w ++ rest)))) = some v := by
      rw [← List.cons_append, ← htail, List.append_assoc]
      exact find_space hv _
    rw [List.cons_append, fieldsFrom, hagain]
    dsimp only
    rw [ih hlength, List.append_assoc]
  | case4 field c s hfind ih =>
    rw [List.cons_append, fieldsFrom, ← List.cons_append, find_none_append hw hfind rest]
    exact ih (Nat.zero_le _)

/-- White space separates the words before it from those after it. -/
theorem fields_append_space (hw : w ∈ spaces) (s rest : Str) :
    fields (s ++ (w ++ rest)) = fields s ++ fields rest :=
  fieldsFrom_append_space hw rest 0 [] s (Nat.zero_le _)

theorem fields_space_append (hw : w ∈ spaces) (rest : Str) : fields (w ++ rest) = fields rest :=
  fields_append_space hw [] rest

theorem fields_concat_space (hw : w ∈ spaces) (s : Str) : fields (s ++ w) = fields s := by
  have h := fields_append_space hw s []
  rwa [List.append_nil, show fields [] = [] from rfl, List.append_nil] at h

theorem fieldsFrom_spaceFree (field s : Str) (h : SpaceFree s) :
    fieldsFrom 0 field s = flushField (field ++ s) := by
  induction s generalizing field with
  | nil => rw [List.append_nil, fieldsFrom]
  | cons c s ih =>
    have hnone : spaces.find? (fun w => w.isPrefixOf (c :: s)) = none := by
      rw [List.find?_eq_none]
      intro w hw hstart
      exact h w hw (List.isPrefixOf_iff_prefix.mp hstart).isInfix
    have hrest : SpaceFree s := fun w hw hin => h w hw (hin.trans (List.suffix_cons c s).isInfix)
    rw [fieldsFrom, hnone, ih _ hrest, List.append_assoc, List.singleton_append]

theorem fields_spaceFree (h : SpaceFree s) (hne : s ≠ []) : fields s = [s] := by
  have hflush := fieldsFrom_spaceFree [] s h
  rw [fields, hflush, List.nil_append, flushField]
  simp [hne]

def Clear (field rest : Str) : Prop :=
  ∀ u, u <:+ field → u ≠ [] → ∀ w ∈ spaces, ¬ w <+: u ++ rest

theorem Clear.spaceFree {field rest : Str} (h : Clear field rest) : SpaceFree field := by
  rintro w hw ⟨front, back, rfl⟩
  have hsuffix : w ++ back <:+ front ++ w ++ back := ⟨front, by rw [List.append_assoc]⟩
  have hne : w ++ back ≠ [] := by
    intro hnil
    exact spaces_ne_nil hw (List.append_eq_nil_iff.mp hnil).1
  refine h (w ++ back) hsuffix hne w hw ?_
  rw [List.append_assoc]
  exact List.prefix_append w (back ++ rest)

theorem Clear.concat {field rest : Str} (h : Clear field (c :: rest))
    (hfind : spaces.find? (fun w => w.isPrefixOf (c :: rest)) = none) :
    Clear (field ++ [c]) rest := by
  intro u hsuffix hne w hw hstarts
  obtain ⟨front, hfront⟩ := hsuffix
  rcases List.eq_nil_or_concat u with rfl | ⟨init, last, rfl⟩
  · exact hne rfl
  · rw [List.concat_eq_append] at hfront hstarts
    rw [← List.append_assoc] at hfront
    obtain ⟨hinit, hlast⟩ := List.append_inj' hfront rfl
    obtain rfl := List.singleton_inj.mp hlast
    rw [List.append_assoc, List.singleton_append] at hstarts
    by_cases hnil : init = []
    · rw [hnil, List.nil_append] at hstarts
      exact List.find?_eq_none.mp hfind w hw (List.isPrefixOf_iff_prefix.mpr hstarts)
    · exact h init ⟨front, hinit⟩ hnil w hw hstarts

theorem clear_nil (rest : Str) : Clear [] rest := by
  intro u hsuffix hne
  exact absurd (List.suffix_nil.mp hsuffix) hne

/-- A field is not empty and holds no white space. -/
theorem mem_fieldsFrom (skip : ℕ) (field s : Str) (hclear : skip = 0 → Clear field s)
    (hfield : skip ≠ 0 → field = []) :
    ∀ v ∈ fieldsFrom skip field s, v ≠ [] ∧ SpaceFree v := by
  fun_induction fieldsFrom skip field s with
  | case1 skip field =>
    intro v hv
    have hfree : SpaceFree field := by
      by_cases hskip : skip = 0
      · exact (hclear hskip).spaceFree
      · rw [hfield hskip]
        decide
    unfold flushField at hv
    split at hv
    · simp at hv
    · rename_i hne
      rw [List.mem_singleton.mp hv]
      exact ⟨by simpa using hne, hfree⟩
  | case2 field skip c s ih =>
    have hnil := hfield (by omega)
    refine ih ?_ (fun _ => hnil)
    intro _
    rw [hnil]
    exact clear_nil s
  | case3 field c s w hfind ih =>
    intro v hv
    rcases List.mem_append.mp hv with hflush | hrest
    · have hfree := (hclear rfl).spaceFree
      unfold flushField at hflush
      split at hflush
      · simp at hflush
      · rename_i hne
        rw [List.mem_singleton.mp hflush]
        exact ⟨by simpa using hne, hfree⟩
    · exact ih (fun _ => clear_nil s) (fun _ => rfl) v hrest
  | case4 field c s hfind ih =>
    exact ih (fun _ => (hclear rfl).concat hfind) (fun h => absurd rfl h)

/-- A word is not empty and holds no white space. -/
theorem mem_fields (h : v ∈ fields s) : v ≠ [] ∧ SpaceFree v :=
  mem_fieldsFrom 0 [] s (fun _ => clear_nil s) (fun h => absurd rfl h) v h

theorem dropRunes_skip (runes : List Str) (front rest : Str) :
    dropRunes runes front.length (front ++ rest) = dropRunes runes 0 rest := by
  induction front with
  | nil => rfl
  | cons c front ih =>
    rw [List.cons_append, List.length_cons, dropRunes]
    exact ih

/-- The string stays, or it starts with a rune, which is dropped. -/
theorem dropRunes_cases (runes : List Str) (hrunes : ∀ w ∈ runes, w ≠ []) (s : Str) :
    dropRunes runes 0 s = s ∨ ∃ w ∈ runes, ∃ rest, s = w ++ rest ∧
      dropRunes runes 0 s = dropRunes runes 0 rest := by
  cases s with
  | nil => exact Or.inl rfl
  | cons c s =>
    cases hfind : runes.find? (fun w => w.isPrefixOf (c :: s)) with
    | none =>
      refine Or.inl ?_
      rw [dropRunes, hfind]
    | some w =>
      obtain ⟨hw, rest, hrest⟩ := find_prefix hfind
      refine Or.inr ⟨w, hw, rest, hrest.symm, ?_⟩
      obtain ⟨x, ws, rfl⟩ := List.exists_cons_of_ne_nil (hrunes w hw)
      obtain ⟨-, hs⟩ := List.cons.inj hrest
      rw [dropRunes, hfind, ← hs]
      exact dropRunes_skip runes ws rest

theorem fields_trimLeft (s : Str) : fields (trimLeft s) = fields s := by
  induction hn : s.length using Nat.strong_induction_on generalizing s with
  | h n ih =>
    rcases dropRunes_cases spaces (fun _ hw => spaces_ne_nil hw) s with hsame |
      ⟨w, hw, rest, rfl, hdrop⟩
    · rw [trimLeft, hsame]
    · have hshorter : rest.length < n := by
        have := List.length_pos_of_ne_nil (spaces_ne_nil hw)
        rw [List.length_append] at hn
        omega
      rw [trimLeft, hdrop, fields_space_append hw]
      exact ih rest.length hshorter rest rfl

theorem reversed_ne_nil (h : v ∈ spaces.map List.reverse) : v ≠ [] := by
  obtain ⟨w, hw, rfl⟩ := List.mem_map.mp h
  simpa using spaces_ne_nil hw

theorem fields_trimRight (s : Str) : fields (trimRight s) = fields s := by
  obtain ⟨r, rfl⟩ : ∃ r, s = List.reverse r := ⟨s.reverse, by simp⟩
  rw [trimRight, List.reverse_reverse]
  induction hn : r.length using Nat.strong_induction_on generalizing r with
  | h n ih =>
    rcases dropRunes_cases (spaces.map List.reverse) (fun _ hv => reversed_ne_nil hv) r with
      hsame | ⟨v, hv, rest, rfl, hdrop⟩
    · rw [hsame]
    · obtain ⟨w, hw, rfl⟩ := List.mem_map.mp hv
      have hshorter : rest.length < n := by
        have := List.length_pos_of_ne_nil (reversed_ne_nil hv)
        rw [List.length_append] at hn
        omega
      rw [hdrop, List.reverse_append, List.reverse_reverse, fields_concat_space hw]
      exact ih rest.length hshorter rest rfl

theorem fields_trimSpace (s : Str) : fields (trimSpace s) = fields s := by
  rw [trimSpace, fields_trimRight, fields_trimLeft]

/-- A letter of no rune ends what is dropped from the front. -/
theorem dropRunes_append (runes : List Str) (hrunes : ∀ w ∈ runes, w ≠ [])
    (hletter : ∀ w ∈ runes, letter ∉ w) (s rest : Str) :
    dropRunes runes 0 (s ++ letter :: rest) = dropRunes runes 0 s ++ letter :: rest := by
  have hstart : ∀ s : Str, ∀ w ∈ runes, w <+: s ++ letter :: rest → w <+: s := by
    intro s w hw hstarts
    rcases List.prefix_or_prefix_of_prefix hstarts (List.prefix_append s (letter :: rest)) with
      h | ⟨tail, rfl⟩
    · exact h
    · rw [List.prefix_append_right_inj] at hstarts
      cases tail with
      | nil => simp
      | cons y tail =>
        rw [List.cons_prefix_cons] at hstarts
        exact absurd (by simp [hstarts.1]) (hletter _ hw)
  have hfind : ∀ s : Str, runes.find? (fun w => w.isPrefixOf (s ++ letter :: rest)) =
      runes.find? (fun w => w.isPrefixOf s) := by
    intro s
    refine List.find?_congr ?_
    intro w hw
    rw [Bool.eq_iff_iff, List.isPrefixOf_iff_prefix, List.isPrefixOf_iff_prefix]
    exact ⟨hstart s w hw, fun h => h.trans (List.prefix_append s _)⟩
  induction hn : s.length using Nat.strong_induction_on generalizing s with
  | h n ih =>
    cases s with
    | nil =>
      have hnone : runes.find? (fun w => w.isPrefixOf (letter :: rest)) = none := by
        have hnil := hfind []
        rw [List.nil_append] at hnil
        rw [hnil, List.find?_eq_none]
        intro w hw hstarts
        exact hrunes w hw (List.prefix_nil.mp (List.isPrefixOf_iff_prefix.mp hstarts))
      simp only [List.nil_append, dropRunes, hnone]
    | cons c s =>
      have hsame := hfind (c :: s)
      rw [List.cons_append] at hsame
      rw [List.cons_append, dropRunes, dropRunes, hsame]
      cases hw : runes.find? (fun w => w.isPrefixOf (c :: s)) with
      | none => rfl
      | some w =>
        obtain ⟨hmem, tail, htail⟩ := find_prefix hw
        obtain ⟨x, ws, rfl⟩ := List.exists_cons_of_ne_nil (hrunes w hmem)
        rw [List.cons_append, List.cons.injEq] at htail
        obtain ⟨-, rfl⟩ := htail
        have hshorter : tail.length < n := by
          rw [List.length_cons, List.length_append] at hn
          omega
        have hskip := dropRunes_skip runes ws (tail ++ letter :: rest)
        have hskip' := dropRunes_skip runes ws tail
        simp only [List.length_cons, Nat.add_sub_cancel]
        rw [List.append_assoc, hskip, hskip']
        exact ih tail.length hshorter tail rfl

theorem trimRight_append (hletter : ∀ w ∈ spaces, letter ∉ w) (front s : Str) :
    trimRight (front ++ letter :: s) = front ++ letter :: trimRight s := by
  have hreversed : ∀ v ∈ spaces.map List.reverse, letter ∉ v := by
    intro v hv
    obtain ⟨w, hw, rfl⟩ := List.mem_map.mp hv
    simpa using hletter w hw
  have hdrop := dropRunes_append (spaces.map List.reverse) (fun _ hv => reversed_ne_nil hv)
    hreversed s.reverse front.reverse
  simp only [trimRight, List.reverse_append, List.reverse_cons, List.append_assoc,
    List.singleton_append, hdrop, List.reverse_reverse]

theorem trimLeft_letter (hletter : ∀ w ∈ spaces, letter ∉ w) (s : Str) :
    trimLeft (letter :: s) = letter :: s :=
  dropRunes_append spaces (fun _ hw => spaces_ne_nil hw) hletter [] s

theorem trimSpace_spaceFree (h : SpaceFree s) : trimSpace s = s := by
  have hleft : trimLeft s = s := by
    rcases dropRunes_cases spaces (fun _ hw => spaces_ne_nil hw) s with hsame |
      ⟨w, hw, rest, rfl, -⟩
    · exact hsame
    · exact absurd (List.prefix_append w rest).isInfix (h w hw)
  rcases dropRunes_cases (spaces.map List.reverse) (fun _ hv => reversed_ne_nil hv) s.reverse with
    hsame | ⟨v, hv, rest, hrest, -⟩
  · rw [trimSpace, hleft, trimRight, hsame, List.reverse_reverse]
  · obtain ⟨w, hw, rfl⟩ := List.mem_map.mp hv
    have hs : s = rest.reverse ++ w := by
      rw [← List.reverse_reverse s, hrest, List.reverse_append, List.reverse_reverse]
    exact absurd ⟨rest.reverse, [], by rw [List.append_nil, hs]⟩ (h w hw)

/-- Printable ASCII holds no white space. -/
theorem spaceFree_of_printable (h : ∀ c ∈ s, 32 < c.toNat ∧ c.toNat < 128) : SpaceFree s := by
  have hall : ∀ w ∈ spaces, (w.headD 0).toNat ≤ 32 ∨ 128 ≤ (w.headD 0).toNat := by decide
  intro w hw hinside
  obtain ⟨c, ws, rfl⟩ := List.exists_cons_of_ne_nil (spaces_ne_nil hw)
  have hc := h c (hinside.subset (List.mem_cons_self ..))
  have := hall _ hw
  rw [List.headD_cons] at this
  omega

theorem spaceFree_itoa (n : Int) : SpaceFree (itoa n) := by
  refine spaceFree_of_printable ?_
  intro c hc
  rcases mem_itoa n c hc with rfl | hdigit
  · decide
  · omega

end Flux.WhiteSpace
