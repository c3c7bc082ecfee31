import Mathlib.Data.List.Forall2
import Mathlib.Data.List.Infix

/-!
Cutting a word at the first occurrence of a pattern, and splitting it into
pieces by repeated cuts. A pattern without the letter `sep` cannot straddle an
occurrence of `sep`, so a cut of a joined word is a cut of one of its parts.
-/
namespace Flux.Cuts

variable {α : Type}

/-- Only the part of a word before `sep` matters to a pattern without `sep`. -/
theorem prefix_append_sep_iff (pat word rest : List α) (sep : α) (hsep : sep ∉ pat) :
    pat <+: word ++ sep :: rest ↔ pat <+: word := by
  constructor
  · intro h
    rcases Nat.lt_or_ge word.length pat.length with hlt | hle
    · have hword : word ++ [sep] <+: word ++ sep :: rest := ⟨rest, by simp⟩
      have hshort : word ++ [sep] <+: pat :=
        List.prefix_of_prefix_length_le hword h (by simp; omega)
      exact absurd (hshort.subset (by simp)) hsep
    · exact List.prefix_of_prefix_length_le h (List.prefix_append _ _) hle
  · intro h
    exact h.trans (List.prefix_append _ _)

/-- A pattern whose first letter does not recur in it cannot straddle a later
occurrence of that letter. -/
theorem prefix_of_prefix_append_head (p : α) (ps word rest : List α) (hword : word ≠ [])
    (hp : p ∉ ps) (h : p :: ps <+: word ++ p :: rest) : p :: ps <+: word := by
  cases word with
  | nil => contradiction
  | cons x word =>
    rw [List.cons_append, List.cons_prefix_cons] at h
    rw [List.cons_prefix_cons]
    exact ⟨h.1, (prefix_append_sep_iff ps word rest p hp).mp h.2⟩

theorem infix_append_head (p : α) (ps word rest : List α) (hp : p ∉ ps)
    (h : p :: ps <:+: word ++ p :: rest) : p :: ps <:+: word ∨ p :: ps <:+: p :: rest := by
  induction word with
  | nil => exact Or.inr h
  | cons x word ih =>
    rcases List.infix_cons_iff.mp h with hstart | hinside
    · exact Or.inl (prefix_of_prefix_append_head p ps (x :: word) rest (by simp) hp hstart).isInfix
    · rcases ih hinside with hleft | hright
      · exact Or.inl (List.infix_cons hleft)
      · exact Or.inr hright

theorem infix_skip (p : α) (ps word rest : List α) (h : p ∉ word)
    (hinside : p :: ps <:+: word ++ rest) : p :: ps <:+: rest := by
  induction word with
  | nil => exact hinside
  | cons x word ih =>
    rcases List.infix_cons_iff.mp hinside with hstart | htail
    · have hx : p = x := (List.cons_prefix_cons.mp hstart).1
      exact absurd (by simp [hx]) h
    · exact ih (fun hp => h (List.mem_cons_of_mem _ hp)) htail

/-- Reading every piece succeeds exactly with what the pieces read as. -/
theorem mapM_eq_ok_iff {β ε : Type} (read : α → Except ε β) (pieces : List α) (values : List β) :
    pieces.mapM read = .ok values ↔
      List.Forall₂ (fun piece value => read piece = .ok value) pieces values := by
  induction pieces generalizing values with
  | nil => cases values <;> simp [pure, Except.pure]
  | cons piece rest ih =>
    rw [List.mapM_cons]
    cases hpiece : read piece with
    | error e => cases values <;> simp [bind, Except.bind, hpiece]
    | ok v =>
      cases hrest : rest.mapM read with
      | error e =>
        have hnot : ∀ values, ¬ List.Forall₂ (fun piece value => read piece = .ok value)
            rest values := by
          intro values hf
          rw [← ih, hrest] at hf
          contradiction
        cases values <;> simp [bind, Except.bind, hnot]
      | ok vs =>
        have hvs : ∀ values, List.Forall₂ (fun piece value => read piece = .ok value)
            rest values ↔ values = vs := by
          intro values
          rw [← ih, hrest, Except.ok.injEq]
          exact eq_comm
        cases values <;> simp [bind, Except.bind, pure, Except.pure, hpiece, hvs, eq_comm]

theorem exists_piece {β : Type} {reads : α → β → Prop} {pieces : List α} {values : List β}
    (h : List.Forall₂ reads pieces values) {value : β} (hvalue : value ∈ values) :
    ∃ piece ∈ pieces, reads piece value := by
  induction h with
  | nil => simp at hvalue
  | cons hfirst _ ih =>
    rcases List.mem_cons.mp hvalue with rfl | hrest
    · exact ⟨_, List.mem_cons_self .., hfirst⟩
    · obtain ⟨piece, hpiece, hreads⟩ := ih hrest
      exact ⟨piece, List.mem_cons_of_mem _ hpiece, hreads⟩

variable [DecidableEq α]

def cut (pat : List α) : List α → Option (List α × List α)
  | [] => if pat.isEmpty then some ([], []) else none
  | x :: rest =>
      if pat.isPrefixOf (x :: rest) then some ([], (x :: rest).drop pat.length)
      else (cut pat rest).map (fun c => (x :: c.1, c.2))

def splitN (pat : List α) : ℕ → List α → List (List α)
  | 0, _ => []
  | 1, word => [word]
  | n + 2, word =>
      match cut pat word with
      | none => [word]
      | some c => c.1 :: splitN pat (n + 1) c.2

def before (pat word : List α) : List α :=
  match cut pat word with
  | none => word
  | some c => c.1

def split (pat : List α) (word : List α) : List (List α) :=
  splitN pat (word.length + 1) word

def cutLast (sep : α) (word : List α) : Option (List α × List α) :=
  (cut [sep] word.reverse).map (fun c => (c.2.reverse, c.1.reverse))

theorem cut_eq_some (pat word : List α) (c : List α × List α) (h : cut pat word = some c) :
    word = c.1 ++ pat ++ c.2 := by
  induction word generalizing c with
  | nil =>
    unfold cut at h
    split at h
    · rename_i hpat
      cases Option.some.inj h
      simpa using hpat
    · contradiction
  | cons x rest ih =>
    unfold cut at h
    split at h
    · rename_i hpat
      cases Option.some.inj h
      obtain ⟨tail, htail⟩ := List.isPrefixOf_iff_prefix.mp hpat
      simp only [← htail, List.drop_left, List.nil_append]
    · obtain ⟨c', hc', rfl⟩ := Option.map_eq_some_iff.mp h
      simp only [List.cons_append]
      exact congrArg (List.cons x) (ih c' hc')

theorem cut_eq_none_iff (pat word : List α) : cut pat word = none ↔ ¬ pat <:+: word := by
  induction word with
  | nil =>
    cases pat with
    | nil => simp [cut]
    | cons p ps => simp [cut]
  | cons x rest ih =>
    unfold cut
    split
    · rename_i hpat
      have hinside : pat <:+: x :: rest := (List.isPrefixOf_iff_prefix.mp hpat).isInfix
      simp [hinside]
    · rename_i hpat
      have hnot : ¬ pat <+: x :: rest := fun hp => hpat (List.isPrefixOf_iff_prefix.mpr hp)
      rw [Option.map_eq_none_iff, ih, List.infix_cons_iff]
      simp [hnot]

/-- A pattern without the separator lies on one side of it. -/
theorem cut_append_sep (pat word rest : List α) (sep : α) (hpat : pat ≠ []) (hsep : sep ∉ pat) :
    cut pat (word ++ sep :: rest) =
      match cut pat word with
      | some c => some (c.1, c.2 ++ sep :: rest)
      | none => (cut pat rest).map (fun c => (word ++ sep :: c.1, c.2)) := by
  induction word with
  | nil =>
    have hnot : ¬ pat <+: sep :: rest := by
      intro h
      have hnil := (prefix_append_sep_iff pat [] rest sep hsep).mp h
      exact hpat (List.prefix_nil.mp hnil)
    have hfalse : pat.isPrefixOf (sep :: rest) = false := by
      rw [Bool.eq_false_iff]
      exact fun h => hnot (List.isPrefixOf_iff_prefix.mp h)
    have hempty : pat.isEmpty = false := by simpa using hpat
    simp [cut, hfalse, hempty]
  | cons x word ih =>
    have hiff := prefix_append_sep_iff pat (x :: word) rest sep hsep
    by_cases hp : pat <+: x :: word
    · have hlong : pat.isPrefixOf (x :: (word ++ sep :: rest)) = true :=
        List.isPrefixOf_iff_prefix.mpr (hiff.mpr hp)
      have hshort : pat.isPrefixOf (x :: word) = true := List.isPrefixOf_iff_prefix.mpr hp
      have hlen : pat.length ≤ (x :: word).length := hp.length_le
      simp only [List.cons_append, cut, hlong, hshort, ↓reduceIte]
      rw [← List.cons_append, List.drop_append_of_le_length hlen]
    · have hlong : pat.isPrefixOf (x :: (word ++ sep :: rest)) = false := by
        rw [Bool.eq_false_iff]
        exact fun h => hp (hiff.mp (List.isPrefixOf_iff_prefix.mp h))
      have hshort : pat.isPrefixOf (x :: word) = false := by
        rw [Bool.eq_false_iff]
        exact fun h => hp (List.isPrefixOf_iff_prefix.mp h)
      simp only [List.cons_append, cut, hlong, hshort, Bool.false_eq_true, ↓reduceIte, ih]
      cases cut pat word with
      | none => simp [Option.map_map, Function.comp_def]
      | some c => simp

/-- A letter that differs from the pattern's first letter is skipped. -/
theorem cut_cons_ne (p x : α) (ps rest : List α) (h : x ≠ p) :
    cut (p :: ps) (x :: rest) = (cut (p :: ps) rest).map (fun c => (x :: c.1, c.2)) := by
  have hne : p ≠ x := Ne.symm h
  simp [cut, List.isPrefixOf, hne]

theorem cut_skip (p : α) (ps word rest : List α) (h : p ∉ word) :
    cut (p :: ps) (word ++ rest) =
      (cut (p :: ps) rest).map (fun c => (word ++ c.1, c.2)) := by
  induction word with
  | nil => simp
  | cons x word ih =>
    have hx : x ≠ p := fun hx => h (by simp [hx])
    rw [List.cons_append, cut_cons_ne p x ps _ hx, ih (fun hp => h (List.mem_cons_of_mem _ hp))]
    simp [Option.map_map, Function.comp_def]

theorem cut_cons_of_not_start (pat rest : List α) (x : α) (h : ¬ pat <+: x :: rest) :
    cut pat (x :: rest) = (cut pat rest).map (fun c => (x :: c.1, c.2)) := by
  have hfalse : pat.isPrefixOf (x :: rest) = false := by
    rw [Bool.eq_false_iff]
    exact fun hp => h (List.isPrefixOf_iff_prefix.mp hp)
  simp [cut, hfalse]

theorem infix_append_sep_iff (pat word rest : List α) (sep : α) (hpat : pat ≠ [])
    (hsep : sep ∉ pat) : pat <:+: word ++ sep :: rest ↔ pat <:+: word ∨ pat <:+: rest := by
  have hcut := cut_append_sep pat word rest sep hpat hsep
  rw [← not_iff_not, not_or, ← cut_eq_none_iff, ← cut_eq_none_iff, ← cut_eq_none_iff, hcut]
  cases cut pat word with
  | none => simp
  | some c => simp

theorem before_prefix (pat word : List α) : before pat word <+: word := by
  unfold before
  cases hcut : cut pat word with
  | none => exact List.prefix_rfl
  | some c => exact ⟨pat ++ c.2, by rw [cut_eq_some pat word c hcut, List.append_assoc]⟩

theorem before_of_not_infix (pat word : List α) (h : ¬ pat <:+: word) : before pat word = word := by
  simp only [before, (cut_eq_none_iff pat word).mpr h]

/-- Nothing before the first occurrence of a pattern contains it. -/
theorem not_infix_before (pat word : List α) (hpat : pat ≠ []) : ¬ pat <:+: before pat word := by
  cases hcut : cut pat word with
  | none =>
    simp only [before, hcut]
    exact (cut_eq_none_iff pat word).mp hcut
  | some c =>
    simp only [before, hcut]
    induction word generalizing c with
    | nil => simp [cut, hpat] at hcut
    | cons x rest ih =>
      by_cases hstart : pat <+: x :: rest
      · have hprefix : pat.isPrefixOf (x :: rest) = true := List.isPrefixOf_iff_prefix.mpr hstart
        rw [cut, if_pos hprefix] at hcut
        cases Option.some.inj hcut
        simpa using hpat
      · rw [cut_cons_of_not_start pat rest x hstart] at hcut
        obtain ⟨c', hc', rfl⟩ := Option.map_eq_some_iff.mp hcut
        have hfront : x :: c'.1 <+: x :: rest := by
          rw [cut_eq_some pat rest c' hc', List.append_assoc]
          exact List.prefix_append (x :: c'.1) _
        rw [List.infix_cons_iff, not_or]
        exact ⟨fun h => hstart (h.trans hfront), ih c' hc'⟩

theorem cut_self_append (pat rest : List α) (hpat : pat ≠ []) :
    cut pat (pat ++ rest) = some ([], rest) := by
  cases pat with
  | nil => contradiction
  | cons p ps =>
    have hstart : (p :: ps).isPrefixOf (p :: (ps ++ rest)) = true :=
      List.isPrefixOf_iff_prefix.mpr (List.prefix_append (p :: ps) rest)
    simp only [List.cons_append, cut, hstart, ↓reduceIte, List.length_cons, List.drop_succ_cons,
      List.drop_left]

theorem cut_letter_append (sep : α) (word rest : List α) (h : sep ∉ word) :
    cut [sep] (word ++ sep :: rest) = some (word, rest) := by
  induction word with
  | nil => simpa using cut_self_append [sep] rest (by simp)
  | cons x word ih =>
    have hx : x ≠ sep := fun hx => h (by simp [hx])
    have hword : sep ∉ word := fun hw => h (List.mem_cons_of_mem _ hw)
    rw [List.cons_append, cut_cons_ne sep x [] _ hx, ih hword]
    rfl

theorem cut_letter_none (sep : α) (word : List α) (h : sep ∉ word) : cut [sep] word = none := by
  rw [cut_eq_none_iff]
  rintro ⟨s, t, hst⟩
  exact h (by simp [← hst])

/-- The part before the first occurrence of a letter does not contain it. -/
theorem cut_letter_eq_some_iff (sep : α) (word : List α) (c : List α × List α) :
    cut [sep] word = some c ↔ sep ∉ c.1 ∧ word = c.1 ++ sep :: c.2 := by
  constructor
  · intro h
    refine ⟨?_, by simpa using cut_eq_some [sep] word c h⟩
    induction word generalizing c with
    | nil => simp [cut] at h
    | cons x rest ih =>
      by_cases hx : x = sep
      · subst hx
        have hself := cut_self_append [x] rest (by simp)
        rw [List.singleton_append, h, Option.some.injEq] at hself
        simp [hself]
      · rw [cut_cons_ne sep x [] rest hx] at h
        obtain ⟨c', hc', rfl⟩ := Option.map_eq_some_iff.mp h
        simpa [Ne.symm hx] using ih c' hc'
  · rintro ⟨hsep, rfl⟩
    exact cut_letter_append sep c.1 c.2 hsep

/-- A word without one of the pattern's letters does not contain the pattern. -/
theorem cut_of_letter_not_mem (pat word : List α) (x : α) (hpat : x ∈ pat) (hword : x ∉ word) :
    cut pat word = none := by
  rw [cut_eq_none_iff]
  exact fun h => hword (h.subset hpat)

theorem piece_of_splitOn (sep : α) (word : List α) :
    ∀ piece ∈ word.splitOn sep, sep ∉ piece ∧ piece <:+: word := by
  induction hn : word.length using Nat.strong_induction_on generalizing word with
  | _ n ih =>
    intro piece hpiece
    by_cases hmem : sep ∈ word
    · obtain ⟨front, back, rfl, hfront⟩ := List.eq_append_cons_of_mem hmem
      rw [List.splitOn_append_cons_self_of_not_mem hfront] at hpiece
      rcases List.mem_cons.mp hpiece with rfl | hback
      · exact ⟨hfront, List.infix_append' [] piece (sep :: back)⟩
      · obtain ⟨hnot, hpart⟩ := ih back.length (by simp at hn; omega) back rfl piece hback
        exact ⟨hnot, hpart.trans ⟨front ++ [sep], [], by simp⟩⟩
    · rw [List.splitOn_eq_singleton hmem] at hpiece
      obtain rfl := List.mem_singleton.mp hpiece
      exact ⟨hmem, List.infix_rfl⟩

theorem not_mem_of_mem_splitOn (sep : α) (word : List α) :
    ∀ piece ∈ word.splitOn sep, sep ∉ piece :=
  fun piece hpiece => (piece_of_splitOn sep word piece hpiece).1

theorem infix_of_mem_splitOn (sep : α) (word : List α) :
    ∀ piece ∈ word.splitOn sep, piece <:+: word :=
  fun piece hpiece => (piece_of_splitOn sep word piece hpiece).2

theorem splitN_cons (sep : α) (n : ℕ) (word rest : List α) (h : sep ∉ word) :
    splitN [sep] (n + 2) (word ++ sep :: rest) = word :: splitN [sep] (n + 1) rest := by
  simp only [splitN, cut_letter_append sep word rest h]

theorem splitN_none (pat : List α) (n : ℕ) (word : List α) (h : ¬ pat <:+: word) :
    splitN pat (n + 1) word = [word] := by
  cases n with
  | zero => rfl
  | succ n => simp only [splitN, (cut_eq_none_iff pat word).mpr h]

theorem splitN_cut (pat : List α) (n : ℕ) (word : List α) (c : List α × List α)
    (h : cut pat word = some c) : splitN pat (n + 2) word = c.1 :: splitN pat (n + 1) c.2 := by
  simp only [splitN, h]

/-- The first of several pieces ends at the first separator. -/
theorem splitN_letter_cons {sep : α} {n : ℕ} {word first second : List α}
    {others : List (List α)} (h : splitN [sep] (n + 2) word = first :: second :: others) :
    sep ∉ first ∧ ∃ rest, word = first ++ sep :: rest ∧
      splitN [sep] (n + 1) rest = second :: others := by
  rw [splitN] at h
  cases hcut : cut [sep] word with
  | none => simp [hcut] at h
  | some c =>
    simp only [hcut, List.cons.injEq] at h
    obtain ⟨rfl, hrest⟩ := h
    obtain ⟨hfirst, hword⟩ := (cut_letter_eq_some_iff sep word c).mp hcut
    exact ⟨hfirst, c.2, hword, hrest⟩

/-- A word is cut in two at its first separator. -/
theorem splitN_two_iff {sep : α} {word first second : List α} :
    splitN [sep] 2 word = [first, second] ↔ sep ∉ first ∧ word = first ++ sep :: second := by
  constructor
  · intro h
    obtain ⟨hfirst, rest, hword, hrest⟩ := splitN_letter_cons h
    cases hrest
    exact ⟨hfirst, hword⟩
  · rintro ⟨hfirst, rfl⟩
    rw [splitN_cons sep 0 first second hfirst]
    rfl

/-- The first piece, when there are enough pieces to give. -/
theorem splitN_getElem_zero (pat : List α) (n : ℕ) (word : List α) (hpat : pat ≠ [])
    (hn : 0 < n ∨ word = []) : (splitN pat (n + 1) word)[0]? = some (before pat word) := by
  rcases hn with hpos | rfl
  · obtain ⟨k, rfl⟩ := Nat.exists_eq_add_of_lt hpos
    unfold before
    rw [Nat.zero_add, splitN]
    cases cut pat word with
    | none => rfl
    | some c => rfl
  · have hcut : cut pat [] = none := by simp [cut, hpat]
    cases n with
    | zero => simp [splitN, before, hcut]
    | succ n => simp [splitN, before, hcut]

theorem split_getElem_zero (pat word : List α) (hpat : pat ≠ []) :
    (split pat word)[0]? = some (before pat word) := by
  refine splitN_getElem_zero pat word.length word hpat ?_
  cases word with
  | nil => exact Or.inr rfl
  | cons x rest => exact Or.inl (by simp)

/-- The second piece of a word that starts with the pattern. -/
theorem split_getElem_one (pat rest : List α) (hpat : pat ≠ []) :
    (split pat (pat ++ rest))[1]? = some (before pat rest) := by
  have hcut := cut_self_append pat rest hpat
  obtain ⟨k, hk⟩ : ∃ k, (pat ++ rest).length + 1 = (k + rest.length) + 2 := by
    have := List.length_pos_iff.mpr hpat
    exact ⟨pat.length - 1, by simp; omega⟩
  rw [split, hk, splitN_cut pat _ _ _ hcut, List.getElem?_cons_succ]
  refine splitN_getElem_zero pat _ rest hpat ?_
  cases rest with
  | nil => exact Or.inr rfl
  | cons x rest => exact Or.inl (by rw [List.length_cons]; omega)

theorem cutLast_append (sep : α) (word rest : List α) (h : sep ∉ rest) :
    cutLast sep (word ++ sep :: rest) = some (word, rest) := by
  have hrev : (word ++ sep :: rest).reverse = rest.reverse ++ sep :: word.reverse := by simp
  rw [cutLast, hrev, cut_letter_append sep rest.reverse word.reverse (by simpa using h)]
  simp

end Flux.Cuts
