import Mathlib.Data.List.Chain
import Mathlib.Data.List.Sort

/-!
A log of positioned entries, kept in numbered segments. Entries go to the last
segment or to a new one with a larger number, and whole segments are dropped at
the front. The structure carries what every such log keeps: segments are not
empty, their numbers ascend, and positions count up by one across segments.
-/
namespace Flux.SegmentedLogs

variable {α : Type} {first k start : Int} {rest : List Int}

def Consecutive (position : α → Int) (entries : List α) : Prop :=
  entries.IsChain (fun a b => position b = position a + 1)

def after (position : α → Int) (start : Int) (entries : List α) : Int :=
  match entries.getLast? with
  | some a => position a + 1
  | none => start

@[simp] theorem after_nil (position : α → Int) (start : Int) : after position start [] = start :=
  rfl

@[simp] theorem after_concat (position : α → Int) (start : Int) (entries : List α) (a : α) :
    after position start (entries ++ [a]) = position a + 1 := by
  simp [after]

theorem after_append (position : α → Int) (start : Int) (front back : List α) (h : back ≠ []) :
    after position start (front ++ back) = after position start back := by
  rcases List.eq_nil_or_concat back with hnil | ⟨init, a, rfl⟩
  · contradiction
  · rw [List.concat_eq_append, ← List.append_assoc, after_concat, after_concat]

theorem Consecutive.concat {position : α → Int} {entries : List α} {a : α}
    (h : Consecutive position entries) (ha : position a = after position start entries) :
    Consecutive position (entries ++ [a]) := by
  unfold Consecutive
  rw [List.isChain_append]
  refine ⟨h, List.isChain_singleton a, ?_⟩
  intro b hb c hc
  simp only [List.head?_cons, Option.mem_def, Option.some.injEq] at hb hc
  rw [← hc, ha, after, hb]

theorem Consecutive.lt_after {position : α → Int} {entries : List α} {a : α}
    (h : Consecutive position entries) (ha : a ∈ entries) :
    position a < after position start entries := by
  induction entries using List.reverseRecOn with
  | nil => exact absurd ha List.not_mem_nil
  | append_singleton front b ih =>
    obtain ⟨hfront, -, hlink⟩ := List.isChain_append.mp h
    rw [after_concat]
    rcases List.mem_append.mp ha with hmem | hlast
    · have hlt := ih hfront hmem
      obtain ⟨c, hc⟩ : ∃ c, front.getLast? = some c :=
        ⟨_, List.getLast?_eq_some_getLast (List.ne_nil_of_mem hmem)⟩
      have hstep := hlink c hc b rfl
      simp only [after, hc] at hlt
      omega
    · rw [List.mem_singleton.mp hlast]
      omega

theorem Consecutive.position_eq {position : α → Int} {a : α} {rest : List α}
    (h : Consecutive position (a :: rest)) (i : ℕ) (b : α) (hb : (a :: rest)[i]? = some b) :
    position b = position a + i := by
  induction rest generalizing a i with
  | nil =>
    cases i with
    | zero => simp_all
    | succ i => simp at hb
  | cons c rest ih =>
    have hstep := List.isChain_cons_cons.mp h
    cases i with
    | zero => simp_all
    | succ i =>
      have := ih hstep.2 i (by simpa using hb)
      push_cast
      omega

def advance (position : α → Int) (start : Int) (entries : List α) : Int :=
  entries.foldl (fun n a => if n ≤ position a then position a + 1 else n) start

/-- Over consecutive entries that start at the counter or above it, the counter
ends after the last one. -/
theorem advance_eq_after {position : α → Int} (entries : List α) (start : Int)
    (h : Consecutive position entries) (hstart : ∀ a ∈ entries.head?, start ≤ position a) :
    advance position start entries = after position start entries := by
  induction entries generalizing start with
  | nil => rfl
  | cons a rest ih =>
    have ha : start ≤ position a := hstart a rfl
    have hrest : Consecutive position rest := h.tail
    have hnext : ∀ b ∈ rest.head?, position a + 1 ≤ position b := by
      intro b hb
      cases rest with
      | nil => simp at hb
      | cons c rest =>
        simp only [List.head?_cons, Option.mem_def, Option.some.injEq] at hb
        have := (List.isChain_cons_cons.mp h).1
        rw [← hb]
        omega
    have := ih (position a + 1) hrest hnext
    simp only [advance, List.foldl_cons, ha, ↓reduceIte] at this ⊢
    rw [this]
    cases rest with
    | nil => rfl
    | cons c rest => simp [after, List.getLast?_cons]

theorem le_advance (position : α → Int) (start : Int) (entries : List α) :
    start ≤ advance position start entries := by
  induction entries generalizing start with
  | nil => exact Int.le_refl start
  | cons a rest ih =>
    refine Int.le_trans ?_ (ih (if start ≤ position a then position a + 1 else start))
    split <;> omega

theorem lt_advance {position : α → Int} {entries : List α} {a : α} (h : a ∈ entries) :
    position a < advance position start entries := by
  induction entries generalizing start with
  | nil => exact absurd h List.not_mem_nil
  | cons b rest ih =>
    rcases List.mem_cons.mp h with rfl | hrest
    · refine Int.lt_of_lt_of_le ?_
        (le_advance position (if start ≤ position a then position a + 1 else start) rest)
      split <;> omega
    · exact ih hrest

theorem advance_concat {position : α → Int} {entries : List α} {a : α}
    (h : position a = advance position start entries) :
    advance position start (entries ++ [a]) = position a + 1 := by
  unfold advance at h ⊢
  rw [List.foldl_append, List.foldl_cons, List.foldl_nil, ← h, if_pos (Int.le_refl _)]

def putEntry (id : Int) (a : α) : List (Int × List α) → List (Int × List α)
  | [] => [(id, [a])]
  | (k, entries) :: rest =>
      if k = id then (k, entries ++ [a]) :: rest else (k, entries) :: putEntry id a rest

theorem putEntry_nonempty (id : Int) (a : α) (segments : List (Int × List α))
    (h : ∀ g ∈ segments, g.2 ≠ []) : ∀ g ∈ putEntry id a segments, g.2 ≠ [] := by
  induction segments with
  | nil => simp [putEntry]
  | cons g rest ih =>
    have hrest := ih (fun g' hg' => h g' (List.mem_cons_of_mem _ hg'))
    have hg := h g (List.mem_cons_self ..)
    intro g' hg'
    unfold putEntry at hg'
    split at hg' <;> rcases List.mem_cons.mp hg' with rfl | hmem
    · simp
    · exact h g' (List.mem_cons_of_mem _ hmem)
    · exact hg
    · exact hrest g' hmem

theorem ids_putEntry (id : Int) (a : α) (segments : List (Int × List α)) :
    (putEntry id a segments).map Prod.fst =
      if id ∈ segments.map Prod.fst then segments.map Prod.fst
      else segments.map Prod.fst ++ [id] := by
  induction segments with
  | nil => simp [putEntry]
  | cons g rest ih =>
    obtain ⟨k, entries⟩ := g
    by_cases hk : k = id
    · simp [putEntry, hk]
    · have hk' : ¬ id = k := fun h => hk h.symm
      simp only [putEntry, hk, ↓reduceIte, List.map_cons, ih, List.mem_cons, hk', false_or]
      split <;> simp

theorem lookup_putEntry (id k : Int) (a : α) (segments : List (Int × List α)) :
    (putEntry id a segments).lookup k =
      if k = id then some ((segments.lookup id).getD [] ++ [a]) else segments.lookup k := by
  induction segments with
  | nil =>
    by_cases hk : k = id
    · simp [putEntry, hk]
    · have : (k == id) = false := by simpa using hk
      simp [putEntry, List.lookup_cons, hk, this]
  | cons g rest ih =>
    obtain ⟨j, entries⟩ := g
    by_cases hj : j = id
    · subst hj
      by_cases hk : k = j
      · simp [putEntry, hk]
      · have : (k == j) = false := by simpa using hk
        simp [putEntry, List.lookup_cons, hk, this]
    · have hid : (id == j) = false := by simpa using fun h : id = j => hj h.symm
      simp only [putEntry, hj, ↓reduceIte, List.lookup_cons, ih, hid]
      by_cases hk : k = id
      · simp [hk, hid]
      · simp [hk]

/-- The new entry comes last when its segment is not below any other. -/
theorem flatMap_putEntry (id : Int) (a : α) (segments : List (Int × List α))
    (hasc : (segments.map Prod.fst).Pairwise (· < ·))
    (hid : ∀ k ∈ segments.map Prod.fst, k ≤ id) :
    (putEntry id a segments).flatMap Prod.snd = segments.flatMap Prod.snd ++ [a] := by
  induction segments with
  | nil => simp [putEntry]
  | cons g rest ih =>
    obtain ⟨k, entries⟩ := g
    rw [List.map_cons, List.pairwise_cons] at hasc
    have hrest : ∀ j ∈ rest.map Prod.fst, j ≤ id :=
      fun j hj => hid j (List.mem_cons_of_mem _ hj)
    by_cases hk : k = id
    · have hnil : rest = [] := by
        cases rest with
        | nil => rfl
        | cons g' rest =>
          have h1 := hasc.1 g'.1 (by simp)
          have h2 := hrest g'.1 (by simp)
          dsimp only at h1
          omega
      simp [putEntry, hk, hnil]
    · simp [putEntry, hk, ih hasc.2 hrest]

theorem flatMap_lookup (segments : List (Int × List α))
    (hasc : (segments.map Prod.fst).Pairwise (· < ·)) :
    (segments.map Prod.fst).flatMap (fun k => (segments.lookup k).getD []) =
      segments.flatMap Prod.snd := by
  induction segments with
  | nil => rfl
  | cons g rest ih =>
    rw [List.map_cons, List.pairwise_cons] at hasc
    have hrest : ∀ k ∈ rest.map Prod.fst,
        ((g :: rest).lookup k).getD [] = (rest.lookup k).getD [] := by
      intro k hk
      have hne : (k == g.1) = false := by
        have := hasc.1 k hk
        exact beq_false_of_ne (by omega)
      rw [List.lookup_cons, hne]
    have hfirst : (g :: rest).lookup g.1 = some g.2 := List.lookup_cons_self
    rw [List.map_cons, List.flatMap_cons, List.flatMap_congr hrest, ih hasc.2, hfirst]
    rfl

structure SegmentedLog (position : α → Int) where
  segments : List (Int × List α)
  nonempty : ∀ g ∈ segments, g.2 ≠ []
  ascending : (segments.map Prod.fst).Pairwise (· < ·)
  consecutive : Consecutive position (segments.flatMap Prod.snd)
  nonneg : ∀ a ∈ segments.flatMap Prod.snd, 0 ≤ position a

namespace SegmentedLog

variable {position : α → Int}

def ids (L : SegmentedLog position) : List Int := L.segments.map Prod.fst

def entries (L : SegmentedLog position) : List α := L.segments.flatMap Prod.snd

def segment (L : SegmentedLog position) (k : Int) : Option (List α) := L.segments.lookup k

def next (L : SegmentedLog position) : Int := after position 0 L.entries

def empty : SegmentedLog position := ⟨[], by simp, by simp, List.isChain_nil, by simp⟩

theorem next_nonneg (L : SegmentedLog position) : 0 ≤ L.next := by
  unfold next after
  split
  · rename_i a ha
    have := L.nonneg a (List.mem_of_getLast? ha)
    omega
  · omega

def put (L : SegmentedLog position) (id : Int) (a : α) (hid : ∀ k ∈ L.ids, k ≤ id)
    (ha : position a = L.next) : SegmentedLog position where
  segments := putEntry id a L.segments
  nonempty := putEntry_nonempty id a L.segments L.nonempty
  ascending := by
    rw [ids_putEntry]
    split
    · exact L.ascending
    · rename_i hnew
      rw [List.pairwise_append]
      refine ⟨L.ascending, by simp, ?_⟩
      intro k hk j hj
      rw [List.mem_singleton] at hj
      have hle := hid k hk
      have hne : k ≠ id := fun h => hnew (h ▸ hk)
      omega
  consecutive := by
    rw [flatMap_putEntry id a L.segments L.ascending hid]
    exact L.consecutive.concat ha
  nonneg := by
    rw [flatMap_putEntry id a L.segments L.ascending hid]
    intro b hb
    rcases List.mem_append.mp hb with hold | hnew
    · exact L.nonneg b hold
    · rw [List.mem_singleton.mp hnew, ha]
      exact L.next_nonneg

section Put

variable (L : SegmentedLog position) (id : Int) (a : α) (hid : ∀ k ∈ L.ids, k ≤ id)
  (ha : position a = L.next)

@[simp] theorem entries_put : (L.put id a hid ha).entries = L.entries ++ [a] :=
  flatMap_putEntry id a L.segments L.ascending hid

theorem ids_put : (L.put id a hid ha).ids = if id ∈ L.ids then L.ids else L.ids ++ [id] :=
  ids_putEntry id a L.segments

theorem segment_put (k : Int) : (L.put id a hid ha).segment k =
    if k = id then some ((L.segment id).getD [] ++ [a]) else L.segment k :=
  lookup_putEntry id k a L.segments

@[simp] theorem next_put : (L.put id a hid ha).next = L.next + 1 := by
  rw [next, entries_put, after_concat, ha]

end Put

def trim (L : SegmentedLog position) : SegmentedLog position where
  segments := L.segments.tail
  nonempty := fun g hg => L.nonempty g (List.mem_of_mem_tail hg)
  ascending := by
    rw [List.map_tail]
    exact L.ascending.tail
  consecutive := by
    refine L.consecutive.suffix ?_
    cases L.segments with
    | nil => exact List.suffix_refl _
    | cons g rest => exact ⟨g.2, by simp⟩
  nonneg := by
    intro a ha
    apply L.nonneg a
    cases hL : L.segments with
    | nil => simp [hL] at ha
    | cons g rest =>
      rw [hL, List.tail_cons] at ha
      simp only [List.flatMap_cons, List.mem_append]
      exact Or.inr ha

section Segments

variable (L : SegmentedLog position)

theorem ids_trim : L.trim.ids = L.ids.tail := List.map_tail ..

theorem mem_ids_iff (k : Int) : k ∈ L.ids ↔ (L.segment k).isSome := by
  unfold ids segment
  induction L.segments with
  | nil => simp
  | cons g rest ih =>
    obtain ⟨j, entries⟩ := g
    by_cases hk : k = j
    · simp [hk]
    · have : (k == j) = false := by simpa using hk
      simp [List.lookup_cons, this, hk, ih]

theorem segment_eq_none (h : k ∉ L.ids) : L.segment k = none := by
  rw [mem_ids_iff] at h
  simpa using h

/-- Reading the segments one by one gives every entry in order. -/
theorem flatMap_segment : L.ids.flatMap (fun k => (L.segment k).getD []) = L.entries :=
  flatMap_lookup L.segments L.ascending

theorem entries_eq_nil (h : L.ids = []) : L.entries = [] := by
  rw [← L.flatMap_segment, h]
  rfl

theorem segment_trim (h : L.ids = first :: rest) (k : Int) :
    L.trim.segment k = if k = first then none else L.segment k := by
  have hasc : L.ids.Pairwise (· < ·) := L.ascending
  unfold ids at h hasc
  cases hL : L.segments with
  | nil => simp [hL] at h
  | cons g others =>
    simp only [hL, List.map_cons, List.cons.injEq] at h
    simp only [hL, List.map_cons, List.pairwise_cons] at hasc
    obtain ⟨rfl, rfl⟩ := h
    simp only [segment, trim, hL, List.tail_cons]
    split
    · rename_i hk
      rw [List.lookup_eq_none_iff]
      intro g' hg'
      have := hasc.1 g'.1 (List.mem_map_of_mem hg')
      exact bne_iff_ne.mpr (by omega)
    · rename_i hk
      have : (k == g.1) = false := by simpa using hk
      rw [List.lookup_cons, this]

theorem entries_trim_suffix : L.trim.entries <:+ L.entries := by
  change L.segments.tail.flatMap Prod.snd <:+ L.segments.flatMap Prod.snd
  cases L.segments with
  | nil => exact List.suffix_refl _
  | cons g rest => exact ⟨g.2, by simp⟩

theorem entries_ne_nil (h : L.ids ≠ []) : L.entries ≠ [] := by
  unfold ids at h
  unfold entries
  have hne := L.nonempty
  cases hL : L.segments with
  | nil => simp [hL] at h
  | cons g rest =>
    have := hne g (by simp [hL])
    simp [this]

/-- The last segment is never dropped, so the next position stays. -/
theorem next_trim {second : Int} (h : L.ids = first :: second :: rest) : L.trim.next = L.next := by
  have hne : L.trim.entries ≠ [] := by
    apply entries_ne_nil
    rw [ids_trim, h]
    simp
  obtain ⟨front, hfront⟩ := L.entries_trim_suffix
  rw [next, next, ← hfront, after_append position 0 front _ hne]

end Segments

end SegmentedLog

/-- The last of ascending numbers is the greatest. -/
theorem le_getLast {ids : List Int} {last : Int} (hascending : ids.Pairwise (· < ·))
    (hlast : ids.getLast? = some last) (hk : k ∈ ids) : k ≤ last := by
  obtain ⟨front, rfl⟩ := List.getLast?_eq_some_iff.mp hlast
  rcases List.mem_append.mp hk with hmem | heq
  · have := (List.pairwise_append.mp hascending).2.2 k hmem _ (List.mem_singleton.mpr rfl)
    omega
  · rw [List.mem_singleton.mp heq]

end Flux.SegmentedLogs
