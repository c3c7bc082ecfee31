import Flux.Cuts

/-!
Lines that arrive in chunks. A reader keeps the unfinished line in a buffer,
appends each chunk to it and hands every complete line to a handler. Reading a
chunk is the same as reading its letters one by one, so only the order of the
letters counts and not where the chunks are cut.
-/
namespace Flux.ChunkedLines

open Cuts

variable {S E α : Type} [DecidableEq α] (sep : α) (handle : S → List α → Except E S)

def drain : ℕ → S → List α → Except E (S × List α)
  | 0, s, buffer => .ok (s, buffer)
  | turns + 1, s, buffer =>
      match cut [sep] buffer with
      | none => .ok (s, buffer)
      | some c => (handle s c.1).bind (fun s => drain turns s c.2)

def feed (st : S × List α) (chunk : List α) : Except E (S × List α) :=
  drain sep handle (st.2 ++ chunk).length st.1 (st.2 ++ chunk)

def feedOne (st : S × List α) (x : α) : Except E (S × List α) :=
  if x = sep then (handle st.1 st.2).map (fun s => (s, [])) else .ok (st.1, st.2 ++ [x])

def feedAll (st : S × List α) (letters : List α) : Except E (S × List α) :=
  letters.foldlM (feedOne sep handle) st

variable {sep handle}

theorem feedAll_cons (st : S × List α) (x : α) (letters : List α) :
    feedAll sep handle st (x :: letters) =
      (feedOne sep handle st x).bind (fun st => feedAll sep handle st letters) :=
  rfl

theorem feedAll_append (st : S × List α) (front back : List α) :
    feedAll sep handle st (front ++ back) =
      (feedAll sep handle st front).bind (fun st => feedAll sep handle st back) :=
  List.foldlM_append

/-- Letters of an unfinished line go to the buffer. -/
theorem feedAll_open {letters : List α} (h : sep ∉ letters) (st : S × List α) :
    feedAll sep handle st letters = .ok (st.1, st.2 ++ letters) := by
  induction letters generalizing st with
  | nil => rw [List.append_nil]; rfl
  | cons x letters ih =>
    have hx : x ≠ sep := fun hx => h (by simp [hx])
    have hone : feedOne sep handle st x = .ok (st.1, st.2 ++ [x]) := if_neg hx
    rw [feedAll_cons, hone]
    refine (ih (fun hmem => h (List.mem_cons_of_mem _ hmem)) _).trans ?_
    rw [List.append_assoc, List.singleton_append]

theorem feedAll_line {front : List α} (h : sep ∉ front) (s : S) (rest : List α) :
    feedAll sep handle (s, []) (front ++ sep :: rest) =
      (handle s front).bind (fun s => feedAll sep handle (s, []) rest) := by
  have hone : feedOne sep handle (s, front) sep = (handle s front).map (fun s => (s, [])) :=
    if_pos rfl
  rw [feedAll_append, feedAll_open h, List.nil_append]
  show feedAll sep handle (s, front) (sep :: rest) = _
  rw [feedAll_cons, hone]
  cases handle s front with
  | error e => rfl
  | ok s' => rfl

/-- The loop does what reading the buffer letter by letter does. -/
theorem drain_eq_feedAll {turns : ℕ} {buffer : List α} (h : buffer.length ≤ turns) (s : S) :
    drain sep handle turns s buffer = feedAll sep handle (s, []) buffer := by
  induction turns generalizing s buffer with
  | zero =>
    obtain rfl := List.length_eq_zero_iff.mp (Nat.le_zero.mp h)
    rfl
  | succ turns ih =>
    cases hcut : cut [sep] buffer with
    | none =>
      have hopen : sep ∉ buffer := by
        intro hmem
        obtain ⟨front, back, rfl, hfront⟩ := List.eq_append_cons_of_mem hmem
        rw [cut_letter_append sep front back hfront] at hcut
        cases hcut
      rw [drain, hcut, feedAll_open hopen, List.nil_append]
    | some c =>
      obtain ⟨hfront, rfl⟩ := (cut_letter_eq_some_iff sep buffer c).mp hcut
      have hshort : c.2.length ≤ turns := by
        rw [List.length_append, List.length_cons] at h
        omega
      rw [drain, hcut, feedAll_line hfront]
      dsimp only
      congr 1
      funext s'
      exact ih hshort s'

/-- A chunk is read letter by letter. -/
theorem feed_eq_feedAll {st : S × List α} (h : sep ∉ st.2) (chunk : List α) :
    feed sep handle st chunk = feedAll sep handle st chunk := by
  rw [feed, drain_eq_feedAll (Nat.le_refl _), feedAll_append, feedAll_open h, List.nil_append]
  rfl

/-- The buffer never holds a complete line. -/
theorem feedAll_unfinished {st st' : S × List α} {letters : List α} (h : sep ∉ st.2)
    (hfeed : feedAll sep handle st letters = .ok st') : sep ∉ st'.2 := by
  induction letters generalizing st with
  | nil =>
    cases hfeed
    exact h
  | cons x letters ih =>
    rw [feedAll_cons] at hfeed
    by_cases hx : x = sep
    · rw [feedOne, if_pos hx] at hfeed
      cases hhandle : handle st.1 st.2 with
      | error e =>
        rw [hhandle] at hfeed
        cases hfeed
      | ok s =>
        rw [hhandle] at hfeed
        exact ih List.not_mem_nil hfeed
    · rw [feedOne, if_neg hx] at hfeed
      refine ih ?_ hfeed
      simp [h, Ne.symm hx]

end Flux.ChunkedLines
