import Flux.GoStrings

/-!
Texts read piece by piece. A reader takes a value off the front of a text. What a
writer writes its reader takes in as a whole, and of a text that breaks off before its
end it makes nothing: a number aside, which may break off anywhere but is never the
whole of a text.
-/
namespace Flux.TextReaders

open GoStrings

variable {α β : Type} {s t text : Str}

abbrev Reader (α : Type) := Str → Option (α × Str)

def Reader.andThen (first : Reader α) (next : α → Reader β) : Reader β :=
  fun s => (first s).bind (fun r => next r.1 r.2)

def Reader.map (f : α → β) (read : Reader α) : Reader β :=
  fun s => (read s).map (fun r => (f r.1, r.2))

structure Takes (read : Reader α) (text : Str) (a : α) : Prop where
  whole : ∀ rest, read (text ++ rest) = some (a, rest)
  short : ∀ p, p <+: text → p ≠ text → read p = none

def delimiters : List UInt8 := [44, 93, 125]

structure Reads (read : Reader α) (text : Str) (a : α) : Prop where
  whole : ∀ c rest, c ∈ delimiters → read (text ++ c :: rest) = some (a, c :: rest)
  short : ∀ p, p <+: text → read p = none ∨ ∃ a', read p = some (a', [])

theorem cut_cases {p : Str} (h : p <+: s ++ t) : p <+: s ∧ p ≠ s ∨ ∃ q, p = s ++ q ∧ q <+: t := by
  rcases List.prefix_or_prefix_of_prefix h (List.prefix_append s t) with hshort | ⟨q, rfl⟩
  · by_cases hp : p = s
    · exact .inr ⟨[], by rw [hp, List.append_nil], List.nil_prefix⟩
    · exact .inl ⟨hshort, hp⟩
  · exact .inr ⟨q, rfl, (List.prefix_append_right_inj s).mp h⟩

theorem Takes.reads {read : Reader α} {a : α} (h : Takes read text a) : Reads read text a := by
  refine ⟨fun c rest _ => h.whole (c :: rest), fun p hp => ?_⟩
  by_cases htext : p = text
  · refine .inr ⟨a, ?_⟩
    have hwhole := h.whole []
    rwa [List.append_nil, ← htext] at hwhole
  · exact .inl (h.short p hp htext)

theorem Takes.map {read : Reader α} {a : α} (h : Takes read text a) (f : α → β) :
    Takes (read.map f) text (f a) := by
  refine ⟨fun rest => ?_, fun p hp htext => ?_⟩
  · rw [Reader.map, h.whole]
    rfl
  · rw [Reader.map, h.short p hp htext]
    rfl

theorem Reads.map {read : Reader α} {a : α} (h : Reads read text a) (f : α → β) :
    Reads (read.map f) text (f a) := by
  refine ⟨fun c rest hc => ?_, fun p hp => ?_⟩
  · rw [Reader.map, h.whole c rest hc]
    rfl
  · rw [Reader.map]
    rcases h.short p hp with hnone | ⟨a', hsome⟩
    · rw [hnone]
      exact .inl rfl
    · rw [hsome]
      exact .inr ⟨f a', rfl⟩

theorem Takes.andThen {first : Reader α} {next : α → Reader β} {a : α} {b : β}
    (h : Takes first s a) (h' : Takes (next a) t b) : Takes (first.andThen next) (s ++ t) b := by
  refine ⟨fun rest => ?_, fun p hp htext => ?_⟩
  · rw [Reader.andThen, List.append_assoc, h.whole]
    exact h'.whole rest
  · rw [Reader.andThen]
    rcases cut_cases hp with ⟨hshort, hne⟩ | ⟨q, rfl, hq⟩
    · rw [h.short p hshort hne]
      rfl
    · rw [h.whole]
      exact h'.short q hq (fun heq => htext (by rw [heq]))

theorem Takes.andThen_reads {first : Reader α} {next : α → Reader β} {a : α} {b : β}
    (h : Takes first s a) (h' : Reads (next a) t b) : Reads (first.andThen next) (s ++ t) b := by
  refine ⟨fun c rest hc => ?_, fun p hp => ?_⟩
  · rw [Reader.andThen, List.append_assoc, h.whole]
    exact h'.whole c rest hc
  · rw [Reader.andThen]
    rcases cut_cases hp with ⟨hshort, hne⟩ | ⟨q, rfl, hq⟩
    · rw [h.short p hshort hne]
      exact .inl rfl
    · rw [h.whole]
      exact h'.short q hq

/-- A value whose end is known by the delimiter after it. -/
theorem Reads.andThen_short {first : Reader α} {next : α → Reader β} {c : UInt8} {a : α}
    (h : Reads first s a) (hc : c ∈ delimiters) (hnext : ∀ a, next a [] = none)
    (hshort : ∀ q, q <+: c :: t → q ≠ c :: t → next a q = none) (p : Str) (hp : p <+: s ++ c :: t)
    (htext : p ≠ s ++ c :: t) : first.andThen next p = none := by
  have hpart : ∀ q, q <+: s → first.andThen next q = none := by
    intro q hq
    rw [Reader.andThen]
    rcases h.short q hq with hnone | ⟨a', hsome⟩
    · rw [hnone]
      rfl
    · rw [hsome]
      exact hnext a'
  rcases cut_cases hp with ⟨hbefore, -⟩ | ⟨q, rfl, hq⟩
  · exact hpart p hbefore
  · cases q with
    | nil =>
      rw [List.append_nil]
      exact hpart s (List.prefix_refl s)
    | cons x q =>
      obtain ⟨rfl, -⟩ := List.cons_prefix_cons.mp hq
      rw [Reader.andThen, h.whole x q hc]
      exact hshort (x :: q) hq (fun heq => htext (congrArg (s ++ ·) heq))

theorem Reads.andThen {first : Reader α} {next : α → Reader β} {c : UInt8} {a : α} {b : β}
    (h : Reads first s a) (h' : Takes (next a) (c :: t) b) (hc : c ∈ delimiters)
    (hnext : ∀ a, next a [] = none) : Takes (first.andThen next) (s ++ c :: t) b := by
  refine ⟨fun rest => ?_, h.andThen_short hc hnext h'.short⟩
  rw [Reader.andThen, List.append_assoc, List.cons_append, h.whole c _ hc]
  exact h'.whole rest

/-- A file that ends somewhere in a text, or somewhere after it. -/
theorem Takes.cut {read : Reader α} {a : α} (h : Takes read text a) (rest : Str) (k : ℕ) :
    (read ((text ++ rest).take k)).map Prod.fst = if k < text.length then none else some a := by
  by_cases hk : k < text.length
  · rw [if_pos hk, List.take_append_of_le_length (by omega)]
    rw [h.short _ (List.take_prefix k text) (fun heq => ?_)]
    · rfl
    · have hlength := congrArg List.length heq
      rw [List.length_take] at hlength
      omega
  · rw [if_neg hk, List.take_append, List.take_of_length_le (by omega), h.whole]
    rfl

def readLit : Str → Reader Unit
  | [], s => some ((), s)
  | _ :: _, [] => none
  | c :: text, b :: s => if b = c then readLit text s else none

theorem takes_lit (text : Str) : Takes (readLit text) text () := by
  induction text with
  | nil => exact ⟨fun rest => rfl, fun p hp hne => absurd (List.prefix_nil.mp hp) hne⟩
  | cons c text ih =>
    refine ⟨fun rest => ?_, fun p hp hne => ?_⟩
    · rw [List.cons_append, readLit, if_pos rfl]
      exact ih.whole rest
    · cases p with
      | nil => rfl
      | cons b p =>
        obtain ⟨rfl, hrest⟩ := List.cons_prefix_cons.mp hp
        rw [readLit, if_pos rfl]
        exact ih.short p hrest (fun heq => hne (by rw [heq]))

section Sequences

def writeTail (close : UInt8) (item : α → Str) : List α → Str
  | [] => [close]
  | a :: rest => 44 :: (item a ++ writeTail close item rest)

def writeSeq (close : UInt8) (item : α → Str) : List α → Str
  | [] => [close]
  | a :: rest => item a ++ writeTail close item rest

def readTail (close : UInt8) (item : Reader α) : ℕ → Reader (List α)
  | 0, _ => none
  | _ + 1, [] => none
  | fuel + 1, c :: s =>
      if c = close then some ([], s)
      else if c = 44 then
        item.andThen (fun a => (readTail close item fuel).map (fun rest => a :: rest)) s
      else none

def readSeq (close : UInt8) (item : Reader α) : Reader (List α)
  | [] => none
  | c :: s =>
      if c = close then some ([], s)
      else item.andThen
        (fun a => (readTail close item (s.length + 1)).map (fun rest => a :: rest)) (c :: s)

variable {close : UInt8} {item : α → Str} {read : Reader β} {norm : α → β}

theorem readTail_nil (fuel : ℕ) : readTail close read fuel [] = none := by
  cases fuel with
  | zero => rfl
  | succ fuel => rfl

theorem writeTail_cons (hclose : close ∈ delimiters) (item : α → Str) (items : List α) :
    ∃ c t, writeTail close item items = c :: t ∧ c ∈ delimiters := by
  cases items with
  | nil => exact ⟨close, [], rfl, hclose⟩
  | cons a rest => exact ⟨44, _, rfl, by decide⟩

theorem length_writeTail (close : UInt8) (item : α → Str) (items : List α) :
    items.length < (writeTail close item items).length := by
  induction items with
  | nil => simp [writeTail]
  | cons a rest ih =>
    simp only [writeTail, List.length_cons, List.length_append]
    omega

section Delimited

variable (hclose : close ∈ delimiters)

include hclose

/-- An item and the part of the text that `tail` takes in after it. -/
theorem Reads.item_whole {b : β} {items : List α} {fuel : ℕ} (h : Reads read text b) (rest : Str)
    (htail : readTail close read fuel (writeTail close item items ++ rest) =
      some (items.map norm, rest)) :
    read.andThen (fun a => (readTail close read fuel).map (fun more => a :: more))
      (text ++ (writeTail close item items ++ rest)) = some (b :: items.map norm, rest) := by
  obtain ⟨c, t, htext, hc⟩ := writeTail_cons hclose item items
  rw [htext, List.cons_append] at htail ⊢
  rw [Reader.andThen, h.whole c _ hc, Option.bind_some, Reader.map, htail]
  rfl

theorem Reads.item_short {b : β} {items : List α} {fuel : ℕ} (h : Reads read text b)
    (htail : ∀ q, q <+: writeTail close item items → q ≠ writeTail close item items →
      readTail close read fuel q = none) (p : Str) (hp : p <+: text ++ writeTail close item items)
    (hne : p ≠ text ++ writeTail close item items) :
    read.andThen (fun a => (readTail close read fuel).map (fun more => a :: more)) p = none := by
  obtain ⟨c, t, htext, hc⟩ := writeTail_cons hclose item items
  rw [htext] at htail hp hne
  refine h.andThen_short hc (fun a => ?_) (fun q hq hqne => ?_) p hp hne
  · rw [Reader.map, readTail_nil]
    rfl
  · rw [Reader.map, htail q hq hqne]
    rfl

theorem readTail_whole (hcomma : close ≠ 44) {items : List α}
    (hitems : ∀ a ∈ items, Reads read (item a) (norm a)) (fuel : ℕ) (hfuel : items.length < fuel)
    (rest : Str) :
    readTail close read fuel (writeTail close item items ++ rest) =
      some (items.map norm, rest) := by
  induction items generalizing fuel with
  | nil =>
    obtain ⟨fuel, rfl⟩ : ∃ n, fuel = n + 1 := ⟨fuel - 1, by simp at hfuel; omega⟩
    simp [writeTail, readTail]
  | cons a items ih =>
    obtain ⟨fuel, rfl⟩ : ∃ n, fuel = n + 1 := ⟨fuel - 1, by omega⟩
    have htail := ih (fun a ha => hitems a (List.mem_cons_of_mem _ ha)) fuel (by simpa using hfuel)
    rw [writeTail, List.cons_append, List.append_assoc, readTail, if_neg (Ne.symm hcomma),
      if_pos rfl]
    exact (hitems a (List.mem_cons_self ..)).item_whole hclose rest htail

/-- A list that breaks off is not read. -/
theorem readTail_short (hcomma : close ≠ 44) {items : List α}
    (hitems : ∀ a ∈ items, Reads read (item a) (norm a)) (fuel : ℕ) (p : Str)
    (hp : p <+: writeTail close item items) (hne : p ≠ writeTail close item items) :
    readTail close read fuel p = none := by
  induction items generalizing fuel p with
  | nil =>
    cases p with
    | nil => exact readTail_nil fuel
    | cons c p => exact absurd (hp.eq_of_length_le (by simp [writeTail])) hne
  | cons a items ih =>
    rcases fuel with _ | fuel
    · rfl
    · cases p with
      | nil => rfl
      | cons c p =>
        obtain ⟨rfl, hrest⟩ := List.cons_prefix_cons.mp hp
        rw [readTail, if_neg (Ne.symm hcomma), if_pos rfl]
        refine (hitems a (List.mem_cons_self ..)).item_short hclose (fun q hq hqne => ?_) p hrest
          (fun heq => hne (by rw [heq, writeTail]))
        exact ih (fun a ha => hitems a (List.mem_cons_of_mem _ ha)) fuel q hq hqne

/-- A sequence is read item by item, when no item looks like the end. -/
theorem takes_seq (hcomma : close ≠ 44) {items : List α}
    (hitems : ∀ a ∈ items, Reads read (item a) (norm a))
    (hopen : ∀ a ∈ items, ∃ c t, item a = c :: t ∧ c ≠ close) :
    Takes (readSeq close read) (writeSeq close item items) (items.map norm) := by
  cases items with
  | nil =>
    refine ⟨fun rest => by simp [writeSeq, readSeq], fun p hp hne => ?_⟩
    cases p with
    | nil => rfl
    | cons c p => exact absurd (hp.eq_of_length_le (by simp [writeSeq])) hne
  | cons a items =>
    obtain ⟨c, t, hitem, hc⟩ := hopen a (List.mem_cons_self ..)
    have hread := hitems a (List.mem_cons_self ..)
    have hmore : ∀ a ∈ items, Reads read (item a) (norm a) :=
      fun a ha => hitems a (List.mem_cons_of_mem _ ha)
    refine ⟨fun rest => ?_, fun p hp hne => ?_⟩
    · have hlength := length_writeTail close item items
      have htail := hread.item_whole hclose rest (readTail_whole hclose hcomma hmore
        ((t ++ (writeTail close item items ++ rest)).length + 1)
        (by simp only [List.length_append]; omega) rest)
      rw [writeSeq, List.append_assoc]
      rw [hitem, List.cons_append] at htail ⊢
      rw [readSeq, if_neg hc]
      exact htail
    · rw [writeSeq] at hp hne
      cases p with
      | nil => rfl
      | cons x p =>
        have hx : x = c := by
          rw [hitem, List.cons_append] at hp
          exact (List.cons_prefix_cons.mp hp).1
        rw [readSeq, if_neg (by rw [hx]; exact hc)]
        exact hread.item_short hclose (readTail_short hclose hcomma hmore _) (x :: p) hp hne

end Delimited

end Sequences

end Flux.TextReaders
