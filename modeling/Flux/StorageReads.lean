import Flux.RecordReads
import Flux.StorageRuns

/-!
Reads by offset. `Consume` slices the in-memory log by position, so it finds the
records at and above an offset exactly when every record stands at the position
that its offset names. Retention moves the records and breaks this.
-/
namespace Flux.StorageReads

open GoRuntime GoStrings FiniteMap PartitionStorage SegmentedLogs Runs RecordReads
open StorageFrames StorageAppends StorageCalls StorageRuns

variable {messages : List Message} {offset : Int}

def recordsFrom (s : Storage) (topic : Str) (partition offset : Int) : List Message :=
  (messagesOf s topic partition).filter (fun m => offset ≤ m.offset)

/-- Every reader gets the records that the offset it names asks for. -/
structure ReadsByOffset (s : Storage) (topic : Str) (partition : Int) : Prop where
  ascending : (messagesOf s topic partition).Pairwise (fun a b => a.offset < b.offset)
  consumed : ∀ offset, 0 ≤ offset →
    consume s topic partition offset = .ok (recordsFrom s topic partition offset)
  committed : ∀ offset highWatermark, 0 ≤ offset →
    consumeRecords s topic partition offset highWatermark =
      .ok ((recordsFrom s topic partition offset).filter (fun m => m.offset ≤ highWatermark))
  fetched : ∀ offset leaderOffset maxMessages, 0 ≤ offset → offset ≤ leaderOffset →
    makeCap stringSize maxMessages = .ok () →
    fetchRecords s topic partition offset leaderOffset maxMessages =
      .ok ((recordsFrom s topic partition offset).take maxMessages.toNat)

/-- Every retained record stands at the position that its offset names. -/
def Positional (messages : List Message) : Prop :=
  ∀ (i : ℕ) (m : Message), messages[i]? = some m → m.offset = i

theorem consume_eq_drop (s : Storage) (topic : Str) (partition offset : Int) (h : 0 ≤ offset) :
    consume s topic partition offset =
      .ok ((messagesOf s topic partition).drop offset.toNat) := by
  unfold consume messagesOf
  cases get2 s.data topic partition with
  | none => simp
  | some messages =>
    simp only [Option.getD_some]
    split
    · rename_i hlong
      rw [List.drop_eq_nil_of_le (by omega)]
    · rename_i hshort
      unfold sliceFrom
      rw [if_neg (by omega)]

theorem Positional.lt_of_mem_take (h : Positional messages) {n : ℕ} {m : Message}
    (hm : m ∈ messages.take n) : m.offset < n := by
  obtain ⟨i, hi⟩ := List.mem_iff_getElem?.mp hm
  rw [List.getElem?_take] at hi
  split at hi
  · rename_i hlt
    have := h i m hi
    omega
  · contradiction

theorem Positional.le_of_mem_drop (h : Positional messages) {n : ℕ} {m : Message}
    (hm : m ∈ messages.drop n) : (n : Int) ≤ m.offset := by
  obtain ⟨i, hi⟩ := List.mem_iff_getElem?.mp hm
  rw [List.getElem?_drop] at hi
  have := h (n + i) m hi
  omega

/-- Where positions are offsets, slicing by position selects by offset. -/
theorem Positional.drop_eq (h : Positional messages) (n : ℕ) :
    messages.drop n = messages.filter (fun m => (n : Int) ≤ m.offset) := by
  have hlow : (messages.take n).filter (fun m => (n : Int) ≤ m.offset) = [] := by
    rw [List.filter_eq_nil_iff]
    intro m hm
    have := h.lt_of_mem_take hm
    simp only [decide_eq_true_eq]
    omega
  have hhigh : (messages.drop n).filter (fun m => (n : Int) ≤ m.offset) = messages.drop n := by
    rw [List.filter_eq_self]
    intro m hm
    simpa using h.le_of_mem_drop hm
  calc messages.drop n
      = (messages.take n ++ messages.drop n).filter (fun m => (n : Int) ≤ m.offset) := by
        rw [List.filter_append, hlow, hhigh, List.nil_append]
    _ = messages.filter (fun m => (n : Int) ≤ m.offset) := by rw [List.take_append_drop]

/-- If slicing selects by offset everywhere, every record stands at its offset. -/
theorem positional_of_drop
    (h : ∀ n : ℕ, messages.drop n = messages.filter (fun m => (n : Int) ≤ m.offset)) :
    Positional messages := by
  intro i m hm
  have hi : i < messages.length := (List.getElem?_eq_some_iff.mp hm).1
  have hcons : messages.drop i = m :: messages.drop (i + 1) := by
    rw [List.drop_eq_getElem_cons hi, (List.getElem?_eq_some_iff.mp hm).2]
  have hlow : (i : Int) ≤ m.offset := by
    have hmem : m ∈ messages.filter (fun m => (i : Int) ≤ m.offset) := by
      rw [← h i, hcons]
      exact List.mem_cons_self ..
    simpa using (List.mem_filter.mp hmem).2
  have hhigh : ¬ ((i + 1 : ℕ) : Int) ≤ m.offset := by
    intro hle
    have hnext : (messages.drop i).filter (fun m => ((i + 1 : ℕ) : Int) ≤ m.offset) =
        messages.drop (i + 1) := by
      rw [h i, h (i + 1), List.filter_filter]
      apply List.filter_congr
      intro m' _
      simp only [decide_eq_decide, ← Bool.decide_and]
      omega
    have hkeep : (messages.drop (i + 1)).filter (fun m => ((i + 1 : ℕ) : Int) ≤ m.offset) =
        messages.drop (i + 1) := by
      rw [h (i + 1), List.filter_filter]
      simp
    rw [hcons, List.filter_cons_of_pos (by simpa using hle), hkeep] at hnext
    have hlength := congrArg List.length hnext
    simp at hlength
  push_cast at hhigh
  omega

theorem Positional.ascending (h : Positional messages) :
    messages.Pairwise (fun a b => a.offset < b.offset) := by
  rw [List.pairwise_iff_getElem]
  intro i j hi hj hij
  have ha := h i messages[i] (List.getElem?_eq_getElem hi)
  have hb := h j messages[j] (List.getElem?_eq_getElem hj)
  omega

/-- A walk over ascending offsets that stops at the first one above a bound
takes every record up to the bound. -/
theorem takeWhile_eq_filter (h : messages.Pairwise (fun a b => a.offset < b.offset)) (bound : Int) :
    messages.takeWhile (fun m => m.offset ≤ bound) =
      messages.filter (fun m => m.offset ≤ bound) := by
  induction messages with
  | nil => rfl
  | cons m rest ih =>
    rw [List.pairwise_cons] at h
    by_cases hm : m.offset ≤ bound
    · rw [List.takeWhile_cons_of_pos (by simpa using hm),
        List.filter_cons_of_pos (by simpa using hm), ih h.2]
    · rw [List.takeWhile_cons_of_neg (by simpa using hm),
        List.filter_cons_of_neg (by simpa using hm)]
      symm
      rw [List.filter_eq_nil_iff]
      intro m' hm'
      have := h.1 m' hm'
      simp only [decide_eq_true_eq]
      omega

section Readers

variable {s : Storage} {topic : Str} {partition : Int}

theorem Positional.consumed (h : Positional (messagesOf s topic partition)) (hoffset : 0 ≤ offset) :
    consume s topic partition offset = .ok (recordsFrom s topic partition offset) := by
  rw [consume_eq_drop s topic partition offset hoffset, h.drop_eq, recordsFrom,
    Int.toNat_of_nonneg hoffset]

theorem Positional.committed (h : Positional (messagesOf s topic partition)) (highWatermark : Int)
    (hoffset : 0 ≤ offset) :
    consumeRecords s topic partition offset highWatermark =
      .ok ((recordsFrom s topic partition offset).filter (fun m => m.offset ≤ highWatermark)) := by
  unfold consumeRecords
  split
  · symm
    rw [Except.ok.injEq, List.filter_eq_nil_iff]
    intro m hm
    have := (List.mem_filter.mp hm).2
    simp only [decide_eq_true_eq] at this ⊢
    omega
  · have hsorted : (recordsFrom s topic partition offset).Pairwise
        (fun a b => a.offset < b.offset) := h.ascending.filter _
    rw [h.consumed hoffset, Except.map, takeWhile_eq_filter hsorted]

theorem Positional.fetched (h : Positional (messagesOf s topic partition))
    {leaderOffset maxMessages : Int} (hoffset : 0 ≤ offset) (hle : offset ≤ leaderOffset)
    (hmax : makeCap stringSize maxMessages = .ok ()) :
    fetchRecords s topic partition offset leaderOffset maxMessages =
      .ok ((recordsFrom s topic partition offset).take maxMessages.toNat) := by
  unfold fetchRecords
  rw [if_neg (by omega), h.consumed hoffset, Except.bind, hmax]
  rfl

end Readers

/-- Readers get the records at and above the offset they name exactly when the
retained records stand at the positions that their offsets name. -/
theorem readsByOffset_iff_positional (s : Storage) (topic : Str) (partition : Int) :
    ReadsByOffset s topic partition ↔ Positional (messagesOf s topic partition) := by
  constructor
  · intro h
    apply positional_of_drop
    intro n
    have hread := h.consumed n (by omega)
    rw [consume_eq_drop s topic partition n (by omega), Except.ok.injEq] at hread
    simpa [recordsFrom] using hread
  · intro h
    exact ⟨h.ascending, fun _ => h.consumed, fun _ highWatermark => h.committed highWatermark,
      fun _ _ _ => h.fetched⟩

theorem positional_of_head (h : Consecutive Message.offset messages)
    (hhead : ∀ m ∈ messages.head?, m.offset = 0) : Positional messages := by
  intro i m hm
  cases messages with
  | nil => simp at hm
  | cons first rest =>
    have := h.position_eq i m hm
    rw [hhead first rfl] at this
    omega

/-- While no file is damaged, readers find their records exactly as long as the
first retained record has offset 0: until retention deletes its segment. -/
theorem reached_reads_iff {env : Env} (hok : Succeeds env) (settings : Settings)
    (calls : List Call) (hvalid : Valid step Admissible (newStorage env settings FMap.empty) calls)
    (hlength : calls.length < 2 ^ 63) {t : Str} {p : Int} (ht : Plain t) (hp : Natural p) :
    ReadsByOffset (reached env settings calls) t p ↔
      ∀ m ∈ (messagesOf (reached env settings calls) t p).head?, m.offset = 0 := by
  obtain ⟨L, hL, -⟩ := (sound_reached hok settings hvalid hlength).logs t p ht hp
  constructor
  · intro h m hm
    rw [List.head?_eq_getElem?] at hm
    refine positional_of_drop (fun n => ?_) 0 m hm
    have hread := h.consumed n (by omega)
    rw [consume_eq_drop _ t p n (by omega), Except.ok.injEq] at hread
    simpa [recordsFrom] using hread
  · intro hhead
    have h := positional_of_head (consistent_of_holds hL).consecutive hhead
    exact ⟨h.ascending, fun _ => h.consumed, fun _ w => h.committed w, fun _ _ _ => h.fetched⟩

theorem reached_reads_restart :
    messagesOf (reached (calm 0) defaultSettings twoRecords) (lit "orders") 0 =
        [⟨0, lit "a"⟩, ⟨1, lit "b"⟩] ∧
      ReadsByOffset (reached (calm 0) defaultSettings twoRecords) (lit "orders") 0 := by
  refine ⟨by decide +kernel, ?_⟩
  refine (reached_reads_iff (calm_succeeds 0) defaultSettings twoRecords valid_twoRecords
    (by decide) orders_plain zero_natural).mpr ?_
  decide +kernel

def tightSettings : Settings :=
  newSettings { BrokerConfig.defaults with segmentMaxBytes := 1, retentionMaxBytes := 1 }

/-- Two records are produced, retention deletes the first, and a read at the
offset of the second finds nothing. -/
theorem retained_record_not_found :
    let s := reached (calm 0) tightSettings [.produce (calm 1) (lit "orders") 0 (lit "a"),
      .produce (calm 2) (lit "orders") 0 (lit "b")]
    messagesOf s (lit "orders") 0 = [⟨1, lit "b"⟩] ∧ consume s (lit "orders") 0 1 = .ok [] ∧
      ¬ ReadsByOffset s (lit "orders") 0 := by
  intro s
  have hmessages : messagesOf s (lit "orders") 0 = [⟨1, lit "b"⟩] := by decide
  refine ⟨hmessages, by decide, ?_⟩
  intro h
  have := h.consumed 1 (by omega)
  rw [consume_eq_drop s _ _ 1 (by omega), recordsFrom, hmessages] at this
  exact absurd this (by decide)

end Flux.StorageReads
