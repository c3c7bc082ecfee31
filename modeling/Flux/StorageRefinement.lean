import Flux.StorageReplay

/-!
A partition of the storage represents a segmented log: the files hold its
segments, the memory holds its entries, and the write state lists its segments,
possibly after a segment 0 that has no file. Retention trims the represented
log and rebuilds the memory from what is left.
-/
namespace Flux.StorageRefinement

open GoStrings LogLines SegmentNames FiniteMap PartitionStorage SegmentedLogs
open StorageFrames StorageReplay

abbrev PartitionLog := SegmentedLog Record.offset

variable {L' : PartitionLog} {k next segID : Int} {rest : List Int} {st : PartitionState}

structure Stored (disk : Disk) (topic : Str) (partition : Int) (L : PartitionLog) : Prop where
  ids_natural : ∀ k ∈ L.ids, Natural k
  loggable : ∀ r ∈ L.entries, Loggable r
  files : ∀ k, Natural k → (disk.get (segmentName topic partition k)).map File.content =
    (L.segment k).map (fun records => records.flatMap formatLine)

structure Tracks (st : PartitionState) (L : PartitionLog) : Prop where
  segments : st.segments = L.ids ∨ st.segments = 0 :: L.ids
  ascending : st.segments.Pairwise (· < ·)
  active : st.segments.getLast? = some st.activeSegmentID
  next : st.nextOffset = L.next

structure Holds (s : Storage) (topic : Str) (partition : Int) (L : PartitionLog) : Prop where
  stored : Stored s.disk topic partition L
  messages : messagesOf s topic partition = L.entries.map toMessage
  untracked : get2 s.partitionState topic partition = none → L.ids = []
  tracked : ∀ st, get2 s.partitionState topic partition = some st → Tracks st L

structure Trimmed (L L' : PartitionLog) : Prop where
  next : L'.next = L.next
  ids : L'.ids <:+ L.ids
  entries : L'.entries <:+ L.entries

theorem Trimmed.refl (L : PartitionLog) : Trimmed L L :=
  ⟨rfl, List.suffix_refl _, List.suffix_refl _⟩

theorem Trimmed.trans {L L'' : PartitionLog} (h : Trimmed L L') (h' : Trimmed L' L'') :
    Trimmed L L'' :=
  ⟨h'.next.trans h.next, h'.ids.trans h.ids, h'.entries.trans h.entries⟩

section Shapes

variable {st : PartitionState} {L : PartitionLog}

theorem Tracks.phantom_or_listed (h : Tracks st L) (hseg : st.segments = segID :: rest) :
    (segID ∉ L.ids ∧ rest = L.ids) ∨ (segID ∈ L.ids ∧ L.ids = segID :: rest) := by
  have hasc := h.ascending
  rw [hseg, List.pairwise_cons] at hasc
  rcases h.segments with hids | hids
  · right
    rw [hseg] at hids
    exact ⟨by rw [← hids]; exact List.mem_cons_self .., hids.symm⟩
  · left
    rw [hseg, List.cons.injEq] at hids
    refine ⟨?_, hids.2⟩
    intro hmem
    have := hasc.1 segID (hids.2 ▸ hmem)
    omega

/-- The state with its first segment dropped tracks a log that lists the rest. -/
theorem Tracks.dropFirst (h : Tracks st L) (hseg : st.segments = segID :: next :: rest)
    (hids : L'.ids = next :: rest) (hnext : L'.next = L.next) :
    Tracks { st with segments := st.segments.tail } L' where
  segments := Or.inl (by simp [hseg, hids])
  ascending := h.ascending.tail
  active := by
    have := h.active
    simpa [hseg] using this
  next := h.next.trans hnext.symm

theorem Tracks.congr {st' : PartitionState} (h : Tracks st L)
    (hseg : st'.segments = st.segments) (hactive : st'.activeSegmentID = st.activeSegmentID)
    (hnext : st'.nextOffset = L.next) : Tracks st' L where
  segments := hseg ▸ h.segments
  ascending := hseg ▸ h.ascending
  active := by rw [hseg, hactive, h.active]
  next := hnext

theorem Tracks.le_active (h : Tracks st L) (hk : k ∈ st.segments) : k ≤ st.activeSegmentID :=
  le_getLast h.ascending h.active hk

theorem Tracks.ids_le_active (h : Tracks st L) :
    ∀ k ∈ L.ids, k ≤ st.activeSegmentID := by
  intro k hk
  apply h.le_active
  rcases h.segments with hids | hids
  · rwa [hids]
  · rw [hids]
    exact List.mem_cons_of_mem _ hk

theorem Tracks.active_cases (h : Tracks st L) :
    st.activeSegmentID ∈ L.ids ∨ (L.ids = [] ∧ st.segments = [0] ∧ st.activeSegmentID = 0) := by
  have hactive := h.active
  rcases h.segments with hids | hids
  · left
    rw [← hids]
    exact List.mem_of_getLast? hactive
  · cases hL : L.ids with
    | nil =>
      right
      rw [hids, hL, List.getLast?_singleton, Option.some.injEq] at hactive
      exact ⟨rfl, by rw [hids, hL], hactive.symm⟩
    | cons k rest =>
      left
      rw [hids, hL, List.getLast?_cons_cons] at hactive
      exact List.mem_of_getLast? hactive

end Shapes

section Files

variable {disk : Disk} {topic : Str} {partition : Int} {L : PartitionLog}

theorem Stored.congr {disk' : Disk} (h : Stored disk topic partition L)
    (hsame : ∀ k, disk'.get (segmentName topic partition k) =
      disk.get (segmentName topic partition k)) : Stored disk' topic partition L where
  ids_natural := h.ids_natural
  loggable := h.loggable
  files k hk := by rw [hsame, h.files k hk]

theorem Stored.exists_iff (h : Stored disk topic partition L) (hk : Natural k) :
    (disk.get (segmentName topic partition k)).isSome ↔ k ∈ L.ids := by
  rw [L.mem_ids_iff, ← Option.isSome_map, h.files k hk, Option.isSome_map]

theorem mem_entries_of_segment {records : List Record} (h : L.segment k = some records) :
    ∀ r ∈ records, r ∈ L.entries := by
  intro r hr
  rw [← L.flatMap_segment, List.mem_flatMap]
  exact ⟨k, by simp [L.mem_ids_iff, h], by simpa [h] using hr⟩

theorem Stored.replayed_eq (h : Stored disk topic partition L) (hk : Natural k) :
    replayed disk (segmentName topic partition k) = (L.segment k).getD [] := by
  have hfile := h.files k hk
  unfold replayed
  cases hd : disk.get (segmentName topic partition k) with
  | none =>
    rw [hd] at hfile
    cases hs : L.segment k with
    | none => rfl
    | some records => simp [hs] at hfile
  | some file =>
    rw [hd] at hfile
    cases hs : L.segment k with
    | none => simp [hs] at hfile
    | some records =>
      simp only [hs, Option.map_some, Option.some.injEq] at hfile
      change replay file.content = records
      rw [hfile]
      exact replay_flatMap_formatLine records
        (fun r hr => h.loggable r (mem_entries_of_segment hs r hr))

theorem Stored.replayedAll_ids (h : Stored disk topic partition L) :
    replayedAll disk topic partition L.ids = L.entries := by
  rw [← L.flatMap_segment, replayedAll]
  exact List.flatMap_congr (fun k hk => h.replayed_eq (h.ids_natural k hk))

/-- Replaying the listed segments gives every entry of the log. -/
theorem Stored.replayedAll_eq (h : Stored disk topic partition L) {segments : List Int}
    (hseg : segments = L.ids ∨ segments = 0 :: L.ids) (hasc : segments.Pairwise (· < ·)) :
    replayedAll disk topic partition segments = L.entries := by
  rcases hseg with rfl | rfl
  · exact h.replayedAll_ids
  · have hzero : 0 ∉ L.ids := by
      intro hmem
      have := (List.pairwise_cons.mp hasc).1 0 hmem
      omega
    have hempty : replayed disk (segmentName topic partition 0) = [] := by
      rw [h.replayed_eq ⟨by omega, by decide⟩, L.segment_eq_none hzero]
      rfl
    have hrest := h.replayedAll_ids
    unfold replayedAll at hrest ⊢
    rw [List.flatMap_cons, hempty, hrest, List.nil_append]

theorem segmentName_ne {j : Int} (hkey : PartitionKey topic partition) (hk : Natural k)
    (hj : Natural j) (h : k ≠ j) :
    segmentName topic partition k ≠ segmentName topic partition j := by
  intro he
  have hp := hkey.partition_natural
  exact h (segmentName_injective hkey.topic_parsable hkey.topic_parsable hp hp hk hj he).2.2

/-- Removing a file removes its segment. -/
theorem Stored.remove (hkey : PartitionKey topic partition) (h : Stored disk topic partition L)
    (hseg : Natural segID) (htrim : Trimmed L L')
    (hsegment : ∀ k, L'.segment k = if k = segID then none else L.segment k) :
    Stored (disk.del (segmentName topic partition segID)) topic partition L' where
  ids_natural k hk := h.ids_natural k (htrim.ids.subset hk)
  loggable r hr := h.loggable r (htrim.entries.subset hr)
  files k hk := by
    rw [hsegment]
    by_cases he : k = segID
    · simp [he]
    · rw [FMap.get_del_ne _ (segmentName_ne hkey hk hseg he), h.files k hk]
      simp [he]

theorem Stored.natural_of_mem (h : Stored disk topic partition L) (htrack : Tracks st L)
    (hk : k ∈ st.segments) : Natural k := by
  rcases htrack.segments with hids | hids
  · exact h.ids_natural k (hids ▸ hk)
  · rw [hids] at hk
    rcases List.mem_cons.mp hk with rfl | hmem
    · exact ⟨by omega, by decide⟩
    · exact h.ids_natural k hmem

end Files

theorem advance_entries (L : PartitionLog) : advance Record.offset 0 L.entries = L.next :=
  advance_eq_after L.entries 0 L.consecutive
    (fun r hr => L.nonneg r (List.mem_of_mem_head? hr))

section Retention

variable (env : Env) {s : Storage} {topic : Str} {partition : Int} {L : PartitionLog}

/-- Rebuilding makes the memory agree with the files, whatever it held. -/
theorem holds_rebuild (hstored : Stored s.disk topic partition L)
    (hseg : st.segments = L.ids ∨ st.segments = 0 :: L.ids) (hasc : st.segments.Pairwise (· < ·))
    (hactive : st.segments.getLast? = some st.activeSegmentID) :
    Holds (rebuildPartitionFromSegments env s topic partition st) topic partition L := by
  have heffect := rebuild_effect env topic partition s st
  have hframe := rebuildPartitionFromSegments_local env s topic partition st
  simp only [hstored.replayedAll_eq hseg hasc, advance_entries] at heffect
  refine ⟨?_, heffect.1, ?_, ?_⟩
  · exact hstored.congr (fun k => hframe.disk _ (segmentName_not_isIndex topic partition k))
  · intro hnone
    rw [heffect.2] at hnone
    contradiction
  · intro st' hst'
    rw [heffect.2, Option.some.injEq] at hst'
    rw [← hst']
    exact ⟨hseg, hasc, hactive, rfl⟩

/-- Deleting the first of several segments trims the log, or drops a segment
that has no file. -/
theorem holds_deleteSegment (hkey : PartitionKey topic partition) (h : Holds s topic partition L)
    (hst : get2 s.partitionState topic partition = some st)
    (hseg : st.segments = segID :: next :: rest) :
    ∃ L', Holds (deleteSegment env s topic partition st segID) topic partition L' ∧
      Trimmed L L' := by
  have htrack := h.tracked st hst
  have hasc : (st.segments.tail).Pairwise (· < ·) := htrack.ascending.tail
  have hactive : st.segments.tail.getLast? = some st.activeSegmentID := by
    have := htrack.active
    simpa [hseg] using this
  have hnatural := h.stored.natural_of_mem htrack (by rw [hseg]; exact List.mem_cons_self ..)
  rcases htrack.phantom_or_listed hseg with ⟨hnot, hrest⟩ | ⟨hmem, hids⟩
  · refine ⟨L, ?_, Trimmed.refl L⟩
    apply holds_rebuild env _ (Or.inl (by simp [hseg, hrest])) hasc hactive
    apply h.stored.remove hkey hnatural (Trimmed.refl L)
    intro k
    split
    · rename_i he
      rw [he, L.segment_eq_none hnot]
    · rfl
  · have htrim : Trimmed L L.trim :=
      ⟨L.next_trim hids, by rw [L.ids_trim]; exact List.tail_suffix _, L.entries_trim_suffix⟩
    refine ⟨L.trim, ?_, htrim⟩
    apply holds_rebuild env _ (Or.inl (by simp [hseg, L.ids_trim, hids])) hasc hactive
    exact h.stored.remove hkey hnatural htrim (L.segment_trim hids)

/-- Dropping a segment that has no file only shortens the list of segments. -/
theorem holds_dropPhantom (h : Holds s topic partition L)
    (hst : get2 s.partitionState topic partition = some st)
    (hseg : st.segments = segID :: next :: rest)
    (hnone : s.disk.get (segmentName topic partition segID) = none) :
    Holds (setState s topic partition { st with segments := st.segments.tail })
      topic partition L := by
  have htrack := h.tracked st hst
  have hnatural := h.stored.natural_of_mem htrack (by rw [hseg]; exact List.mem_cons_self ..)
  have hnot : segID ∉ L.ids := by
    rw [← h.stored.exists_iff hnatural, hnone]
    simp
  rcases htrack.phantom_or_listed hseg with ⟨-, hrest⟩ | ⟨hmem, -⟩
  · refine ⟨h.stored, h.messages, ?_, ?_⟩
    · intro hst'
      rw [get2_setState] at hst'
      contradiction
    · intro st' hst'
      rw [get2_setState, Option.some.injEq] at hst'
      rw [← hst']
      exact htrack.dropFirst hseg hrest.symm rfl
  · exact absurd hmem hnot

/-- Retention trims the log. -/
theorem trims_holds (hkey : PartitionKey topic partition) (L : PartitionLog) :
    Trims env topic partition (fun s => ∃ L', Holds s topic partition L' ∧ Trimmed L L') where
  drop := by
    rintro s st segID next rest ⟨L', h, htrim⟩ hst hseg hnone
    exact ⟨L', holds_dropPhantom h hst hseg hnone, htrim⟩
  delete := by
    rintro s st segID next rest ⟨L', h, htrim⟩ hst hseg
    obtain ⟨L'', h', htrim'⟩ := holds_deleteSegment env hkey h hst hseg
    exact ⟨L'', h', htrim.trans htrim'⟩

/-- A change elsewhere leaves the represented log as it is. -/
theorem Holds.frame {s' : Storage} {t : Str} {p : Int} {names : Str → Prop}
    (h : Holds s topic partition L) (hlocal : Local t p names s s')
    (hne : (topic, partition) ≠ (t, p)) (hnames : ∀ k, ¬ names (segmentName topic partition k)) :
    Holds s' topic partition L where
  stored := h.stored.congr (fun k => hlocal.disk _ (hnames k))
  messages := by
    rw [← h.messages]
    simp only [messagesOf, hlocal.data topic partition hne]
  untracked hnone := h.untracked (by rw [← hlocal.state topic partition hne, hnone])
  tracked st hst := h.tracked st (by rw [← hlocal.state topic partition hne, hst])

theorem not_owned {t : Str} {p : Int} (hkey : PartitionKey topic partition)
    (hkey' : PartitionKey t p) (hne : (topic, partition) ≠ (t, p)) (k : Int) :
    ¬ Owned t p (segmentName topic partition k) := by
  rintro (hindex | ⟨j, hname⟩)
  · exact segmentName_not_isIndex topic partition k hindex
  · have := segmentName_partition_injective hkey.topic_parsable hkey'.topic_parsable
      hkey.partition_natural.1 hkey'.partition_natural.1 hname
    exact hne (by rw [this.1, this.2])

theorem holds_foldl_retainPartition (hkey : PartitionKey topic partition)
    (keys : List (Str × Int)) (hkeys : ∀ key ∈ keys, PartitionKey key.1 key.2)
    (h : Holds s topic partition L) :
    ∃ L', Holds (keys.foldl (retainPartition env) s) topic partition L' ∧ Trimmed L L' := by
  refine (trims_holds env hkey L).visits ?_ ⟨L, h, Trimmed.refl L⟩
  rintro s key hmem hother ⟨L', h', htrim⟩
  exact ⟨L', h'.frame (retainPartition_local env s key) hother
    (not_owned hkey (hkeys key hmem) hother), htrim⟩

end Retention

end Flux.StorageRefinement
