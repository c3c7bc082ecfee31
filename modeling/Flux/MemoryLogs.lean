import Flux.StorageReads

/-!
The log of a partition as the memory of a broker has it. Whatever the calls meet
outside the storage, a retention pass either leaves the memory of a partition
alone or drops segments from its list. So as long as no segment is dropped, the
memory holds every record from offset 0 on, and an append adds its record at the
end or leaves the log as it is.
-/
namespace Flux.MemoryLogs

open GoRuntime GoStrings LogLines FiniteMap PartitionStorage StorageReplay
open StorageAppends StorageCalls StorageReads

def segmentsOf (s : Storage) (topic : Str) (partition : Int) : List Int :=
  match get2 s.partitionState topic partition with
  | some st => st.segments
  | none => [0]

def Undropped (topic : Str) (partition : Int) (s s' : Storage) : Prop :=
  segmentsOf s topic partition <+: segmentsOf s' topic partition

instance (topic : Str) (partition : Int) (s s' : Storage) :
    Decidable (Undropped topic partition s s') :=
  inferInstanceAs (Decidable (segmentsOf s topic partition <+: segmentsOf s' topic partition))

structure Whole (s : Storage) (topic : Str) (partition : Int) : Prop where
  positional : Positional (messagesOf s topic partition)
  next : nextOffsetOf s topic partition = (messagesOf s topic partition).length
  active : ∀ st, get2 s.partitionState topic partition = some st →
    st.segments.getLast? = some st.activeSegmentID

section Retention

variable (topic : Str) (partition : Int)

structure Kept (s s' : Storage) : Prop where
  messages : messagesOf s' topic partition = messagesOf s topic partition
  state : get2 s'.partitionState topic partition = get2 s.partitionState topic partition

def Shortened (s s' : Storage) : Prop :=
  ∃ k, 0 < k ∧ segmentsOf s' topic partition = (segmentsOf s topic partition).drop k

/-- What retention can do to a partition. -/
def Retained (s s' : Storage) : Prop := Kept topic partition s s' ∨ Shortened topic partition s s'

variable {topic partition}

theorem Retained.refl (s : Storage) : Retained topic partition s s := .inl ⟨rfl, rfl⟩

theorem Kept.segments {s s' : Storage} (h : Kept topic partition s s') :
    segmentsOf s' topic partition = segmentsOf s topic partition := by
  unfold segmentsOf
  rw [h.state]

theorem Retained.trans {s s' s'' : Storage} (h : Retained topic partition s s')
    (h' : Retained topic partition s' s'') : Retained topic partition s s'' := by
  rcases h with hkept | ⟨k, hk, hdrop⟩
  · rcases h' with hkept' | ⟨j, hj, hdrop'⟩
    · exact .inl ⟨hkept'.messages.trans hkept.messages, hkept'.state.trans hkept.state⟩
    · exact .inr ⟨j, hj, by rw [hdrop', hkept.segments]⟩
  · rcases h' with hkept' | ⟨j, hj, hdrop'⟩
    · exact .inr ⟨k, hk, by rw [hkept'.segments, hdrop]⟩
    · exact .inr ⟨k + j, by omega, by rw [hdrop', hdrop, List.drop_drop]⟩

theorem segmentsOf_eq {s : Storage} {st : PartitionState}
    (h : get2 s.partitionState topic partition = some st) :
    segmentsOf s topic partition = st.segments := by
  unfold segmentsOf
  rw [h]

theorem shortened_tail {s s' : Storage} {st st' : PartitionState}
    (hst : get2 s.partitionState topic partition = some st)
    (hst' : get2 s'.partitionState topic partition = some st')
    (htail : st'.segments = st.segments.tail) : Retained topic partition s s' := by
  refine .inr ⟨1, by omega, ?_⟩
  rw [segmentsOf_eq hst, segmentsOf_eq hst', htail, List.drop_one]

theorem trims_retained (env : Env) (s : Storage) :
    Trims env topic partition (Retained topic partition s) where
  drop h hst _ _ := h.trans (shortened_tail hst (get2_setState ..) rfl)
  delete {s' st segID _ _} h hst _ := by
    obtain ⟨st', hst', hseg'⟩ := deleteSegment_segments env s' topic partition st segID
    exact h.trans (shortened_tail hst hst' hseg')

/-- A pass leaves the partition alone or drops segments of it. -/
theorem retained_enforceRetention (env : Env) (s : Storage) :
    Retained topic partition s (enforceRetentionLocked env s) := by
  refine (trims_retained env s).visits (fun s' key _ hother h => h.trans ?_) (Retained.refl s)
  have hlocal := retainPartition_local env s' key
  refine .inl ⟨?_, hlocal.state topic partition hother⟩
  simp only [messagesOf, hlocal.data topic partition hother]

end Retention

def Lists (segments segments' : List Int) : Prop :=
  segments' = segments ∨ ∃ a, segments.getLast? = some a ∧ segments' = segments ++ [a + 1]

/-- A pass after which no segment is missing has left the partition alone. -/
theorem kept_of_lists {topic : Str} {partition : Int} {s s' : Storage} {segments : List Int}
    (hne : segments ≠ []) (hlists : Lists segments (segmentsOf s topic partition))
    (hretained : Retained topic partition s s')
    (hall : segments <+: segmentsOf s' topic partition) : Kept topic partition s s' := by
  rcases hretained with hkept | ⟨k, hk, hdrop⟩
  · exact hkept
  · exfalso
    have hpos : 0 < segments.length := List.length_pos_iff.mpr hne
    have hlength := hall.length_le
    rw [hdrop] at hall hlength
    rcases hlists with hsame | ⟨a, hlast, hrotated⟩
    · rw [hsame, List.length_drop] at hlength
      omega
    · rw [hrotated, List.length_drop, List.length_append, List.length_singleton] at hlength
      have hone : k = 1 := by omega
      rw [hrotated, hone, List.drop_append_of_le_length (by omega)] at hall
      have heq := hall.eq_of_length (by simp; omega)
      rw [heq, List.getLast?_append] at hlast
      simp at hlast

section Appends

variable {s : Storage} {topic : Str} {partition : Int}

theorem Whole.nonempty (h : Whole s topic partition) : segmentsOf s topic partition ≠ [] := by
  unfold segmentsOf
  split
  · rename_i st hst
    intro hnil
    have hlast := h.active st hst
    simp [hnil] at hlast
  · simp

structure Prepared (s : Storage) (topic : Str) (partition : Int) (log : List Message)
    (segments : List Int) : Prop where
  messages : messagesOf s topic partition = log
  lists : Lists segments (segmentsOf s topic partition)
  state : ∃ st, get2 s.partitionState topic partition = some st ∧ st.nextOffset = log.length ∧
    st.segments.getLast? = some st.activeSegmentID

theorem stateOf_whole (env : Env) (h : Whole s topic partition) :
    (stateOf env s topic partition).nextOffset = (messagesOf s topic partition).length ∧
      (stateOf env s topic partition).segments = segmentsOf s topic partition ∧
      (stateOf env s topic partition).segments.getLast? =
        some (stateOf env s topic partition).activeSegmentID := by
  have hnext := h.next
  unfold nextOffsetOf at hnext
  unfold segmentsOf
  cases hst : get2 s.partitionState topic partition with
  | none =>
    rw [hst] at hnext
    have hfresh : stateOf env s topic partition = freshState env := by simp [stateOf, hst]
    rw [hfresh]
    exact ⟨hnext, rfl, rfl⟩
  | some st =>
    rw [hst] at hnext
    rw [stateOf_eq env topic partition hst]
    exact ⟨hnext, rfl, h.active st hst⟩

theorem nextOffset_ensured (env : Env) (h : Whole s topic partition) :
    (stateOf env (ensurePartitionState env s topic partition) topic partition).nextOffset =
      (messagesOf s topic partition).length := by
  rw [ensurePartitionState, stateOf_setState]
  exact (stateOf_whole env h).1

theorem prepared_ensure (env : Env) (h : Whole s topic partition) :
    Prepared (ensurePartitionState env s topic partition) topic partition
      (messagesOf s topic partition) (segmentsOf s topic partition) := by
  obtain ⟨hnext, hseg, hactive⟩ := stateOf_whole env h
  have hst : get2 (ensurePartitionState env s topic partition).partitionState topic partition =
      some (stateOf env s topic partition) := get2_setState ..
  exact ⟨rfl, .inl (by rw [segmentsOf_eq hst, hseg]), _, hst, hnext, hactive⟩

/-- A segment write leaves the memory alone. -/
theorem prepared_write (env : Env) (h : Whole s topic partition) (line : Str) :
    Prepared (writeSegment env (ensurePartitionState env s topic partition) topic partition line).1
      topic partition (messagesOf s topic partition) (segmentsOf s topic partition) := by
  obtain ⟨hnext, hseg, hactive⟩ := stateOf_whole env h
  have hst : stateOf env (ensurePartitionState env s topic partition) topic partition =
      stateOf env s topic partition := stateOf_setState ..
  unfold writeSegment
  rw [hst]
  dsimp only
  split
  · have hget := get2_setState topic partition (ensurePartitionState env s topic partition)
      (rotate (stateOf env s topic partition))
    refine ⟨rfl, .inr ⟨_, hseg ▸ hactive, ?_⟩, _, hget, hnext, ?_⟩
    · rw [← hseg]
      exact segmentsOf_eq hget
    · simp [rotate]
  · have hget := get2_setState topic partition (ensurePartitionState env s topic partition)
      (stateOf env s topic partition)
    exact ⟨rfl, .inl ((segmentsOf_eq hget).trans hseg), _, hget, hnext, hactive⟩

variable {log : List Message} {segments : List Int}

/-- The file policy and the local replicas leave the log as it is. -/
theorem Prepared.settle (env : Env) (h : Prepared s topic partition log segments)
    (settings : Settings) (written : Int) (disk : Disk) :
    Prepared { setState s topic partition (applyFsyncPolicy env settings
      (stateOf env s topic partition) written).1 with disk := disk } topic partition log
        segments := by
  obtain ⟨st, hst, hnext, hactive⟩ := h.state
  rw [stateOf_eq env topic partition hst]
  obtain ⟨hseg, hid⟩ := applyFsyncPolicy_keeps env settings st written
  have hoffset : (applyFsyncPolicy env settings st written).1.nextOffset = st.nextOffset := by
    unfold applyFsyncPolicy
    split
    · rfl
    · rfl
    · dsimp only
      split
      · split <;> rfl
      · rfl
  have hget := get2_setState topic partition s (applyFsyncPolicy env settings st written).1
  refine ⟨h.messages, ?_, _, hget, hoffset.trans hnext, by rw [hseg, hid, hactive]⟩
  have hlists := h.lists
  rw [segmentsOf_eq hst] at hlists
  exact (segmentsOf_eq hget).trans hseg ▸ hlists

theorem Prepared.whole (h : Prepared s topic partition log segments) (hlog : Positional log) :
    Whole s topic partition ∧ messagesOf s topic partition = log := by
  obtain ⟨st, hst, hnext, hactive⟩ := h.state
  refine ⟨⟨h.messages.symm ▸ hlog, ?_, fun st' hst' => ?_⟩, h.messages⟩
  · rw [nextOffsetOf, hst, h.messages]
    exact hnext
  · cases hst.symm.trans hst'
    exact hactive

theorem positional_concat (hlog : Positional log) {m : Message} (hm : m.offset = log.length) :
    Positional (log ++ [m]) := by
  intro i m' hget
  rcases Nat.lt_or_ge i log.length with hlt | hge
  · rw [List.getElem?_append_left hlt] at hget
    exact hlog i m' hget
  · have hi : i < (log ++ [m]).length := (List.getElem?_eq_some_iff.mp hget).1
    rw [List.length_append, List.length_singleton] at hi
    have heq : i = log.length := by omega
    rw [heq, List.getElem?_concat_length, Option.some.injEq] at hget
    rw [← hget, hm, heq]

/-- A record is published at the end of the log. -/
theorem Prepared.publish (env : Env) (h : Prepared s topic partition log segments)
    (hne : segments ≠ []) (hlog : Positional log) {r : Record} (hr : r.offset = log.length)
    (hall : segments <+:
      segmentsOf (PartitionStorage.publish env s topic partition r) topic partition) :
    Whole (PartitionStorage.publish env s topic partition r) topic partition ∧
      messagesOf (PartitionStorage.publish env s topic partition r) topic partition =
        log ++ [⟨r.offset, r.value⟩] := by
  obtain ⟨st, hst, hnext, hactive⟩ := h.state
  have hget : get2 (recordPublished env s topic partition r).partitionState topic partition =
      some { st with nextOffset := r.offset + 1 } := by
    simp only [recordPublished, stateOf_eq env topic partition hst]
    exact get2_setState ..
  have hmessages : messagesOf (recordPublished env s topic partition r) topic partition =
      log ++ [⟨r.offset, r.value⟩] := by
    simp only [recordPublished, messagesOf_setState, messagesOf_pushMessage, messagesOf_setDisk,
      h.messages]
  have hlists : Lists segments
      (segmentsOf (recordPublished env s topic partition r) topic partition) := by
    rw [segmentsOf_eq hget]
    have := h.lists
    rwa [segmentsOf_eq hst] at this
  rw [publish_eq] at hall ⊢
  have hkept := kept_of_lists hne hlists (retained_enforceRetention env _) hall
  have hfinal := hkept.messages.trans hmessages
  refine ⟨⟨?_, ?_, fun st' hst' => ?_⟩, hfinal⟩
  · rw [hfinal]
    exact positional_concat hlog hr
  · rw [nextOffsetOf, hkept.state, hget, hfinal]
    simp [hr]
  · rw [hkept.state, hget] at hst'
    cases hst'
    exact hactive

def writes (env : Env) (s : Storage) (topic : Str) (partition : Int) (value : Str) : Bool :=
  env.mkdirOk && (writeSegment env (ensurePartitionState env s topic partition) topic partition
    (formatLine ⟨(stateOf env s topic partition).nextOffset, unixMilli env.stamp, value⟩)).2.isNone

/-- A call of a producer takes the next offset, and the record stands there if it
was written. -/
theorem produceToPartition_whole (env : Env) (h : Whole s topic partition) (value : Str)
    (hall : Undropped topic partition s (produceToPartition env s topic partition value).1) :
    Whole (produceToPartition env s topic partition value).1 topic partition ∧
      (produceToPartition env s topic partition value).2 =
        (partition, ((messagesOf s topic partition).length : Int)) ∧
      messagesOf (produceToPartition env s topic partition value).1 topic partition =
        messagesOf s topic partition ++
          if writes env s topic partition value then
            [⟨(messagesOf s topic partition).length, value⟩]
          else [] := by
  have hfirst := (stateOf_whole env h).1
  have hoffset := nextOffset_ensured env h
  unfold Undropped at hall
  cases hdir : env.mkdirOk with
  | false =>
    have hcall : produceToPartition env s topic partition value =
        (ensurePartitionState env s topic partition, partition,
          ((messagesOf s topic partition).length : Int)) := by
      simp [produceToPartition, hdir, hoffset]
    obtain ⟨hwhole, hsame⟩ := (prepared_ensure env h).whole h.positional
    have hwrites : writes env s topic partition value = false := by simp [writes, hdir]
    rw [hcall, hwrites]
    exact ⟨hwhole, rfl, hsame.trans (List.append_nil _).symm⟩
  | true =>
    have hprepared := prepared_write env h
      (formatLine ⟨(messagesOf s topic partition).length, unixMilli env.stamp, value⟩)
    cases hwrite : writeSegment env (ensurePartitionState env s topic partition) topic partition
      (formatLine ⟨(messagesOf s topic partition).length, unixMilli env.stamp, value⟩) with
    | mk s₂ failed =>
      rw [hwrite] at hprepared
      cases failed with
      | some e =>
        have hwrites : writes env s topic partition value = false := by
          simp [writes, hfirst, hwrite]
        simp only [produceToPartition, hdir, hoffset, hwrite, hwrites, ↓reduceIte]
        obtain ⟨hwhole, hsame⟩ := hprepared.whole h.positional
        exact ⟨hwhole, trivial, hsame.trans (List.append_nil _).symm⟩
      | none =>
        have hwrites : writes env s topic partition value = true := by
          simp [writes, hfirst, hwrite, hdir]
        rw [hwrites]
        simp only [produceToPartition, hdir, hoffset, hwrite, ↓reduceIte] at hall ⊢
        obtain ⟨hwhole, hlog⟩ := (hprepared.settle env _ _ _).publish env h.nonempty h.positional
          rfl hall
        exact ⟨hwhole, trivial, hlog⟩

/-- A record is appended where it is the next one. Otherwise the log stays as it is,
and without an error only for an offset that it already has. -/
theorem appendReplicated_whole (env : Env) (h : Whole s topic partition) (offset : Int)
    (value : Str)
    (hall : Undropped topic partition s
      (appendReplicated env s topic partition offset value).1) :
    Whole (appendReplicated env s topic partition offset value).1 topic partition ∧
      ((appendReplicated env s topic partition offset value).2 = none ∧
          offset = (messagesOf s topic partition).length ∧
          messagesOf (appendReplicated env s topic partition offset value).1 topic partition =
            messagesOf s topic partition ++ [⟨offset, value⟩] ∨
        messagesOf (appendReplicated env s topic partition offset value).1 topic partition =
            messagesOf s topic partition ∧
          ((appendReplicated env s topic partition offset value).2 = none →
            offset < (messagesOf s topic partition).length)) := by
  have hoffset := nextOffset_ensured env h
  obtain ⟨hensured, hsame⟩ := (prepared_ensure env h).whole h.positional
  unfold Undropped at hall
  rcases Int.lt_trichotomy offset (messagesOf s topic partition).length with hlt | heq | hgt
  · have hcall : appendReplicated env s topic partition offset value =
        (ensurePartitionState env s topic partition, none) := by
      simp [appendReplicated, hoffset, hlt]
    rw [hcall]
    exact ⟨hensured, .inr ⟨hsame, fun _ => hlt⟩⟩
  · subst heq
    cases hdir : env.mkdirOk with
    | false =>
      have hcall : appendReplicated env s topic partition (messagesOf s topic partition).length
          value = (ensurePartitionState env s topic partition, some .mkdir) := by
        simp [appendReplicated, hdir, hoffset]
      rw [hcall]
      exact ⟨hensured, .inr ⟨hsame, fun hnone => by cases hnone⟩⟩
    | true =>
      have hprepared := prepared_write env h
        (formatLine ⟨(messagesOf s topic partition).length, unixMilli env.stamp, value⟩)
      cases hwrite : writeSegment env (ensurePartitionState env s topic partition) topic partition
        (formatLine ⟨(messagesOf s topic partition).length, unixMilli env.stamp, value⟩) with
      | mk s₂ failed =>
        rw [hwrite] at hprepared
        cases failed with
        | some e =>
          simp only [appendReplicated, hdir, hoffset, hwrite, lt_self_iff_false, ↓reduceIte]
          obtain ⟨hwhole, hkept⟩ := hprepared.whole h.positional
          exact ⟨hwhole, .inr ⟨hkept, fun hnone => by cases hnone⟩⟩
        | none =>
          simp only [appendReplicated, hdir, hoffset, hwrite, lt_self_iff_false,
            ↓reduceIte] at hall ⊢
          have hsettled := hprepared.settle env s₂.settings
            (formatLine ⟨(messagesOf s topic partition).length, unixMilli env.stamp, value⟩).length
            s₂.disk
          split at hall
          · rename_i hsync
            simp only [hsync, ↓reduceIte]
            obtain ⟨hwhole, hlog⟩ := hsettled.publish env h.nonempty h.positional rfl hall
            exact ⟨hwhole, .inl ⟨trivial, trivial, hlog⟩⟩
          · rename_i hsync
            simp only [hsync]
            obtain ⟨hwhole, hkept⟩ := hsettled.whole h.positional
            exact ⟨hwhole, .inr ⟨hkept, fun hnone => by cases hnone⟩⟩
  · have hcall : appendReplicated env s topic partition offset value =
        (ensurePartitionState env s topic partition,
          some (.nonContiguous (messagesOf s topic partition).length offset)) := by
      simp only [appendReplicated, hoffset, hgt, ↓reduceIte]
      rw [if_neg (by omega)]
    rw [hcall]
    exact ⟨hensured, .inr ⟨hsame, fun hnone => by cases hnone⟩⟩

end Appends

end Flux.MemoryLogs
