import Flux.StorageFrames

/-!
What replaying files does to the partition it is for: the records go to the end
of the in-memory log and the next offset moves over them.
-/
namespace Flux.StorageReplay

open GoRuntime GoStrings LogLines SegmentNames FiniteMap PartitionStorage SegmentedLogs
open StorageFrames

def toMessage (r : Record) : Message := ⟨r.offset, r.value⟩

def replayed (disk : Disk) (name : Str) : List Record :=
  match disk.get name with
  | some file => replay file.content
  | none => []

def movedOver (st : PartitionState) (records : List Record) : PartitionState :=
  { st with nextOffset := advance Record.offset st.nextOffset records }

@[simp] theorem movedOver_nil (st : PartitionState) : movedOver st [] = st := rfl

theorem movedOver_append (st : PartitionState) (front back : List Record) :
    movedOver st (front ++ back) = movedOver (movedOver st front) back := by
  simp [movedOver, advance]

section Effects

variable (env : Env) (topic : Str) (partition : Int)

@[simp] theorem get2_setState (s : Storage) (st : PartitionState) :
    get2 (setState s topic partition st).partitionState topic partition = some st :=
  get2_set2_self ..

@[simp] theorem stateOf_setState (s : Storage) (st : PartitionState) :
    stateOf env (setState s topic partition st) topic partition = st := by
  simp [stateOf]

theorem stateOf_eq {s : Storage} {st : PartitionState}
    (h : get2 s.partitionState topic partition = some st) :
    stateOf env s topic partition = st := by
  simp [stateOf, h]

@[simp] theorem messagesOf_setState (s : Storage) (t : Str) (p : Int) (st : PartitionState) :
    messagesOf (setState s t p st) topic partition = messagesOf s topic partition := rfl

@[simp] theorem messagesOf_setDisk (s : Storage) (disk : Disk) :
    messagesOf { s with disk := disk } topic partition = messagesOf s topic partition := rfl

@[simp] theorem messagesOf_pushMessage (s : Storage) (m : Message) :
    messagesOf (pushMessage s topic partition m) topic partition =
      messagesOf s topic partition ++ [m] := by
  simp [messagesOf, pushMessage]

theorem loadRecord_messages (segmentID : Int) (s : Storage) (r : Record) :
    messagesOf (loadRecord env topic partition segmentID s r) topic partition =
      messagesOf s topic partition ++ [toMessage r] := by
  simp [loadRecord, toMessage]

theorem loadRecord_state (segmentID : Int) (s : Storage) (r : Record) (st : PartitionState)
    (h : get2 s.partitionState topic partition = some st) :
    get2 (loadRecord env topic partition segmentID s r).partitionState topic partition =
      some (movedOver st [r]) := by
  have hst : stateOf env (pushMessage s topic partition ⟨r.offset, r.value⟩) topic partition = st :=
    stateOf_eq env topic partition h
  simp only [loadRecord, hst, get2_setState, movedOver, advance, List.foldl_cons, List.foldl_nil,
    Option.some.injEq]
  split <;> rfl

theorem foldl_loadRecord (segmentID : Int) (records : List Record) (s : Storage)
    (st : PartitionState) (h : get2 s.partitionState topic partition = some st) :
    let s' := records.foldl (loadRecord env topic partition segmentID) s
    messagesOf s' topic partition = messagesOf s topic partition ++ records.map toMessage ∧
      get2 s'.partitionState topic partition = some (movedOver st records) := by
  induction records generalizing s st with
  | nil => simpa using h
  | cons r rest ih =>
    have hstate := loadRecord_state env topic partition segmentID s r st h
    have hrest := ih (loadRecord env topic partition segmentID s r) (movedOver st [r]) hstate
    rw [loadRecord_messages] at hrest
    refine ⟨?_, ?_⟩
    · simpa using hrest.1
    · rw [List.foldl_cons, hrest.2, ← movedOver_append, List.singleton_append]

/-- Replaying one file appends its records and moves the next offset over them. -/
theorem loadSegment_effect (s : Storage) (segmentID : Int) (name : Str) (st : PartitionState)
    (h : get2 s.partitionState topic partition = some st) :
    let s' := loadSegment env s topic partition segmentID name
    messagesOf s' topic partition =
        messagesOf s topic partition ++ (replayed s.disk name).map toMessage ∧
      get2 s'.partitionState topic partition = some (movedOver st (replayed s.disk name)) := by
  unfold loadSegment replayed
  cases s.disk.get name with
  | none => simpa using h
  | some file => exact foldl_loadRecord env topic partition segmentID (replay file.content) s st h

theorem replayed_loadSegment (s : Storage) (segmentID k : Int) (name : Str) :
    replayed (loadSegment env s topic partition segmentID name).disk
      (segmentName topic partition k) = replayed s.disk (segmentName topic partition k) := by
  have hframe := loadSegment_local env s topic partition segmentID name
  rw [replayed, hframe.disk _ (segmentName_not_isIndex topic partition k), ← replayed]

def replayedAll (disk : Disk) (topic : Str) (partition : Int) (segments : List Int) :
    List Record :=
  segments.flatMap (fun k => replayed disk (segmentName topic partition k))

/-- Loading the segments one by one replays all of them. -/
theorem foldl_loadSegment (segments : List Int) (s : Storage) (st : PartitionState)
    (h : get2 s.partitionState topic partition = some st) :
    let s' := segments.foldl (fun s segID =>
      loadSegment env s topic partition segID (segmentName topic partition segID)) s
    messagesOf s' topic partition = messagesOf s topic partition ++
        (replayedAll s.disk topic partition segments).map toMessage ∧
      get2 s'.partitionState topic partition =
        some (movedOver st (replayedAll s.disk topic partition segments)) := by
  induction segments generalizing s st with
  | nil => simpa [replayedAll] using h
  | cons k rest ih =>
    have hload := loadSegment_effect env topic partition s k (segmentName topic partition k) st h
    have hrest := ih _ _ hload.2
    have hsame : replayedAll (loadSegment env s topic partition k
        (segmentName topic partition k)).disk topic partition rest =
          replayedAll s.disk topic partition rest := by
      simp only [replayedAll, replayed_loadSegment]
    rw [hload.1, hsame] at hrest
    have hcons : replayedAll s.disk topic partition (k :: rest) =
        replayed s.disk (segmentName topic partition k) ++
          replayedAll s.disk topic partition rest := rfl
    refine ⟨?_, ?_⟩
    · rw [List.foldl_cons, hrest.1, hcons, List.map_append, List.append_assoc]
    · rw [List.foldl_cons, hrest.2, hcons, movedOver_append]

/-- A rebuilt partition has exactly the records of its files. -/
theorem rebuild_effect (s : Storage) (st : PartitionState) :
    let s' := rebuildPartitionFromSegments env s topic partition st
    let records := replayedAll s.disk topic partition st.segments
    messagesOf s' topic partition = records.map toMessage ∧
      get2 s'.partitionState topic partition =
        some { st with nextOffset := advance Record.offset 0 records } := by
  have hclear : ∃ s₀ : Storage, s₀.disk = s.disk ∧ messagesOf s₀ topic partition = [] ∧
      rebuildPartitionFromSegments env s topic partition st =
        st.segments.foldl (fun s segID =>
          loadSegment env s topic partition segID (segmentName topic partition segID))
          (setState s₀ topic partition { st with nextOffset := 0 }) := by
    unfold rebuildPartitionFromSegments
    split
    · exact ⟨{ s with data := set2 s.data topic partition [] }, rfl, by simp [messagesOf], rfl⟩
    · rename_i htopic
      have hnone : s.data.get topic = none := by simpa using htopic
      exact ⟨s, rfl, by simp [messagesOf, get2, hnone], rfl⟩
  obtain ⟨s₀, hdisk, hempty, hrebuild⟩ := hclear
  have hfold := foldl_loadSegment env topic partition st.segments
    (setState s₀ topic partition { st with nextOffset := 0 }) _ (get2_setState topic partition s₀ _)
  have hdisk' : (setState s₀ topic partition { st with nextOffset := 0 }).disk = s.disk := hdisk
  rw [messagesOf_setState, hempty, hdisk', List.nil_append, ← hrebuild] at hfold
  exact hfold

theorem deleteSegment_segments (s : Storage) (topic : Str) (partition : Int) (st : PartitionState)
    (segID : Int) :
    ∃ st', get2 (deleteSegment env s topic partition st segID).partitionState topic partition =
      some st' ∧ st'.segments = st.segments.tail :=
  ⟨_, (rebuild_effect env topic partition _ _).2, rfl⟩

end Effects

structure Trims (env : Env) (topic : Str) (partition : Int) (J : Storage → Prop) : Prop where
  drop : ∀ {s st segID next rest}, J s → get2 s.partitionState topic partition = some st →
    st.segments = segID :: next :: rest →
    s.disk.get (segmentName topic partition segID) = none →
    J (setState s topic partition { st with segments := st.segments.tail })
  delete : ∀ {s st segID next rest}, J s → get2 s.partitionState topic partition = some st →
    st.segments = segID :: next :: rest → J (deleteSegment env s topic partition st segID)

section Retention

variable {env : Env} {s : Storage} {topic : Str} {partition : Int} {J : Storage → Prop}

theorem Trims.ageLoop (h : Trims env topic partition J) (cutoff : Time) (ids : List Int)
    (hs : J s) {st : PartitionState} (hst : get2 s.partitionState topic partition = some st)
    (hseg : st.segments = ids) : J (ageLoop env topic partition cutoff ids s) := by
  fun_induction PartitionStorage.ageLoop env topic partition cutoff ids s generalizing st with
  | case1 segID next rest s st₀ hnone =>
    rename_i ih
    have heq : st₀ = st := stateOf_eq env topic partition hst
    rw [heq] at ih ⊢
    exact ih (h.drop hs hst hseg hnone) (get2_setState ..) (by simp [hseg])
  | case2 => exact hs
  | case3 segID next rest s st₀ file hfile hold =>
    rename_i ih
    have heq : st₀ = st := stateOf_eq env topic partition hst
    rw [heq] at ih ⊢
    obtain ⟨st₁, hst₁, hseg₁⟩ := deleteSegment_segments env s topic partition st segID
    exact ih (h.delete hs hst hseg) hst₁ (by simp [hseg₁, hseg])
  | case4 => exact hs

theorem Trims.sizeLoop (h : Trims env topic partition J) (ids : List Int) (total : Int)
    (hs : J s) {st : PartitionState} (hst : get2 s.partitionState topic partition = some st)
    (hseg : st.segments = ids) : J (sizeLoop env topic partition ids total s) := by
  fun_induction PartitionStorage.sizeLoop env topic partition ids total s generalizing st with
  | case1 segID next rest total s hbig ih =>
    rw [stateOf_eq env topic partition hst] at ih ⊢
    obtain ⟨st₁, hst₁, hseg₁⟩ := deleteSegment_segments env s topic partition st segID
    exact ih (h.delete hs hst hseg) hst₁ (by simp [hseg₁, hseg])
  | case2 => exact hs
  | case3 => exact hs

theorem stateOf_rec {P : PartitionState → Prop} (hfresh : P (freshState env))
    (h : ∀ st, get2 s.partitionState topic partition = some st → P st) :
    P (stateOf env s topic partition) := by
  cases hst : get2 s.partitionState topic partition with
  | none => simpa [stateOf, hst] using hfresh
  | some st => exact (stateOf_eq env topic partition hst).symm ▸ h st hst

theorem Trims.applyAgeRetention (h : Trims env topic partition J) (hs : J s) :
    J (applyAgeRetention env s topic partition) := by
  unfold PartitionStorage.applyAgeRetention
  split
  · exact hs
  · exact stateOf_rec hs (fun st hst => h.ageLoop _ st.segments hs hst rfl)

theorem Trims.applySizeRetention (h : Trims env topic partition J) (hs : J s) :
    J (applySizeRetention env s topic partition) := by
  unfold PartitionStorage.applySizeRetention
  split
  · exact hs
  · exact stateOf_rec hs (fun st hst => h.sizeLoop st.segments _ hs hst rfl)

theorem Trims.retainPartition (h : Trims env topic partition J) (hs : J s) :
    J (retainPartition env s (topic, partition)) :=
  h.applySizeRetention (h.applyAgeRetention hs)

/-- Passes over several partitions, of which this one may be one. -/
theorem Trims.visits (h : Trims env topic partition J) {keys : List (Str × Int)}
    (hother : ∀ s, ∀ key ∈ keys, (topic, partition) ≠ key → J s →
      J (PartitionStorage.retainPartition env s key)) (hs : J s) :
    J (keys.foldl (PartitionStorage.retainPartition env) s) := by
  refine List.foldlRecOn keys _ hs (fun s' hs' key hmem => ?_)
  by_cases hown : (topic, partition) = key
  · subst hown
    exact h.retainPartition hs'
  · exact hother s' key hmem hown hs'

theorem trims_closed {R : Storage → Storage → Prop} (h : Closed env topic partition R)
    (hremove : ∀ s k, R s { s with disk := s.disk.del (segmentName topic partition k) })
    (s : Storage) : Trims env topic partition (R s) where
  drop hs _ _ _ := h.trans hs (h.state _ _)
  delete hs _ _ := h.trans hs (h.deleteSegment hremove _ _ _)

theorem retainPartition_local (env : Env) (s : Storage) (key : Str × Int) :
    Local key.1 key.2 (Owned key.1 key.2) s (retainPartition env s key) :=
  (trims_closed (closed_local env key.1 key.2 (fun _ h => Or.inl h))
    (fun s segID => removeFile_local s key.1 key.2 segID) s).retainPartition (Local.refl s)

end Retention

end Flux.StorageReplay
