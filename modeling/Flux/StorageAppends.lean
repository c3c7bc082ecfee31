import Flux.StorageRefinement

/-!
Appending to a partition, by a producer or by a replication worker. When every
file operation succeeds, a record goes to the active segment or to a new one,
and the represented log grows by that record before retention is applied.
-/
namespace Flux.StorageAppends

open GoRuntime GoStrings LogLines SegmentNames FiniteMap PartitionStorage SegmentedLogs
open StorageFrames StorageReplay StorageRefinement

variable {s : Storage} {topic value : Str} {id k partition : Int} {L : PartitionLog} {r : Record}

structure WellNamed (s : Storage) : Prop where
  names : ∀ name, (s.disk.get name).isSome → KnownName name
  keys : ∀ topic partition, (get2 s.partitionState topic partition).isSome →
    PartitionKey topic partition

theorem WellNamed.keep {s' : Storage} {names : Str → Prop} (h : WellNamed s)
    (hkey : PartitionKey topic partition) (hlocal : Local topic partition names s s') :
    WellNamed s' where
  names name hname := by
    rcases hlocal.appear name hname with hold | hknown
    · exact h.names name hold
    · exact hknown
  keys t p hstate := by
    by_cases hown : (t, p) = (topic, partition)
    · obtain ⟨rfl, rfl⟩ := Prod.mk.inj hown
      exact hkey
    · rw [hlocal.state t p hown] at hstate
      exact h.keys t p hstate

theorem mem_stateKeys_iff (s : Storage) (key : Str × Int) :
    key ∈ stateKeys s ↔ (get2 s.partitionState key.1 key.2).isSome := by
  obtain ⟨topic, partition⟩ := key
  simp only [stateKeys, List.mem_flatMap, FMap.mem_keys_iff, List.mem_map, Prod.mk.injEq, get2]
  constructor
  · rintro ⟨t, ⟨inner, hinner⟩, p, ⟨st, hst⟩, rfl, rfl⟩
    simp only [hinner, Option.getD_some] at hst
    simp [hinner, hst]
  · intro hsome
    obtain ⟨st, hst⟩ := Option.isSome_iff_exists.mp hsome
    obtain ⟨inner, hinner, hst⟩ := Option.bind_eq_some_iff.mp hst
    exact ⟨topic, ⟨inner, hinner⟩, partition, ⟨st, by simpa [hinner] using hst⟩, rfl, rfl⟩

theorem visited_keys (env : Env) (h : WellNamed s) :
    ∀ key ∈ env.visit (stateKeys s), PartitionKey key.1 key.2 := by
  intro key hkey
  rw [(env.visit_perm _).mem_iff, mem_stateKeys_iff] at hkey
  exact h.keys key.1 key.2 hkey

theorem wellNamed_enforceRetention (env : Env) (h : WellNamed s) :
    WellNamed (enforceRetentionLocked env s) := by
  refine List.foldlRecOn _ _ h (fun s' h' key hmem => ?_)
  exact h'.keep (visited_keys env h key hmem) (retainPartition_local env s' key)

theorem holds_enforceRetention (env : Env) (hnamed : WellNamed s)
    (hkey : PartitionKey topic partition) (h : Holds s topic partition L) :
    ∃ L', Holds (enforceRetentionLocked env s) topic partition L' ∧ Trimmed L L' :=
  holds_foldl_retainPartition env hkey _ (visited_keys env hnamed) h

structure Succeeds (env : Env) : Prop where
  mkdir : env.mkdirOk = true
  readDir : env.readDirOk = true
  opens : ∀ name, env.openOk name = true
  writes : ∀ name, env.writeFails name = none
  sync : env.syncOk = true

def calm (now : Time) : Env where
  created := now
  stamp := now
  written := now
  synced := now
  flushed := now
  retention _ _ := now
  visit keys := keys
  visit_perm keys := List.Perm.refl keys
  listing names := names
  listing_perm names := List.Perm.refl names
  mkdirOk := true
  readDirOk := true
  openOk _ := true
  writeFails _ := none
  syncOk := true

theorem calm_succeeds (now : Time) : Succeeds (calm now) :=
  ⟨rfl, rfl, fun _ => rfl, fun _ => rfl, rfl⟩

def defaultSettings : Settings := newSettings BrokerConfig.defaults

section Files

variable {env : Env} (hok : Succeeds env)

include hok

theorem appendLine_succeeds (disk : Disk) (name line : Str) :
    appendLine env disk name line = (appendBytes env.written disk name line, none) := by
  simp [appendLine, hok.opens, hok.writes]

theorem appendLine_content (disk : Disk) (name line : Str) (hline : line ≠ []) :
    ((appendLine env disk name line).1.get name).map File.content =
      some (((disk.get name).map File.content).getD [] ++ line) := by
  rw [appendLine_succeeds hok]
  unfold appendBytes
  cases hfile : disk.get name with
  | none => simp
  | some file => simp [hline]

/-- Writing a record's line to a segment file puts the record into the log. -/
theorem stored_put {disk : Disk} (h : Stored disk topic partition L)
    (hkey : PartitionKey topic partition) (hnat : Natural id) (hid : ∀ k ∈ L.ids, k ≤ id)
    (hr : r.offset = L.next) (hlog : Loggable r) :
    Stored (appendLine env disk (segmentName topic partition id) (formatLine r)).1
      topic partition (L.put id r hid hr) where
  ids_natural k hk := by
    rw [L.ids_put] at hk
    split at hk
    · exact h.ids_natural k hk
    · rcases List.mem_append.mp hk with hold | hnew
      · exact h.ids_natural k hold
      · rwa [List.mem_singleton.mp hnew]
  loggable r' hr' := by
    rw [L.entries_put] at hr'
    rcases List.mem_append.mp hr' with hold | hnew
    · exact h.loggable r' hold
    · rwa [List.mem_singleton.mp hnew]
  files k hk := by
    rw [L.segment_put]
    by_cases he : k = id
    · subst he
      have hline : formatLine r ≠ [] := by simp [formatLine]
      rw [appendLine_content hok _ _ _ hline, h.files k hk]
      cases L.segment k <;> simp
    · rw [appendLine_get_ne _ _ _ (segmentName_ne hkey hk hnat he), h.files k hk]
      simp [he]

end Files

structure Grown (L : PartitionLog) (r : Record) (L' : PartitionLog) : Prop where
  entries : L'.entries = L.entries ++ [r]
  next : L'.next = L.next + 1
  ids : ∀ m, 0 ≤ m → (∀ k ∈ L.ids, k ≤ m) → ∀ k ∈ L'.ids, k ≤ m + 1

theorem grown_put (L : PartitionLog) (hid : ∀ k ∈ L.ids, k ≤ id) (hr : r.offset = L.next)
    (htop : ∀ m, 0 ≤ m → (∀ k ∈ L.ids, k ≤ m) → id ≤ m + 1) : Grown L r (L.put id r hid hr) where
  entries := L.entries_put id r hid hr
  next := L.next_put id r hid hr
  ids m hm hbound k hk := by
    rw [L.ids_put] at hk
    split at hk
    · have := hbound k hk
      omega
    · rcases List.mem_append.mp hk with hold | hnew
      · have := hbound k hold
        omega
      · rw [List.mem_singleton.mp hnew]
        exact htop m hm hbound

section Writes

variable {st : PartitionState} {L : PartitionLog} {r : Record}

theorem tracks_put_active (h : Tracks st L) (hr : r.offset = L.next) :
    Tracks { st with nextOffset := r.offset + 1 }
      (L.put st.activeSegmentID r h.ids_le_active hr) where
  segments := by
    rw [L.ids_put]
    rcases h.active_cases with hmem | ⟨hnil, hseg, hzero⟩
    · simpa [hmem] using h.segments
    · simp [hnil, hseg, hzero]
  ascending := h.ascending
  active := h.active
  next := by rw [L.next_put, hr]

theorem tracks_put_rotated (h : Tracks st L) (hr : r.offset = L.next)
    (hid : ∀ k ∈ L.ids, k ≤ st.activeSegmentID + 1) :
    Tracks { rotate st with nextOffset := r.offset + 1 }
      (L.put (st.activeSegmentID + 1) r hid hr) where
  segments := by
    have hnew : st.activeSegmentID + 1 ∉ L.ids := by
      intro hk
      have := h.ids_le_active _ hk
      omega
    rw [L.ids_put]
    rcases h.segments with hids | hids
    · simp [rotate, hnew, hids]
    · simp [rotate, hnew, hids]
  ascending := by
    simp only [rotate, List.pairwise_append]
    refine ⟨h.ascending, by simp, ?_⟩
    intro k hk j hj
    have := h.le_active hk
    rw [List.mem_singleton.mp hj]
    omega
  active := by simp [rotate]
  next := by rw [L.next_put, hr]

end Writes

structure Written (s : Storage) (topic : Str) (partition : Int) (L : PartitionLog) (r : Record)
    (L' : PartitionLog) : Prop where
  stored : Stored s.disk topic partition L'
  messages : messagesOf s topic partition = L.entries.map toMessage
  state : ∃ st, get2 s.partitionState topic partition = some st ∧ Natural st.activeSegmentID ∧
    Tracks { st with nextOffset := r.offset + 1 } L'

/-- A segment write puts the record at the end of the log. -/
theorem written_writeSegment {env : Env} (hok : Succeeds env) {st : PartitionState}
    (hkey : PartitionKey topic partition) (h : Holds s topic partition L)
    (hst : get2 s.partitionState topic partition = some st)
    (hroom : st.activeSegmentID + 1 < 2 ^ 63) (hr : r.offset = L.next) (hlog : Loggable r) :
    (writeSegment env s topic partition (formatLine r)).2 = none ∧
      ∃ L', Grown L r L' ∧
        Written (writeSegment env s topic partition (formatLine r)).1 topic partition L r L' := by
  have htrack := h.tracked st hst
  have hlast : st.activeSegmentID ∈ st.segments := List.mem_of_getLast? htrack.active
  have hnat := h.stored.natural_of_mem htrack hlast
  have hbelow := htrack.ids_le_active
  refine ⟨by simp only [writeSegment, appendLine_succeeds hok], ?_⟩
  simp only [writeSegment, stateOf_eq env topic partition hst]
  by_cases hrotate : shouldRotate s topic partition st.activeSegmentID (formatLine r).length = true
  · simp only [hrotate, ↓reduceIte]
    have hmem : st.activeSegmentID ∈ L.ids := by
      rw [← h.stored.exists_iff hnat]
      unfold shouldRotate at hrotate
      split at hrotate
      · rename_i file hfile
        simp [hfile]
      · contradiction
    have hid : ∀ k ∈ L.ids, k ≤ st.activeSegmentID + 1 := fun k hk => by
      have := hbelow k hk
      omega
    have hnat' : Natural (st.activeSegmentID + 1) := by
      have := hnat.1
      exact ⟨by omega, by unfold InInt64; omega⟩
    refine ⟨L.put (st.activeSegmentID + 1) r hid hr, grown_put L hid hr ?_, ?_, h.messages, ?_⟩
    · intro m _ hbound
      have := hbound _ hmem
      omega
    · exact stored_put hok h.stored hkey hnat' hid hr hlog
    · exact ⟨rotate st, get2_setState .., hnat', tracks_put_rotated htrack hr hid⟩
  · simp only [hrotate]
    refine ⟨L.put st.activeSegmentID r hbelow hr, grown_put L hbelow hr ?_, ?_, h.messages, ?_⟩
    · intro m hm hbound
      rcases htrack.active_cases with hmem | ⟨-, -, hzero⟩
      · have := hbound _ hmem
        omega
      · omega
    · exact stored_put hok h.stored hkey hnat hbelow hr hlog
    · exact ⟨st, get2_setState .., hnat, tracks_put_active htrack hr⟩

def Writes (topic : Str) (partition : Int) (name : Str) : Prop :=
  Owned topic partition name ∨ ∃ replicaID segmentID, 0 ≤ replicaID ∧
    name = replicaSegmentName topic partition replicaID segmentID

section Frames

variable (env : Env) {topic : Str} {partition : Int}

theorem appendLine_local (topic : Str) (partition : Int) (s : Storage) {names : Str → Prop}
    {name : Str} (line : Str)
    (hname : names name) (hknown : KnownName name) :
    Local topic partition names s { s with disk := (appendLine env s.disk name line).1 } := by
  apply setDisk_local
  · intro name' hname'
    exact appendLine_get_ne env s.disk line (fun e => hname' (e ▸ hname))
  · intro name' hsome
    rcases appendLine_appear env s.disk name line name' hsome with hold | rfl
    · exact Or.inl hold
    · exact Or.inr hknown

section Names

variable (hkey : PartitionKey topic partition)

include hkey

theorem segmentName_known (hk : Natural k) : KnownName (segmentName topic partition k) :=
  Or.inr ⟨topic, partition, k, hkey, hk, rfl⟩

theorem replicaSegmentName_known (hid : Natural id) (hk : Natural k) :
    KnownName (replicaSegmentName topic partition id k) := by
  rw [replicaSegmentName_eq]
  exact segmentName_known ⟨replicaTopic_parsable topic partition hkey.topic_parsable
    hkey.partition_natural.1, hid⟩ hk

theorem writeLocalReplicas_local (s : Storage) (hk : Natural k) (line : Str) :
    Local topic partition (Writes topic partition) s
      { s with disk := writeLocalReplicas env s.disk topic partition k line } := by
  refine (appendLine_local env topic partition s line (Or.inr ⟨1, k, by omega, rfl⟩)
    (replicaSegmentName_known hkey ⟨by omega, by decide⟩ hk)).trans ?_
  exact appendLine_local env topic partition _ line (Or.inr ⟨2, k, by omega, rfl⟩)
    (replicaSegmentName_known hkey ⟨by omega, by decide⟩ hk)

theorem writeSegment_local (s : Storage) (line : Str)
    (hknown : ∀ st, get2 (writeSegment env s topic partition line).1.partitionState topic
      partition = some st → Natural st.activeSegmentID) :
    Local topic partition (Writes topic partition) s
      (writeSegment env s topic partition line).1 := by
  have hnat := hknown _ (get2_setState topic partition s _)
  refine (setState_local s _).trans
    (appendLine_local env topic partition (setState s topic partition _) line
      (Or.inl (Or.inr ⟨_, rfl⟩)) ?_)
  exact segmentName_known hkey hnat

theorem segmentName_ne_replica (k j : Int) (hid : 0 ≤ id) :
    segmentName topic partition k ≠ replicaSegmentName topic partition id j := by
  rw [replicaSegmentName_eq]
  intro he
  have hpartition := hkey.partition_natural.1
  have htopic := (segmentName_partition_injective hkey.topic_parsable
    (replicaTopic_parsable topic partition hkey.topic_parsable hpartition) hpartition hid he).1
  have hlength := congrArg List.length htopic
  simp only [replicaTopic, List.length_append, List.length_cons] at hlength
  omega

theorem writeLocalReplicas_get (disk : Disk) (k j : Int) (line : Str) :
    (writeLocalReplicas env disk topic partition k line).get (segmentName topic partition j) =
      disk.get (segmentName topic partition j) := by
  exact (appendLine_get_ne env _ line (segmentName_ne_replica hkey j k (by omega))).trans
    (appendLine_get_ne env _ line (segmentName_ne_replica hkey j k (by omega)))

end Names

end Frames

theorem applyFsyncPolicy_keeps (env : Env) (settings : Settings) (st : PartitionState)
    (written : Int) :
    (applyFsyncPolicy env settings st written).1.segments = st.segments ∧
      (applyFsyncPolicy env settings st written).1.activeSegmentID = st.activeSegmentID := by
  unfold applyFsyncPolicy
  split
  · exact ⟨rfl, rfl⟩
  · exact ⟨rfl, rfl⟩
  · dsimp only
    split
    · split <;> exact ⟨rfl, rfl⟩
    · exact ⟨rfl, rfl⟩

theorem applyFsyncPolicy_ok {env : Env} (hsync : env.syncOk = true) (settings : Settings)
    (st : PartitionState) (written : Int) :
    (applyFsyncPolicy env settings st written).2 = true := by
  unfold applyFsyncPolicy
  split <;> simp [hsync]
  split <;> rfl

def recordPublished (env : Env) (s : Storage) (topic : Str) (partition : Int) (r : Record) :
    Storage :=
  let st := stateOf env s topic partition
  let indexed :=
    { s with disk := appendIndexes env s.disk topic partition st.activeSegmentID r }
  setState (pushMessage indexed topic partition ⟨r.offset, r.value⟩) topic partition
    { st with nextOffset := r.offset + 1 }

theorem publish_eq (env : Env) (s : Storage) (topic : Str) (partition : Int) (r : Record) :
    publish env s topic partition r =
      enforceRetentionLocked env (recordPublished env s topic partition r) := rfl

theorem recordPublished_local (env : Env) (s : Storage) (topic : Str) (partition : Int)
    (r : Record) :
    Local topic partition IsIndex s (recordPublished env s topic partition r) :=
  ((appendIndexes_local env s topic partition _ r).trans (setData_local _ _)).trans
    (setState_local _ _)

section Publishing

variable (env : Env) {s : Storage} {topic : Str} {partition : Int} {L L' : PartitionLog}
  {r : Record}

/-- Steps between the write and the publication keep what was written. -/
theorem Written.settle (h : Written s topic partition L r L') (disk : Disk) (st : PartitionState)
    (hdisk : ∀ k, disk.get (segmentName topic partition k) =
      s.disk.get (segmentName topic partition k))
    (hst : ∀ st₀, get2 s.partitionState topic partition = some st₀ →
      st.segments = st₀.segments ∧ st.activeSegmentID = st₀.activeSegmentID) :
    Written { setState s topic partition st with disk := disk } topic partition L r L' := by
  obtain ⟨st₀, hget, hnat, htrack⟩ := h.state
  obtain ⟨hseg, hactive⟩ := hst st₀ hget
  refine ⟨h.stored.congr hdisk, h.messages, st, get2_setState .., hactive ▸ hnat, ?_⟩
  exact htrack.congr hseg hactive htrack.next

theorem Written.holds (h : Written s topic partition L r L') (hgrown : Grown L r L') :
    Holds (recordPublished env s topic partition r) topic partition L' := by
  obtain ⟨st, hget, -, htrack⟩ := h.state
  have hframe := recordPublished_local env s topic partition r
  refine ⟨h.stored.congr (fun k => hframe.disk _ (segmentName_not_isIndex topic partition k)),
    ?_, ?_, ?_⟩
  · simp only [recordPublished, messagesOf_setState, messagesOf_pushMessage, messagesOf_setDisk,
      h.messages, hgrown.entries, List.map_append, List.map_cons, List.map_nil]
    rfl
  · intro hnone
    simp [recordPublished] at hnone
  · intro st' hst'
    simp only [recordPublished, get2_setState, Option.some.injEq,
      stateOf_eq env topic partition hget] at hst'
    rw [← hst']
    exact htrack

theorem holds_ensurePartitionState (h : Holds s topic partition L) :
    Holds (ensurePartitionState env s topic partition) topic partition L := by
  refine ⟨h.stored, h.messages, ?_, ?_⟩
  · intro hnone
    simp [ensurePartitionState] at hnone
  · intro st hst
    rw [ensurePartitionState, get2_setState, Option.some.injEq] at hst
    cases hget : get2 s.partitionState topic partition with
    | some st₀ =>
      rw [stateOf_eq env topic partition hget] at hst
      exact hst ▸ h.tracked st₀ hget
    | none =>
      have hids := h.untracked hget
      have hentries := L.entries_eq_nil hids
      have hfresh : stateOf env s topic partition = freshState env := by simp [stateOf, hget]
      rw [← hst, hfresh]
      exact ⟨Or.inr (by rw [hids]; rfl), by simp [freshState], by simp [freshState],
        by simp [freshState, SegmentedLog.next, hentries]⟩

end Publishing

def Appends (topic : Str) (partition : Int) (L : PartitionLog) (r : Record) (s s' : Storage) :
    Prop :=
  ∃ L', Grown L r L' ∧ Holds s' topic partition L' ∧
    Local topic partition (Writes topic partition) s s'

section Calls

variable {env : Env} (hok : Succeeds env) {s : Storage} {topic : Str} {partition : Int}
  {L : PartitionLog} (hkey : PartitionKey topic partition) (h : Holds s topic partition L)
  (hroom : ∀ k ∈ L.ids, k + 1 < 2 ^ 63)

include hok hkey h hroom

theorem ensured_write (hlog : Loggable ⟨L.next, unixMilli env.stamp, value⟩) :
    (stateOf env (ensurePartitionState env s topic partition) topic partition).nextOffset =
        L.next ∧
      ∃ s₂ L', writeSegment env (ensurePartitionState env s topic partition) topic partition
          (formatLine ⟨L.next, unixMilli env.stamp, value⟩) = (s₂, none) ∧
        Local topic partition (Writes topic partition) s s₂ ∧
        Grown L ⟨L.next, unixMilli env.stamp, value⟩ L' ∧
        Written s₂ topic partition L ⟨L.next, unixMilli env.stamp, value⟩ L' := by
  have hensured := holds_ensurePartitionState env h
  have hst : get2 (ensurePartitionState env s topic partition).partitionState topic partition =
      some (stateOf env s topic partition) := get2_setState ..
  have htrack := hensured.tracked _ hst
  have hactive : (stateOf env s topic partition).activeSegmentID + 1 < 2 ^ 63 := by
    rcases htrack.active_cases with hmem | ⟨-, -, hzero⟩
    · exact hroom _ hmem
    · omega
  obtain ⟨hnone, L', hgrown, hwritten⟩ := written_writeSegment hok hkey hensured hst hactive
    (r := ⟨L.next, unixMilli env.stamp, value⟩) rfl hlog
  refine ⟨?_, _, L', Prod.ext rfl hnone, ?_, hgrown, hwritten⟩
  · rw [stateOf_eq env topic partition hst, htrack.next]
  · refine (setState_local s _).trans (writeSegment_local env hkey _ _ ?_)
    intro st hget
    obtain ⟨st₀, hget₀, hnat, -⟩ := hwritten.state
    have heq : st₀ = st := Option.some.inj (hget₀.symm.trans hget)
    exact heq ▸ hnat

/-- A produced record is appended at the next offset, which is returned. -/
theorem produceToPartition_appends (hlog : Loggable ⟨L.next, unixMilli env.stamp, value⟩) :
    ∃ s', (produceToPartition env s topic partition value) =
        (enforceRetentionLocked env s', partition, L.next) ∧
      Appends topic partition L ⟨L.next, unixMilli env.stamp, value⟩ s s' := by
  obtain ⟨hnext, s₂, L', hwrite, hlocal, hgrown, hwritten⟩ :=
    ensured_write hok hkey h hroom hlog
  obtain ⟨st, hget, hnat, -⟩ := hwritten.state
  have hkeeps := applyFsyncPolicy_keeps env s₂.settings st
    (formatLine ⟨L.next, unixMilli env.stamp, value⟩).length
  simp only [produceToPartition, hnext, hok.mkdir, ↓reduceIte, hwrite, publish_eq,
    stateOf_eq env topic partition hget]
  refine ⟨_, rfl, L', hgrown, ?_, ?_⟩
  · refine Written.holds env (hwritten.settle _ _ ?_ ?_) hgrown
    · intro k
      exact writeLocalReplicas_get env hkey _ _ k _
    · intro st₀ hget₀
      rw [hget, Option.some.injEq] at hget₀
      exact hget₀ ▸ hkeeps
  · refine (hlocal.trans ?_).trans
      ((recordPublished_local env _ topic partition _).mono (fun _ hi => Or.inl (Or.inl hi)))
    refine (setState_local _ _).trans (writeLocalReplicas_local env hkey _ ?_ _)
    rw [hkeeps.2]
    exact hnat

/-- A replicated record at the next offset is appended without an error. -/
theorem appendReplicated_appends (hlog : Loggable ⟨L.next, unixMilli env.stamp, value⟩) :
    ∃ s', appendReplicated env s topic partition L.next value =
        (enforceRetentionLocked env s', none) ∧
      Appends topic partition L ⟨L.next, unixMilli env.stamp, value⟩ s s' := by
  obtain ⟨hnext, s₂, L', hwrite, hlocal, hgrown, hwritten⟩ :=
    ensured_write hok hkey h hroom hlog
  obtain ⟨st, hget, hnat, -⟩ := hwritten.state
  simp only [appendReplicated, hnext, lt_self_iff_false, hok.mkdir, ↓reduceIte, hwrite,
    applyFsyncPolicy_ok hok.sync, publish_eq, stateOf_eq env topic partition hget]
  refine ⟨_, rfl, L', hgrown, ?_, ?_⟩
  · refine Written.holds env (hwritten.settle _ _ (fun k => rfl) ?_) hgrown
    intro st₀ hget₀
    rw [hget, Option.some.injEq] at hget₀
    exact hget₀ ▸ applyFsyncPolicy_keeps env _ st _
  · exact (hlocal.trans (setState_local _ _)).trans
      ((recordPublished_local env _ topic partition _).mono (fun _ hi => Or.inl (Or.inl hi)))

end Calls

end Flux.StorageAppends
