import Flux.StorageRecovery

/-!
Which partitions a restart finds. The name of a segment file says which partition it
belongs to, but the name of a mirror file says so too: it is the name of a segment of
a topic that ends in `-replica`, with the number of the mirror for its partition. So a
restart finds what was written, and beside it one partition for each mirror.
-/
namespace Flux.RecoveredPartitions

open GoRuntime GoStrings SegmentNames FiniteMap PartitionStorage StorageFrames StorageAppends
  StorageRecovery

/-- The names that the format of a segment file keeps apart. -/
structure Named (topic : Str) (partition segmentID : Int) : Prop where
  key : PartitionKey topic partition
  no_slash : (47 : UInt8) ∉ topic
  segment : Natural segmentID

section Names

variable {t t' : Str} {p p' k k' r : Int}

theorem Named.parse (h : Named t p k) :
    parseSegmentFileName (segmentName t p k) = some (t, p, k) :=
  parse_segmentName t p k h.key.topic_parsable h.key.partition_natural.1
    h.key.partition_natural.2 h.segment.1 h.segment.2

/-- A mirror file is named as a segment of another topic. -/
theorem Named.replica (h : Named t p k) (hr : Natural r) : Named (replicaTopic t p) r k where
  key := ⟨replicaTopic_parsable t p h.key.topic_parsable h.key.partition_natural.1, hr⟩
  no_slash := by
    have hpartition := itoa_not_mem p 47 (by decide) (by decide)
    have hword : (47 : UInt8) ∉ lit "-replica" := by decide
    simp [replicaTopic, h.no_slash, hpartition, hword]
  segment := h.segment

theorem Named.unique (h : Named t p k) (h' : Named t' p' k')
    (hname : segmentName t p k = segmentName t' p' k') : t = t' ∧ p = p' ∧ k = k' :=
  segmentName_injective h.key.topic_parsable h'.key.topic_parsable h.key.partition_natural
    h'.key.partition_natural h.segment h'.segment hname

theorem Named.parse_replica (h : Named t p k) (hr : Natural r) :
    parseSegmentFileName (replicaSegmentName t p r k) = some (replicaTopic t p, r, k) := by
  rw [replicaSegmentName_eq]
  exact (h.replica hr).parse

/-- A segment file is a mirror file only of a partition whose mirrors its topic names. -/
theorem Named.eq_replica_iff (h : Named t p k) (h' : Named t' p' k') (hr : Natural r) :
    segmentName t p k = replicaSegmentName t' p' r k' ↔
      t = replicaTopic t' p' ∧ p = r ∧ k = k' := by
  rw [replicaSegmentName_eq]
  constructor
  · exact h.unique (h'.replica hr)
  · rintro ⟨rfl, rfl, rfl⟩
    rfl

end Names

/-- The numbers that `writeLocalReplicas` gives to mirrors. -/
def Mirror (r : Int) : Prop := 1 ≤ r ∧ r ≤ localReplicaCount

theorem Mirror.natural {r : Int} (h : Mirror r) : Natural r := by
  obtain ⟨hlow, hhigh⟩ := h
  unfold localReplicaCount at hhigh
  unfold Natural InInt64
  omega

/-- A data directory with the segments that were written and are still there, and with
the mirrors, which no retention removes with their segment. -/
structure Directory (disk : Disk) (segments mirrored : Str → Int → Int → Prop) : Prop where
  segment_named : ∀ t p k, segments t p k → Named t p k
  mirror_named : ∀ t p k, mirrored t p k → Named t p k
  segment_file : ∀ t p k, segments t p k → (disk.get (segmentName t p k)).isSome
  mirror_file : ∀ t p k r, mirrored t p k → Mirror r →
    (disk.get (replicaSegmentName t p r k)).isSome
  names : ∀ name, (disk.get name).isSome → IsIndex name ∨
    (∃ t p k, segments t p k ∧ name = segmentName t p k) ∨
      ∃ t p k r, mirrored t p k ∧ Mirror r ∧ name = replicaSegmentName t p r k

def Recoverable (segments mirrored : Str → Int → Int → Prop) (t : Str) (p k : Int) : Prop :=
  segments t p k ∨ ∃ t' p', mirrored t' p' k ∧ Mirror p ∧ t = replicaTopic t' p'

section Directories

variable {disk : Disk} {segments mirrored : Str → Int → Int → Prop}

section Directory

variable (h : Directory disk segments mirrored)

include h

theorem Directory.named {t : Str} {p k : Int} (hk : Recoverable segments mirrored t p k) :
    Named t p k := by
  rcases hk with hsegment | ⟨t', p', hmirrored, hp, rfl⟩
  · exact h.segment_named t p k hsegment
  · exact (h.mirror_named t' p' k hmirrored).replica hp.natural

theorem Directory.file {t : Str} {p k : Int} (hk : Recoverable segments mirrored t p k) :
    (disk.get (segmentName t p k)).isSome := by
  rcases hk with hsegment | ⟨t', p', hmirrored, hp, rfl⟩
  · exact h.segment_file t p k hsegment
  · rw [← replicaSegmentName_eq]
    exact h.mirror_file t' p' k p hmirrored hp

theorem Directory.shape {name : Str} (hname : (disk.get name).isSome) : IsIndex name ∨
      ∃ t p k, Recoverable segments mirrored t p k ∧ name = segmentName t p k := by
  rcases h.names name hname with hindex | ⟨t, p, k, hk, rfl⟩ | ⟨t, p, k, r, hk, hr, rfl⟩
  · exact .inl hindex
  · exact .inr ⟨t, p, k, .inl hk, rfl⟩
  · exact .inr ⟨replicaTopic t p, r, k, .inr ⟨t, p, hk, hr, rfl⟩,
      replicaSegmentName_eq t p r k⟩

theorem Directory.known (name : Str) (hname : (disk.get name).isSome) : KnownName name := by
  rcases h.shape hname with hindex | ⟨t, p, k, hk, heq⟩
  · exact .inl hindex
  · exact .inr ⟨t, p, k, (h.named hk).key, (h.named hk).segment, heq⟩

/-- The files that a restart reads. -/
theorem Directory.mem_idsOf (env : Env) (t : Str) (p k : Int) :
    k ∈ idsOf t p (sortedEntries env disk) ↔ Recoverable segments mirrored t p k := by
  rw [mem_idsOf_iff]
  constructor
  · rintro ⟨e, he, rfl, rfl, rfl⟩
    obtain ⟨hfile, -, hparse⟩ := (mem_segmentEntries env disk e).mp
      ((mem_sortedEntries env disk e).mp he)
    rcases h.shape hfile with ⟨base, hindex⟩ | ⟨t, p, k, hk, hname⟩
    · rw [hindex, parse_idx] at hparse
      contradiction
    · rw [hname, (h.named hk).parse, Option.some.injEq, Prod.mk.injEq, Prod.mk.injEq] at hparse
      obtain ⟨rfl, rfl, rfl⟩ := hparse
      exact hk
  · intro hk
    have hnamed := h.named hk
    refine ⟨⟨t, p, k, segmentName t p k⟩, ?_, rfl, rfl, rfl⟩
    rw [mem_sortedEntries, mem_segmentEntries]
    exact ⟨h.file hk, slash_not_mem_segmentName t p k hnamed.no_slash hnamed.segment.1,
      hnamed.parse⟩

/-- The partitions that a restart finds. -/
theorem Directory.recovered {env : Env} (hok : Succeeds env) (settings : Settings) (t : Str)
    (p : Int) :
    (get2 (loaded env settings disk).partitionState t p).isSome ↔
      ∃ k, Recoverable segments mirrored t p k := by
  have hshape : ∀ e ∈ sortedEntries env disk,
      e.name = segmentName e.topic e.partition e.segmentID :=
    fun e he => (entry_shape env h.known ((mem_sortedEntries env disk e).mp he)).2.2
  have hload := (foldl_loadEntry env t p (sortedEntries env disk) hshape
    ⟨settings, FMap.empty, FMap.empty, disk⟩).2
  rw [loaded, loadData_eq hok, hload]
  by_cases hnil : idsOf t p (sortedEntries env disk) = []
  · rw [if_pos hnil, get2_empty]
    constructor
    · intro hnone
      contradiction
    · rintro ⟨k, hk⟩
      rw [← h.mem_idsOf env, hnil] at hk
      exact absurd hk List.not_mem_nil
  · rw [if_neg hnil]
    obtain ⟨k, hk⟩ := List.exists_mem_of_ne_nil _ hnil
    exact ⟨fun _ => ⟨k, (h.mem_idsOf env t p k).mp hk⟩, fun _ => rfl⟩

end Directory

end Directories

/-- Segment names are read back and kept apart, index files are passed over, and mirror
files are taken for segments of topics of their own; a restart finds the partitions of
both. -/
theorem file_names_recovered (env : Env) (settings : Settings) (disk : Disk)
    (segments mirrored : Str → Int → Int → Prop) (hok : Succeeds env)
    (hdir : Directory disk segments mirrored) :
    (∀ t p k, Named t p k → parseSegmentFileName (segmentName t p k) = some (t, p, k)) ∧
      (∀ t p k t' p' k', Named t p k → Named t' p' k' →
        segmentName t p k = segmentName t' p' k' → t = t' ∧ p = p' ∧ k = k') ∧
      (∀ t p k t' p' r k', Named t p k → Named t' p' k' → Natural r →
        (segmentName t p k = replicaSegmentName t' p' r k' ↔
          t = replicaTopic t' p' ∧ p = r ∧ k = k')) ∧
      (∀ t p r k, Named t p k → Natural r →
        parseSegmentFileName (replicaSegmentName t p r k) = some (replicaTopic t p, r, k)) ∧
      (∀ t p, parseSegmentFileName (offsetIndexName t p) = none ∧
        parseSegmentFileName (timestampIndexName t p) = none) ∧
      ∀ t p, (get2 (loaded env settings disk).partitionState t p).isSome ↔
        (∃ k, segments t p k) ∨
          ∃ t' p' k, mirrored t' p' k ∧ Mirror p ∧ t = replicaTopic t' p' := by
  refine ⟨fun _ _ _ h => h.parse, fun _ _ _ _ _ _ h h' => h.unique h',
    fun _ _ _ _ _ _ _ h h' hr => h.eq_replica_iff h' hr, fun _ _ _ _ h hr => h.parse_replica hr,
    fun t p => ⟨?_, ?_⟩, fun t p => ?_⟩
  · obtain ⟨base, hbase⟩ := offsetIndexName_idx t p
    rw [hbase, parse_idx]
  · obtain ⟨base, hbase⟩ := timestampIndexName_idx t p
    rw [hbase, parse_idx]
  · rw [hdir.recovered hok settings t p]
    constructor
    · rintro ⟨k, hk | ⟨t', p', hk, hp, rfl⟩⟩
      · exact .inl ⟨k, hk⟩
      · exact .inr ⟨t', p', k, hk, hp, rfl⟩
    · rintro (⟨k, hk⟩ | ⟨t', p', k, hk, hp, rfl⟩)
      · exact ⟨k, .inl hk⟩
      · exact ⟨k, .inr ⟨t', p', hk, hp, rfl⟩⟩

section OneRecord

def disk : Disk :=
  (produceToPartition (calm 1) ⟨defaultSettings, FMap.empty, FMap.empty, FMap.empty⟩
    (lit "orders") 0 (lit "created")).1.disk

def FirstSegment (t : Str) (p k : Int) : Prop := t = lit "orders" ∧ p = 0 ∧ k = 0

theorem keys_disk : disk.keys.Perm [segmentName (lit "orders") 0 0,
    replicaSegmentName (lit "orders") 0 1 0, replicaSegmentName (lit "orders") 0 2 0,
    offsetIndexName (lit "orders") 0, timestampIndexName (lit "orders") 0] := by
  decide

theorem named_first {t : Str} {p k : Int} (h : FirstSegment t p k) : Named t p k := by
  obtain ⟨rfl, rfl, rfl⟩ := h
  refine ⟨⟨⟨by decide, by decide⟩, ?_⟩, by decide, ?_⟩
  · unfold Natural InInt64
    omega
  · unfold Natural InInt64
    omega

theorem directory_disk : Directory disk FirstSegment FirstSegment := by
  have hfile : ∀ name, (disk.get name).isSome ↔ name ∈ disk.keys := by
    intro name
    rw [FMap.mem_keys_iff, Option.isSome_iff_exists]
  refine ⟨fun _ _ _ h => named_first h, fun _ _ _ h => named_first h, ?_, ?_, ?_⟩
  · rintro t p k ⟨rfl, rfl, rfl⟩
    rw [hfile, keys_disk.mem_iff]
    exact List.mem_cons_self ..
  · rintro t p k r ⟨rfl, rfl, rfl⟩ ⟨hlow, hhigh⟩
    rw [hfile, keys_disk.mem_iff]
    have hcases : r = 1 ∨ r = 2 := by
      unfold localReplicaCount at hhigh
      omega
    rcases hcases with rfl | rfl
    · simp
    · simp
  · intro name hname
    rw [hfile, keys_disk.mem_iff] at hname
    simp only [List.mem_cons, List.not_mem_nil, or_false] at hname
    rcases hname with rfl | rfl | rfl | rfl | rfl
    · exact .inr (.inl ⟨_, 0, 0, ⟨rfl, rfl, rfl⟩, rfl⟩)
    · exact .inr (.inr ⟨_, 0, 0, 1, ⟨rfl, rfl, rfl⟩, ⟨by decide, by decide⟩, rfl⟩)
    · exact .inr (.inr ⟨_, 0, 0, 2, ⟨rfl, rfl, rfl⟩, ⟨by decide, by decide⟩, rfl⟩)
    · exact .inl (offsetIndexName_isIndex _ _)
    · exact .inl (timestampIndexName_isIndex _ _)

/-- After the first record of a topic a restart finds its partition, and nothing else but
the mirrors. -/
theorem file_names_recovered_orders :
    Directory disk FirstSegment FirstSegment ∧
      ∀ t p, (get2 (loaded (calm 2) defaultSettings disk).partitionState t p).isSome ↔
        (∃ k, FirstSegment t p k) ∨
          ∃ t' p' k, FirstSegment t' p' k ∧ Mirror p ∧ t = replicaTopic t' p' := by
  have hok : Succeeds (calm 2) := ⟨rfl, rfl, fun _ => rfl, fun _ => rfl, rfl⟩
  exact ⟨directory_disk, (file_names_recovered (calm 2) defaultSettings disk FirstSegment
    FirstSegment hok directory_disk).2.2.2.2.2⟩

/-- The mirror of a partition is read as a segment of a topic that nobody wrote to, a
topic of that name shares its file, and a topic that ends in the segment mark is not read
back. -/
theorem mirror_taken_for_segment :
    parseSegmentFileName (replicaSegmentName (lit "orders") 0 1 0) =
        some (lit "orders-0-replica", 1, 0) ∧
      segmentName (lit "orders-0-replica") 1 0 = replicaSegmentName (lit "orders") 0 1 0 ∧
      parseSegmentFileName (segmentName (lit "orders-segment") 0 0) = none ∧
      (get2 (loaded (calm 2) defaultSettings disk).partitionState
        (lit "orders-0-replica") 1).isSome = true := by
  decide +kernel

end OneRecord

end Flux.RecoveredPartitions
