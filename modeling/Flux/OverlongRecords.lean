import Flux.CleanRestarts
import Flux.ProduceRoundTrip

/-!
A record that is too long for its log. A request line and a line of a segment file
are read through buffers of the same size, but the line of the file has more around
the value: a record whose request was just short enough can be beyond the replay,
which stops there without an error.
-/
namespace Flux.OverlongRecords

open GoStrings FiniteMap PartitionStorage Runs Checksums LogLines
open SegmentNames StorageReplay StorageAppends StorageRecovery Protocol Interleavings BrokerNode
  BrokerRuns
open RequestHandlers ProduceReceipts WhiteSpace ProduceRequests ProduceRoundTrip CleanRestarts
open StorageCalls hiding step

def listed (env : Env) (s : Storage) (e : SegmentEntry) : Storage :=
  setState s e.topic e.partition (listSegment (stateOf env s e.topic e.partition) e.segmentID)

theorem foldl_loadEntry_blank (env : Env) (entries : List SegmentEntry) (s : Storage)
    (h : ∀ e ∈ entries, replayed s.disk e.name = []) :
    entries.foldl (loadEntry env) s = entries.foldl (listed env) s := by
  induction entries generalizing s with
  | nil => rfl
  | cons e rest ih =>
    have hfirst : loadEntry env s e = listed env s e := by
      have hblank := h e (List.mem_cons_self ..)
      have hdisk : (listed env s e).disk.get e.name = s.disk.get e.name := rfl
      unfold replayed at hblank
      cases hfile : s.disk.get e.name with
      | none =>
        unfold listed at hdisk
        simp only [loadEntry, loadSegment, listed, hdisk, hfile]
      | some file =>
        unfold listed at hdisk
        simp only [hfile] at hblank
        simp only [loadEntry, loadSegment, listed, hdisk, hfile, hblank, List.foldl_nil]
    rw [List.foldl_cons, List.foldl_cons, hfirst]
    exact ih (listed env s e) (fun e' he' => h e' (List.mem_cons_of_mem _ he'))

/-- A line beyond the buffer of the scanner ends the replay. -/
theorem replay_overlong {r : Record} (hline : (10 : UInt8) ∉ r.value)
    (hlong : maxScanTokenSize ≤ r.value.length + 24) (hts : 13 ≤ (itoa r.timestamp).length) :
    replay (formatLine r) = [] := by
  have hfits : fits (formatRecord r) = false := by
    have hchecksum : (hexPad8 (checksumIEEE r.value)).length = 8 :=
      length_hexPad8 (UInt32.toNat_lt _)
    simp only [fits, formatRecord, List.length_append, List.length_cons, decide_eq_false_iff_not]
    omega
  rw [replay, formatLine, scanLines_append (formatRecord_no_newline r hline), hfits]
  rfl

def dated : Surroundings := { quiet with storage := calm 1700000000000000000 }

theorem topic_created : ∃ b md pm, (ensureTopicMetadata dated (lit "t")).run aloneBroker =
      .ok (b, .ok md) ∧ md.partitions.keys.length = 1 ∧ md.partitions.get 0 = some pm ∧
    pm.leaderID = b.localBrokerID ∧ Unfollowed b.replication (lit "t") 0 ∧
    b.storage = aloneBroker.storage := by
  refine ⟨_, _, _, rfl, rfl, rfl, rfl, ⟨rfl, rfl, ?_⟩, rfl⟩
  decide

section LongValue

def keylessArgs (value : Str) : Str := lit "t" ++ ([32] ++ (58 :: value))

def keylessLine (value : Str) : Str :=
  commandLine (itoa (1 : ℕ)) (lit "PRODUCE") (keylessArgs value)

variable {value : Str} (hvalue : SpaceFree value)

include hvalue

theorem fields_keylessArgs : fields (keylessArgs value) = [lit "t", 58 :: value] := by
  have hempty : SpaceFree [] := by decide
  have hword : SpaceFree (58 :: value) := spaceFree_message hempty hvalue
  rw [keylessArgs, fields_append_space (by decide), fields_spaceFree hword (by simp)]
  rfl

theorem produced_keyless :
    readProduce (fields (keylessArgs value)) = some ⟨lit "t", [], value, .leader⟩ := by
  have hsplit : Cuts.splitN [58] 2 (58 :: value) = [[], value] :=
    Cuts.splitN_cons 58 0 [] value List.not_mem_nil
  rw [fields_keylessArgs hvalue]
  simp only [readProduce, hsplit]
  rfl

theorem keyless_line_served : ∃ hw,
    (serve aloneBroker (dated, keylessLine value)).storage =
        (produceToPartition dated.storage aloneBroker.storage (lit "t") 0 value).1 ∧
      replyTo aloneBroker (dated, keylessLine value) =
        some (okLine (produceRequest 1 (keylessArgs value)) 0 0 hw) := by
  obtain ⟨b, md, pm, htopic, hcount, hget, hleader, hunfollowed, hstorage⟩ := topic_created
  obtain ⟨b', hw, hproduced, hafter⟩ := produceTo_answers dated
    (produceRequest 1 (keylessArgs value)) .leader [] value hcount hget hleader hunfollowed
  have hne : md.partitions.keys ≠ [] := List.ne_nil_of_length_pos (by omega)
  have hline : handleLine dated (keylessLine value) =
      handleProduce dated (produceRequest 1 (keylessArgs value)) := by
    rw [handleLine, keylessLine, parseRequest_commandLine]
    rfl
  have hrun : (handleLine dated (keylessLine value)).run aloneBroker =
      .ok (b', okLine (produceRequest 1 (keylessArgs value)) 0 0 hw) := by
    have hread : handleProduce dated (produceRequest 1 (keylessArgs value)) =
        carryOut dated (produceRequest 1 (keylessArgs value)) ⟨lit "t", [], value, .leader⟩ :=
      handleProduce_read dated (produced_keyless hvalue)
    rw [hline, hread, carryOut, Program.run_bind htopic]
    dsimp only
    rw [if_neg hne, hproduced, hstorage, produceToPartition_offset]
    rfl
  rw [serve, replyTo, hrun]
  exact ⟨hw, by rw [hafter, hstorage], rfl⟩

theorem acknowledges_keyless (hw : Int) :
    Acknowledges (keylessLine value) (okLine (produceRequest 1 (keylessArgs value)) 0 0 hw)
      ⟨lit "t", 0, 0, value⟩ := by
  refine ⟨produceRequest 1 (keylessArgs value), hw, parseRequest_commandLine 1 _,
    ⟨rfl, 58 :: value, [], [], fields_keylessArgs hvalue, ?_⟩, rfl⟩
  exact Cuts.splitN_cons 58 0 [] value List.not_mem_nil

end LongValue

section Lost

def keylessDisk (value : Str) : Disk :=
  (produceToPartition dated.storage aloneBroker.storage (lit "t") 0 value).1.disk

/-- The record has two copies, and both indexes have a line. -/
theorem keylessDisk_eq (value : Str) : ∃ file : File, ∃ offsets timestamps,
    file.content = formatLine ⟨0, 1700000000000, value⟩ ∧ keylessDisk value =
      ((((FMap.empty.set (segmentName (lit "t") 0 0) file).set
        (replicaSegmentName (lit "t") 0 1 0) file).set
        (replicaSegmentName (lit "t") 0 2 0) file).set
        (offsetIndexName (lit "t") 0) offsets).set (timestampIndexName (lit "t") 0) timestamps :=
  ⟨⟨_, dated.storage.written⟩, _, _, rfl, rfl⟩

def keylessEntries : List SegmentEntry :=
  [⟨lit "t", 0, 0, segmentName (lit "t") 0 0⟩,
    ⟨lit "t-0-replica", 1, 0, replicaSegmentName (lit "t") 0 1 0⟩,
    ⟨lit "t-0-replica", 2, 0, replicaSegmentName (lit "t") 0 2 0⟩]

theorem sortedEntries_keyless (value : Str) :
    (segmentEntries (calm 0) (keylessDisk value)).insertionSort (fun a b => entryLe a b = true) =
      keylessEntries := by
  obtain ⟨file, offsets, timestamps, -, hdisk⟩ := keylessDisk_eq value
  unfold segmentEntries
  simp only [hdisk, FMap.keys_set, FMap.keys_empty]
  decide

section Lost

variable {value : Str} (hlost : replay (formatLine ⟨0, 1700000000000, value⟩) = [])

include hlost

theorem replayed_keyless :
    ∀ e ∈ keylessEntries, replayed (keylessDisk value) e.name = [] := by
  obtain ⟨file, offsets, timestamps, hfile, hdisk⟩ := keylessDisk_eq value
  have hget : ∀ e ∈ keylessEntries, (keylessDisk value).get e.name = some file := by
    rw [hdisk]
    intro e he
    simp only [keylessEntries, List.mem_cons, List.not_mem_nil, or_false] at he
    rcases he with rfl | rfl | rfl
    · rfl
    · rfl
    · rfl
  intro e he
  rw [replayed, hget e he]
  dsimp only
  rw [hfile, hlost]

/-- What a restart makes of the directory if the record is beyond the scanner. -/
theorem restarted_keyless (settings : Settings) :
    loaded (calm 0) settings (keylessDisk value) =
      keylessEntries.foldl (listed (calm 0)) ⟨settings, FMap.empty, FMap.empty,
        keylessDisk value⟩ := by
  have hblank := foldl_loadEntry_blank (calm 0) keylessEntries
    ⟨settings, FMap.empty, FMap.empty, keylessDisk value⟩ (replayed_keyless hlost)
  rw [← hblank, ← sortedEntries_keyless value]
  rfl

/-- The restart finds one empty segment for the partition and for each copy. -/
theorem restarted_keyless_eq :
    newStorage (calm 0) (newSettings alone) (keylessDisk value) =
      loaded (calm 0) (newSettings alone) (keylessDisk value) := by
  refine enforceRetention_eq_self ?_
  have hsole : ∀ disk, ∀ key ∈ stateKeys (keylessEntries.foldl (listed (calm 0))
      ⟨newSettings alone, FMap.empty, FMap.empty, disk⟩),
      (stateOf (calm 0) (keylessEntries.foldl (listed (calm 0))
        ⟨newSettings alone, FMap.empty, FMap.empty, disk⟩) key.1 key.2).segments.tail = [] := by
    intro disk
    show ∀ key ∈ stateKeys (keylessEntries.foldl (listed (calm 0))
      ⟨newSettings alone, FMap.empty, FMap.empty, FMap.empty⟩),
      (stateOf (calm 0) (keylessEntries.foldl (listed (calm 0))
        ⟨newSettings alone, FMap.empty, FMap.empty, FMap.empty⟩) key.1 key.2).segments.tail = []
    decide
  have hloaded := restarted_keyless hlost (newSettings alone)
  rw [loaded] at hloaded
  rw [hloaded]
  exact hsole (keylessDisk value)

end Lost

/-- An acknowledged record that a restart loses. -/
theorem keyless_record_lost {value : Str} (hvalue : SpaceFree value)
    (hlost : replay (formatLine ⟨0, 1700000000000, value⟩) = []) :
    let delivery : Delivery := (dated, keylessLine value)
    let s := (run serve aloneBroker [delivery]).storage
    let restarted := newStorage (calm 0) (newSettings alone) s.disk
    Acknowledged aloneBroker [delivery] ⟨lit "t", 0, 0, value⟩ ∧
      messagesOf s (lit "t") 0 = [⟨0, value⟩] ∧
      restarted = loaded (calm 0) (newSettings alone) s.disk ∧
      messagesOf restarted (lit "t") 0 = [] ∧ nextOffsetOf restarted (lit "t") 0 = 0 := by
  intro delivery s restarted
  obtain ⟨hw, hstorage, hanswer⟩ := keyless_line_served hvalue
  have hdisk : s.disk = keylessDisk value := congrArg Storage.disk hstorage
  have hsole : restarted = loaded (calm 0) (newSettings alone) s.disk := by
    show newStorage (calm 0) (newSettings alone) s.disk = _
    rw [hdisk]
    exact restarted_keyless_eq hlost
  have hloaded : restarted = keylessEntries.foldl (listed (calm 0))
      ⟨newSettings alone, FMap.empty, FMap.empty, keylessDisk value⟩ := by
    rw [hsole, hdisk, restarted_keyless hlost]
  refine ⟨⟨[], delivery, [], _, rfl, hanswer, acknowledges_keyless hvalue hw⟩, ?_, hsole, ?_, ?_⟩
  · show messagesOf (serve aloneBroker delivery).storage (lit "t") 0 = _
    rw [hstorage]
    rfl
  · rw [hloaded]
    rfl
  · rw [hloaded]
    rfl

end Lost

@[irreducible] def longValue : Str := List.replicate 65519 118

theorem mem_longValue {c : UInt8} (h : c ∈ longValue) : c = 118 := by
  rw [longValue] at h
  exact List.eq_of_mem_replicate h

theorem length_longValue : longValue.length = 65519 := by
  rw [longValue, List.length_replicate]

theorem replay_longValue : replay (formatLine ⟨0, 1700000000000, longValue⟩) = [] := by
  refine replay_overlong (fun hmem => ?_) ?_ ?_
  · exact absurd (mem_longValue hmem) (by decide)
  · rw [length_longValue]
    decide
  · decide

theorem spaceFree_longValue : SpaceFree longValue := by
  apply spaceFree_of_printable
  intro c hc
  rw [mem_longValue hc]
  decide

theorem length_keylessLine (value : Str) : (keylessLine value).length = value.length + 16 := by
  have hfront : (lit "PRODUCE").length = 7 := by decide
  have hid : (itoa (1 : ℕ)).length = 1 := by decide
  have htopic : (lit "t").length = 1 := by decide
  have hversion : version.length = 2 := by decide
  simp only [keylessLine, commandLine, keylessArgs, List.length_append, List.length_cons,
    List.length_nil, hfront, hid, htopic, hversion]
  omega

/-- A record is acknowledged and in the log, no file operation fails and retention
removes nothing, and after a restart the log is empty. -/
theorem long_record_lost :
    let delivery : Delivery := (dated, keylessLine longValue)
    let s := (run serve aloneBroker [delivery]).storage
    let restarted := newStorage (calm 0) (newSettings alone) s.disk
    (keylessLine longValue).length < maxScanTokenSize ∧ Succeeds dated.storage ∧
      Plain (lit "t") ∧ Acknowledged aloneBroker [delivery] ⟨lit "t", 0, 0, longValue⟩ ∧
      messagesOf s (lit "t") 0 = [⟨0, longValue⟩] ∧
      restarted = loaded (calm 0) (newSettings alone) s.disk ∧
      messagesOf restarted (lit "t") 0 = [] ∧ nextOffsetOf restarted (lit "t") 0 = 0 ∧
      ¬ Recovered aloneBroker [delivery] restarted := by
  intro delivery s restarted
  obtain ⟨hack, hbefore, hsole, hafter, hnext⟩ :=
    keyless_record_lost spaceFree_longValue replay_longValue
  have hshort : (keylessLine longValue).length < maxScanTokenSize := by
    rw [length_keylessLine, length_longValue]
    decide
  refine ⟨hshort, calm_succeeds _, by decide, hack, hbefore, hsole, hafter, hnext, fun h => ?_⟩
  have hin := h.records _ hack
  rw [hafter] at hin
  exact absurd hin List.not_mem_nil

end Flux.OverlongRecords
