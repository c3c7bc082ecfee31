import Flux.SegmentRuns

/-!
A segment file with lines that are no records among its records. Replaying it
appends the records in order, moves the next offset over them and touches no other
partition. A line counts as the scanner hands it on, without a carriage return at
its end.
-/
namespace Flux.SegmentReplays

open GoStrings LogLines SegmentNames FiniteMap PartitionStorage StorageFrames
open StorageReplay StorageCalls SegmentRuns StorageAppends

/-- A line of a segment file. -/
inductive Line
  | record (r : Record)
  | garbage (text : Str)

def Line.text : Line → Str
  | .record r => formatRecord r
  | .garbage text => text

def Line.record? : Line → Option Record
  | .record r => some r
  | .garbage _ => none

def content (lines : List Line) : Str := lines.flatMap (fun line => line.text ++ [10])

def recordsOf (lines : List Line) : List Record := lines.filterMap Line.record?

/-- A line that `parseLogLine` rejects as the scanner hands it on. -/
structure Rejected (text : Str) : Prop where
  no_newline : (10 : UInt8) ∉ text
  rejected : parseLogLine (dropCR text) = none
  fits : (text ++ [10]).length ≤ maxScanTokenSize

/-- A record whose offset has a successor. -/
structure Regular (r : Record) : Prop where
  loggable : Loggable r
  natural : 0 ≤ r.offset
  successor : r.offset < 2 ^ 63 - 1

def Line.Proper : Line → Prop
  | .record r => Regular r
  | .garbage text => Rejected text

def nextAfter (next : Int) (records : List Record) : Int :=
  (records.map (fun r => r.offset + 1)).foldl max next

section Text

variable {lines : List Line}

theorem Line.no_newline_of_proper {line : Line} (h : line.Proper) : (10 : UInt8) ∉ line.text := by
  cases line with
  | record r => exact formatRecord_no_newline r h.loggable.no_newline
  | garbage text => exact h.no_newline

theorem Line.fits_of_proper {line : Line} (h : line.Proper) : LogLines.fits line.text = true := by
  have hlength : (line.text ++ [10]).length ≤ maxScanTokenSize := by
    cases line with
    | record r => exact h.loggable.fits
    | garbage text => exact h.fits
  rw [List.length_append, List.length_singleton] at hlength
  rw [LogLines.fits, decide_eq_true_eq]
  omega

theorem Line.parse_of_proper {line : Line} (h : line.Proper) :
    parseLogLine (dropCR line.text) = line.record? := by
  cases line with
  | record r => exact parse_formatted h.loggable
  | garbage text => exact h.rejected

/-- Replaying the file gives its records. -/
theorem replay_content (h : ∀ line ∈ lines, line.Proper) :
    replay (content lines) = recordsOf lines := by
  have htext : content lines = torn (lines.map Line.text) [] := by
    rw [torn, List.append_nil, List.flatMap_map]
    rfl
  have hlines : ∀ text ∈ lines.map Line.text, (10 : UInt8) ∉ text := by
    intro text htext
    obtain ⟨line, hline, rfl⟩ := List.mem_map.mp htext
    exact Line.no_newline_of_proper (h line hline)
  have hfits : ∀ text ∈ lines.map Line.text, LogLines.fits text = true := by
    intro text htext
    obtain ⟨line, hline, rfl⟩ := List.mem_map.mp htext
    exact Line.fits_of_proper (h line hline)
  rw [htext, replay_complete hlines hfits, List.map_map, List.filterMap_map]
  exact List.filterMap_congr (fun line hline => Line.parse_of_proper (h line hline))

end Text

section Replay

variable (env : Env) {topic : Str} {partition : Int} (segmentID : Int)

theorem loadRecord_next (s : Storage) (r : Record) :
    nextOffsetOf (loadRecord env topic partition segmentID s r) topic partition =
      max (nextOffsetOf s topic partition) (r.offset + 1) := by
  have hnext : (stateOf env (pushMessage s topic partition ⟨r.offset, r.value⟩) topic
      partition).nextOffset = nextOffsetOf s topic partition := stateOf_nextOffset env s _ _
  rw [← stateOf_nextOffset env]
  have hstate : stateOf env (loadRecord env topic partition segmentID s r) topic partition =
      let st := stateOf env (pushMessage s topic partition ⟨r.offset, r.value⟩) topic partition
      if st.nextOffset ≤ r.offset then { st with nextOffset := r.offset + 1 } else st :=
    stateOf_setState ..
  rw [hstate]
  dsimp only
  split
  · dsimp only
    omega
  · omega

theorem foldl_loadRecord_effect (topic : Str) (partition : Int) (records : List Record)
    (s : Storage) :
    let s' := records.foldl (loadRecord env topic partition segmentID) s
    messagesOf s' topic partition = messagesOf s topic partition ++ records.map toMessage ∧
      nextOffsetOf s' topic partition = nextAfter (nextOffsetOf s topic partition) records := by
  induction records generalizing s with
  | nil => exact ⟨(List.append_nil _).symm, rfl⟩
  | cons r rest ih =>
    obtain ⟨hmessages, hnext⟩ := ih (loadRecord env topic partition segmentID s r)
    rw [loadRecord_messages] at hmessages
    rw [loadRecord_next] at hnext
    refine ⟨?_, ?_⟩
    · rw [List.foldl_cons, hmessages, List.map_cons, List.append_assoc, List.singleton_append]
    · rw [List.foldl_cons, hnext, nextAfter, nextAfter, List.map_cons, List.foldl_cons]

/-- Replaying a file of records and rejected lines, whatever the storage holds. -/
theorem segment_replayed (s : Storage) {name : Str} {file : File} {lines : List Line}
    (hfile : s.disk.get name = some file) (hcontent : file.content = content lines)
    (hproper : ∀ line ∈ lines, line.Proper) :
    let s' := loadSegment env s topic partition segmentID name
    messagesOf s' topic partition =
        messagesOf s topic partition ++ (recordsOf lines).map toMessage ∧
      nextOffsetOf s' topic partition =
        nextAfter (nextOffsetOf s topic partition) (recordsOf lines) ∧
      (∀ t p, (t, p) ≠ (topic, partition) →
        get2 s'.data t p = get2 s.data t p ∧
          get2 s'.partitionState t p = get2 s.partitionState t p) := by
  have hlocal := loadSegment_local env s topic partition segmentID name
  have hload : loadSegment env s topic partition segmentID name =
      (recordsOf lines).foldl (loadRecord env topic partition segmentID) s := by
    rw [loadSegment, hfile]
    dsimp only
    rw [hcontent, replay_content hproper]
  have heffect := foldl_loadRecord_effect env segmentID topic partition (recordsOf lines) s
  rw [← hload] at heffect
  exact ⟨heffect.1, heffect.2, fun t p hne => ⟨hlocal.data t p hne, hlocal.state t p hne⟩⟩

end Replay

section Examples

def mixed : List Line :=
  [.garbage (lit "no record"), .record ⟨7, 5, lit "a|b"⟩, .garbage []]

def mixedStorage : Storage where
  settings := ⟨1, 1024, 1024, 0, 0, 0, .never⟩
  data := FMap.empty
  partitionState := FMap.empty
  disk := FMap.empty.set (segmentName (lit "t") 0 0) ⟨content mixed, 0⟩

theorem mixed_proper : ∀ line ∈ mixed, line.Proper := by
  refine List.forall_mem_cons.mpr ⟨⟨by decide, by decide, by decide⟩,
    List.forall_mem_cons.mpr ⟨⟨⟨?_, ?_, by decide +kernel, by decide +kernel, by decide +kernel⟩,
      by decide, by decide⟩,
    List.forall_mem_singleton.mpr ⟨by decide, by decide, by decide⟩⟩⟩
  · exact ⟨by decide, by decide⟩
  · exact ⟨by decide, by decide⟩

theorem segment_replayed_mixed :
    let s' := loadSegment (calm 1) mixedStorage (lit "t") 0 0 (segmentName (lit "t") 0 0)
    messagesOf s' (lit "t") 0 = messagesOf mixedStorage (lit "t") 0 ++
        (recordsOf mixed).map toMessage ∧
      nextOffsetOf s' (lit "t") 0 =
        nextAfter (nextOffsetOf mixedStorage (lit "t") 0) (recordsOf mixed) ∧
      (∀ t p, (t, p) ≠ (lit "t", 0) →
        get2 s'.data t p = get2 mixedStorage.data t p ∧
          get2 s'.partitionState t p = get2 mixedStorage.partitionState t p) :=
  segment_replayed (calm 1) 0 mixedStorage (FMap.get_set_self _ _ _) rfl mixed_proper

def returned : Str := formatRecord ⟨0, 0, lit "a"⟩ ++ [13]

/-- `parseLogLine` rejects the line, and the file that consists of it gives a record. -/
theorem returned_line_replayed :
    parseLogLine returned = none ∧
    messagesOf (loadSegment (calm 1) { mixedStorage with
        disk := FMap.empty.set (segmentName (lit "t") 0 0) ⟨content [.garbage returned], 0⟩ }
      (lit "t") 0 0 (segmentName (lit "t") 0 0)) (lit "t") 0 = [⟨0, lit "a"⟩] :=
  ⟨by decide, by decide⟩

end Examples

end Flux.SegmentReplays
