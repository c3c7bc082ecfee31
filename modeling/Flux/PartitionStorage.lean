import Flux.BrokerConfig
import Flux.FiniteMap
import Flux.SegmentNames

/-!
The storage of one broker: an in-memory copy of every partition log, the write
state of every partition, and the data directory. Each operation of the source
is a function of the storage and of what the call meets outside it: clock
readings, the outcome of file operations and the iteration order of maps.
Names are taken below the data directory. A file can be read and inspected
exactly when it exists, and removing a file never fails.
-/
namespace Flux.PartitionStorage

open GoRuntime GoStrings Checksums LogLines SegmentNames FiniteMap BrokerConfig

structure Message where
  offset : Int
  value : Str
  deriving DecidableEq, Repr

structure PartitionState where
  nextOffset : Int
  activeSegmentID : Int
  segments : List Int
  lastFsyncAt : Time
  pendingBytes : Int
  deriving DecidableEq, Repr

inductive FsyncMode
  | always
  | never
  | interval
  deriving DecidableEq, Repr

structure File where
  content : Str
  modTime : Time
  deriving DecidableEq, Repr

abbrev Disk := FMap Str File

structure Settings where
  numPartitions : Int
  segmentMaxBytes : Int
  retentionMaxBytes : Int
  retentionMaxAge : Int
  flushInterval : Int
  flushBytes : Int
  fsyncMode : FsyncMode
  deriving DecidableEq, Repr

structure Storage where
  settings : Settings
  data : FMap Str (FMap Int (List Message))
  partitionState : FMap Str (FMap Int PartitionState)
  disk : Disk

/-- What one call meets outside the storage. A failing write of a line stores
the number of bytes that `writeFails` gives before it fails. -/
structure Env where
  created : Time
  stamp : Time
  written : Time
  synced : Time
  flushed : Time
  retention : Str → Int → Time
  visit : List (Str × Int) → List (Str × Int)
  visit_perm : ∀ keys, (visit keys).Perm keys
  listing : List Str → List Str
  listing_perm : ∀ names, (listing names).Perm names
  mkdirOk : Bool
  readDirOk : Bool
  openOk : Str → Bool
  writeFails : Str → Option ℕ
  syncOk : Bool

def localReplicaCount : ℕ := 2

/-- The `switch` of `applyFsyncPolicy` treats every unknown mode as `always`. -/
def fsyncModeOf (name : Str) : FsyncMode :=
  if name = lit "never" then .never
  else if name = lit "interval" then .interval
  else .always

def newSettings (cfg : Config) : Settings where
  numPartitions := cfg.numPartitions
  segmentMaxBytes := valueOrDefault cfg.segmentMaxBytes (1024 * 1024)
  retentionMaxBytes := valueOrDefault cfg.retentionMaxBytes (50 * 1024 * 1024)
  retentionMaxAge := valueOrDefault (duration cfg.retentionMaxAgeSeconds second) (86400 * second)
  flushInterval := valueOrDefault (duration cfg.flushIntervalMs millisecond) (1000 * millisecond)
  flushBytes := valueOrDefault cfg.flushBytes (64 * 1024)
  fsyncMode := fsyncModeOf (valueOrDefaultString cfg.fsyncMode (lit "always"))

inductive FileError
  | open
  | write
  deriving DecidableEq, Repr

def appendBytes (now : Time) (disk : Disk) (name bytes : Str) : Disk :=
  match disk.get name with
  | some file => if bytes = [] then disk else disk.set name ⟨file.content ++ bytes, now⟩
  | none => disk.set name ⟨bytes, now⟩

def appendLine (env : Env) (disk : Disk) (name line : Str) : Disk × Option FileError :=
  if env.openOk name then
    match env.writeFails name with
    | some stored => (appendBytes env.written disk name (line.take stored), some .write)
    | none => (appendBytes env.written disk name line, none)
  else (disk, some .open)

def fileSize (disk : Disk) (name : Str) : Int :=
  match disk.get name with
  | some file => file.content.length
  | none => 0

def setState (s : Storage) (topic : Str) (partition : Int) (st : PartitionState) : Storage :=
  { s with partitionState := set2 s.partitionState topic partition st }

def freshState (env : Env) : PartitionState := ⟨0, 0, [0], env.created, 0⟩

/-- The state `ensurePartitionState` returns a pointer to. -/
def stateOf (env : Env) (s : Storage) (topic : Str) (partition : Int) : PartitionState :=
  (get2 s.partitionState topic partition).getD (freshState env)

def ensurePartitionState (env : Env) (s : Storage) (topic : Str) (partition : Int) : Storage :=
  setState s topic partition (stateOf env s topic partition)

def messagesOf (s : Storage) (topic : Str) (partition : Int) : List Message :=
  (get2 s.data topic partition).getD []

def pushMessage (s : Storage) (topic : Str) (partition : Int) (m : Message) : Storage :=
  { s with data := set2 s.data topic partition (messagesOf s topic partition ++ [m]) }

def shouldRotate (s : Storage) (topic : Str) (partition segmentID appendBytes : Int) : Bool :=
  match s.disk.get (segmentName topic partition segmentID) with
  | some file => s.settings.segmentMaxBytes < file.content.length + appendBytes
  | none => false

def rotate (st : PartitionState) : PartitionState :=
  { st with
    activeSegmentID := st.activeSegmentID + 1
    segments := st.segments ++ [st.activeSegmentID + 1] }

def writeLocalReplicas (env : Env) (disk : Disk) (topic : Str) (partition segmentID : Int)
    (line : Str) : Disk :=
  (List.range localReplicaCount).foldl
    (fun d (i : ℕ) =>
      (appendLine env d (replicaSegmentName topic partition (i + 1 : Int) segmentID) line).1)
    disk

def appendOffsetIndex (env : Env) (disk : Disk) (topic : Str) (partition offset segmentID : Int) :
    Disk :=
  (appendLine env disk (offsetIndexName topic partition)
    (itoa offset ++ 58 :: (itoaPad6 segmentID ++ [10]))).1

def appendTimestampIndex (env : Env) (disk : Disk) (topic : Str)
    (partition timestamp segmentID offset : Int) : Disk :=
  (appendLine env disk (timestampIndexName topic partition)
    (itoa timestamp ++ 58 :: (itoaPad6 segmentID ++ 58 :: (itoa offset ++ [10])))).1

def appendIndexes (env : Env) (disk : Disk) (topic : Str) (partition segmentID : Int) (r : Record) :
    Disk :=
  appendTimestampIndex env (appendOffsetIndex env disk topic partition r.offset segmentID)
    topic partition r.timestamp segmentID r.offset

def applyFsyncPolicy (env : Env) (settings : Settings) (st : PartitionState) (written : Int) :
    PartitionState × Bool :=
  match settings.fsyncMode with
  | .never => (st, true)
  | .always => (st, env.syncOk)
  | .interval =>
      let pending := st.pendingBytes + written
      if settings.flushBytes ≤ pending ∨
          settings.flushInterval ≤ timeSub env.synced st.lastFsyncAt then
        if env.syncOk then ({ st with pendingBytes := 0, lastFsyncAt := env.flushed }, true)
        else ({ st with pendingBytes := pending }, false)
      else ({ st with pendingBytes := pending }, true)

def loadRecord (env : Env) (topic : Str) (partition segmentID : Int) (s : Storage) (r : Record) :
    Storage :=
  let pushed := pushMessage s topic partition ⟨r.offset, r.value⟩
  let st := stateOf env pushed topic partition
  let moved := setState pushed topic partition
    (if st.nextOffset ≤ r.offset then { st with nextOffset := r.offset + 1 } else st)
  { moved with disk := appendIndexes env moved.disk topic partition segmentID r }

def loadSegment (env : Env) (s : Storage) (topic : Str) (partition segmentID : Int) (name : Str) :
    Storage :=
  match s.disk.get name with
  | some file => (replay file.content).foldl (loadRecord env topic partition segmentID) s
  | none => s

def rebuildPartitionFromSegments (env : Env) (s : Storage) (topic : Str) (partition : Int)
    (st : PartitionState) : Storage :=
  let cleared :=
    if (s.data.get topic).isSome then { s with data := set2 s.data topic partition [] } else s
  st.segments.foldl
    (fun s segID => loadSegment env s topic partition segID (segmentName topic partition segID))
    (setState cleared topic partition { st with nextOffset := 0 })

def deleteSegment (env : Env) (s : Storage) (topic : Str) (partition : Int) (st : PartitionState)
    (segID : Int) : Storage :=
  rebuildPartitionFromSegments env { s with disk := s.disk.del (segmentName topic partition segID) }
    topic partition { st with segments := st.segments.tail }

/-- The loop of `applyAgeRetention` over the segments that are left. -/
def ageLoop (env : Env) (topic : Str) (partition : Int) (cutoff : Time) :
    List Int → Storage → Storage
  | segID :: next :: rest, s =>
      let st := stateOf env s topic partition
      match s.disk.get (segmentName topic partition segID) with
      | none =>
          ageLoop env topic partition cutoff (next :: rest)
            (setState s topic partition { st with segments := st.segments.tail })
      | some file =>
          if cutoff < file.modTime then s
          else ageLoop env topic partition cutoff (next :: rest)
            (deleteSegment env s topic partition st segID)
  | _, s => s

def applyAgeRetention (env : Env) (s : Storage) (topic : Str) (partition : Int) : Storage :=
  if s.settings.retentionMaxAge ≤ 0 then s
  else ageLoop env topic partition (env.retention topic partition - s.settings.retentionMaxAge)
    (stateOf env s topic partition).segments s

/-- The loop of `applySizeRetention` over the segments that are left. -/
def sizeLoop (env : Env) (topic : Str) (partition : Int) : List Int → Int → Storage → Storage
  | segID :: next :: rest, total, s =>
      if s.settings.retentionMaxBytes < total then
        sizeLoop env topic partition (next :: rest)
          (total - fileSize s.disk (segmentName topic partition segID))
          (deleteSegment env s topic partition (stateOf env s topic partition) segID)
      else s
  | _, _, s => s

def applySizeRetention (env : Env) (s : Storage) (topic : Str) (partition : Int) : Storage :=
  if s.settings.retentionMaxBytes ≤ 0 then s
  else
    let segments := (stateOf env s topic partition).segments
    sizeLoop env topic partition segments
      (segments.map (fun segID => fileSize s.disk (segmentName topic partition segID))).sum s

def retainPartition (env : Env) (s : Storage) (key : Str × Int) : Storage :=
  applySizeRetention env (applyAgeRetention env s key.1 key.2) key.1 key.2

def stateKeys (s : Storage) : List (Str × Int) :=
  s.partitionState.keys.flatMap
    (fun topic => ((s.partitionState.get topic).getD FMap.empty).keys.map (fun p => (topic, p)))

def enforceRetentionLocked (env : Env) (s : Storage) : Storage :=
  (env.visit (stateKeys s)).foldl (retainPartition env) s

def writeSegment (env : Env) (s : Storage) (topic : Str) (partition : Int) (line : Str) :
    Storage × Option FileError :=
  let st := stateOf env s topic partition
  let st := if shouldRotate s topic partition st.activeSegmentID line.length then rotate st else st
  let written := appendLine env s.disk (segmentName topic partition st.activeSegmentID) line
  ({ setState s topic partition st with disk := written.1 }, written.2)

def publish (env : Env) (s : Storage) (topic : Str) (partition : Int) (r : Record) : Storage :=
  let st := stateOf env s topic partition
  let indexed :=
    { s with disk := appendIndexes env s.disk topic partition st.activeSegmentID r }
  let pushed := pushMessage indexed topic partition ⟨r.offset, r.value⟩
  enforceRetentionLocked env
    (setState pushed topic partition { st with nextOffset := r.offset + 1 })

def produceToPartition (env : Env) (s : Storage) (topic : Str) (partition : Int) (value : Str) :
    Storage × Int × Int :=
  let s := ensurePartitionState env s topic partition
  let offset := (stateOf env s topic partition).nextOffset
  let record : Record := ⟨offset, unixMilli env.stamp, value⟩
  let line := formatLine record
  if env.mkdirOk then
    match writeSegment env s topic partition line with
    | (s, some _) => (s, partition, offset)
    | (s, none) =>
        let st := (applyFsyncPolicy env s.settings (stateOf env s topic partition) line.length).1
        let disk := writeLocalReplicas env s.disk topic partition st.activeSegmentID line
        (publish env { setState s topic partition st with disk := disk } topic partition record,
          partition, offset)
  else (s, partition, offset)

inductive AppendError
  | nonContiguous (expected got : Int)
  | mkdir
  | file (e : FileError)
  | sync
  deriving DecidableEq, Repr

def appendReplicated (env : Env) (s : Storage) (topic : Str) (partition offset : Int)
    (value : Str) : Storage × Option AppendError :=
  let s := ensurePartitionState env s topic partition
  let st := stateOf env s topic partition
  if offset < st.nextOffset then (s, none)
  else if st.nextOffset < offset then (s, some (.nonContiguous st.nextOffset offset))
  else
    let record : Record := ⟨offset, unixMilli env.stamp, value⟩
    let line := formatLine record
    if env.mkdirOk then
      match writeSegment env s topic partition line with
      | (s, some e) => (s, some (.file e))
      | (s, none) =>
          let synced := applyFsyncPolicy env s.settings (stateOf env s topic partition) line.length
          let s := setState s topic partition synced.1
          if synced.2 then (publish env s topic partition record, none) else (s, some .sync)
    else (s, some .mkdir)

def lastOffset (s : Storage) (topic : Str) (partition : Int) : Int :=
  match (messagesOf s topic partition).getLast? with
  | some m => m.offset
  | none => -1

def consume (s : Storage) (topic : Str) (partition offset : Int) : Except Panic (List Message) :=
  match get2 s.data topic partition with
  | none => .ok []
  | some messages =>
      if (messages.length : Int) ≤ offset then .ok [] else sliceFrom messages offset

def getPartition (key : Str) (numPartitions : Int) : Except Panic Int :=
  goMod (fnv32a key) numPartitions

structure SegmentEntry where
  topic : Str
  partition : Int
  segmentID : Int
  name : Str
  deriving DecidableEq, Repr

def entryLe (a b : SegmentEntry) : Bool :=
  if a.topic ≠ b.topic then strLe a.topic b.topic
  else if a.partition ≠ b.partition then a.partition ≤ b.partition
  else a.segmentID ≤ b.segmentID

def segmentEntries (env : Env) (disk : Disk) : List SegmentEntry :=
  ((env.listing disk.keys).filter (fun name => (47 : UInt8) ∉ name)).filterMap
    (fun name => (parseSegmentFileName name).map (fun e => ⟨e.1, e.2.1, e.2.2, name⟩))

def listSegment (st : PartitionState) (segmentID : Int) : PartitionState :=
  { st with
    segments :=
      if st.segments.getLast? = some segmentID then st.segments else st.segments ++ [segmentID]
    activeSegmentID := if st.activeSegmentID < segmentID then segmentID else st.activeSegmentID }

def loadEntry (env : Env) (s : Storage) (e : SegmentEntry) : Storage :=
  loadSegment env
    (setState s e.topic e.partition
      (listSegment (stateOf env s e.topic e.partition) e.segmentID))
    e.topic e.partition e.segmentID e.name

def loadData (env : Env) (s : Storage) : Storage :=
  if env.mkdirOk && env.readDirOk then
    ((segmentEntries env s.disk).insertionSort (fun a b => entryLe a b = true)).foldl
      (loadEntry env) s
  else s

def newStorage (env : Env) (settings : Settings) (disk : Disk) : Storage :=
  enforceRetentionLocked env (loadData env ⟨settings, FMap.empty, FMap.empty, disk⟩)

end Flux.PartitionStorage
