import Flux.Runs
import Flux.SegmentRuns
import Flux.TornTails

/-!
Restarts and appends that retention spares. The condition is one on the files before the
call, and under it a sequence of appends writes one line each, whatever the files hold.
-/
namespace Flux.SparedRuns

open GoRuntime GoStrings LogLines SegmentNames FiniteMap PartitionStorage SegmentedLogs Runs
open StorageFrames StorageReplay StorageRefinement StorageAppends StorageRecovery StorageCalls
open SegmentFiles SegmentRuns TornTails

def ownFiles (disk : Disk) (topic : Str) (partition : Int) : List Str :=
  disk.keys.filter (fun name =>
    (parseSegmentFileName name).any (fun e => decide (e.1 = topic ∧ e.2.1 = partition)))

structure Sparing (env : Env) (settings : Settings) (disk : Disk) (topic : Str) (partition : Int)
    (more : ℕ) : Prop where
  young : 0 < settings.retentionMaxAge → ∀ name ∈ ownFiles disk topic partition,
    ∀ file ∈ disk.get name, env.retention topic partition - settings.retentionMaxAge < file.modTime
  small : 0 < settings.retentionMaxBytes →
    ((ownFiles disk topic partition).map (fileSize disk)).sum + more ≤ settings.retentionMaxBytes

instance decidableSparing (env : Env) (settings : Settings) (disk : Disk) (topic : Str)
    (partition : Int) (more : ℕ) : Decidable (Sparing env settings disk topic partition more) :=
  decidable_of_iff
    ((0 < settings.retentionMaxAge → ∀ name ∈ ownFiles disk topic partition,
      ∀ file ∈ disk.get name,
        env.retention topic partition - settings.retentionMaxAge < file.modTime) ∧
      (0 < settings.retentionMaxBytes →
        ((ownFiles disk topic partition).map (fileSize disk)).sum + more ≤
          settings.retentionMaxBytes))
    ⟨fun h => ⟨h.1, h.2⟩, fun h => ⟨h.young, h.small⟩⟩

section Names

variable {disk : Disk} {topic : Str} {partition : Int}
  (hnames : ∀ name, (disk.get name).isSome → KnownName name)
  (hkey : PartitionKey topic partition)

include hnames hkey

theorem known_segment {k : Int} (hfile : (disk.get (segmentName topic partition k)).isSome) :
    ∃ j, Natural j ∧ segmentName topic partition k = segmentName topic partition j := by
  rcases hnames _ hfile with hindex | ⟨t, p, j, hkey', hj, hname⟩
  · exact absurd hindex (segmentName_not_isIndex topic partition k)
  · obtain ⟨rfl, rfl⟩ := segmentName_partition_injective hkey.topic_parsable
      hkey'.topic_parsable hkey.partition_natural.1 hkey'.partition_natural.1 hname
    exact ⟨j, hj, hname⟩

theorem mem_ownFiles (name : Str) : name ∈ ownFiles disk topic partition ↔
    ∃ k, Natural k ∧ name = segmentName topic partition k ∧ (disk.get name).isSome := by
  rw [ownFiles, List.mem_filter, FMap.mem_keys_iff, ← Option.isSome_iff_exists]
  constructor
  · rintro ⟨hfile, hparsed⟩
    rcases hnames name hfile with ⟨base, rfl⟩ | ⟨t, p, k, hkey', hk, rfl⟩
    · rw [parse_idx] at hparsed
      contradiction
    · rw [parse_segmentName t p k hkey'.topic_parsable hkey'.partition_natural.1
        hkey'.partition_natural.2 hk.1 hk.2] at hparsed
      obtain ⟨rfl, rfl⟩ : t = topic ∧ p = partition := by simpa using hparsed
      exact ⟨k, hk, rfl, hfile⟩
  · rintro ⟨k, hk, rfl, hfile⟩
    refine ⟨hfile, ?_⟩
    rw [parse_segmentName topic partition k hkey.topic_parsable hkey.partition_natural.1
      hkey.partition_natural.2 hk.1 hk.2]
    simp

/-- The files of a partition are its segments. -/
theorem ownFiles_perm {files : Files} (h : OnDisk disk topic partition files) :
    (ownFiles disk topic partition).Perm
      ((files.map Prod.fst).map (segmentName topic partition)) := by
  have hids : (files.map Prod.fst).Nodup := h.ascending.imp (fun hlt => ne_of_lt hlt)
  have hnodup : ((files.map Prod.fst).map (segmentName topic partition)).Nodup := by
    refine hids.map_on (fun k hk j hj hname => ?_)
    by_contra hne
    exact segmentName_ne hkey (h.natural k hk) (h.natural j hj) hne hname
  refine (List.perm_ext_iff_of_nodup (disk.keys_nodup.filter _) hnodup).mpr (fun name => ?_)
  refine (mem_ownFiles hnames hkey name).trans ?_
  rw [List.mem_map]
  constructor
  · rintro ⟨k, hk, rfl, hfile⟩
    exact ⟨k, (h.exists_iff hk).mp hfile, rfl⟩
  · rintro ⟨k, hid, rfl⟩
    have hk := h.natural k hid
    exact ⟨k, hk, rfl, (h.exists_iff hk).mpr hid⟩

theorem ownFiles_bytes {files : Files} (h : OnDisk disk topic partition files) :
    ((ownFiles disk topic partition).map (fileSize disk)).sum = bytes files := by
  rw [((ownFiles_perm hnames hkey h).map _).sum_eq, List.map_map, List.map_map, bytes]
  exact congrArg List.sum (List.map_congr_left (fun f hf => fileSize_eq h hf))

theorem Sparing.young_segment {env : Env} {settings : Settings} {more : ℕ}
    (h : Sparing env settings disk topic partition more) (hlimit : 0 < settings.retentionMaxAge)
    (k : Int) (file : File) (hfile : disk.get (segmentName topic partition k) = some file) :
    env.retention topic partition - settings.retentionMaxAge < file.modTime := by
  have hsome : (disk.get (segmentName topic partition k)).isSome := by rw [hfile]; rfl
  obtain ⟨j, hj, hname⟩ := known_segment hnames hkey hsome
  exact h.young hlimit _ ((mem_ownFiles hnames hkey _).mpr ⟨j, hj, hname, hsome⟩) file hfile

end Names

section Steps

variable {s : Storage} {topic : Str} {partition next : Int} {files : Files}
  {messages : List Message}

/-- A restart that deletes nothing makes the memory agree with the files. -/
theorem shows_newStorage {env : Env} {disk : Disk} (settings : Settings) (hok : Succeeds env)
    (hnames : ∀ name, (disk.get name).isSome → KnownName name)
    (hkey : PartitionKey topic partition) (hslash : (47 : UInt8) ∉ topic)
    (h : OnDisk disk topic partition files) (hne : files ≠ [])
    (hsparing : Sparing env settings disk topic partition 0) :
    Shows (newStorage env settings disk) topic partition files ((records files).map toMessage)
        (advance Record.offset 0 (records files)) ∧
      WellNamed (newStorage env settings disk) ∧
      (newStorage env settings disk).settings = settings := by
  have hnamed := wellNamed_loadData settings hok hnames
  have hloaded := shows_loadData settings hok hnames hkey hslash h hne
  have hsettings := loaded_settings env settings disk
  unfold loaded at hsettings
  refine ⟨enforceRetention_spares hnamed hkey hloaded ⟨?_, ?_⟩,
    wellNamed_enforceRetention env hnamed, (enforceRetention_settings env _).trans hsettings⟩
  · rw [hsettings]
    intro hlimit k file hfile
    rw [loadData_eq hok, foldl_loadEntry_disk env _ _ _
      (segmentName_not_isIndex topic partition k)] at hfile
    exact hsparing.young_segment hnames hkey hlimit k file hfile
  · rw [hsettings]
    intro hlimit
    have hsmall := hsparing.small hlimit
    rw [ownFiles_bytes hnames hkey h] at hsmall
    omega

/-- An append of a value that a line keeps, in an environment without failures, after
which retention finds nothing to delete. -/
structure Allowed (topic : Str) (partition : Int) (s : Storage) (a : Append) : Prop where
  succeeds : Succeeds a.env
  safe : LineSafe a.value
  fits : Fits a.env (nextOffsetOf s topic partition) a.value
  sparing : Sparing a.env s.settings s.disk topic partition (newLine topic partition s a).length
  fresh : 0 < s.settings.retentionMaxAge →
    a.env.retention topic partition - s.settings.retentionMaxAge < a.env.written

/-- An append writes its line to the files. -/
theorem shows_append {a : Append} (hnamed : WellNamed s) (hkey : PartitionKey topic partition)
    (h : Shows s topic partition files messages next)
    (hroom : ∀ k ∈ files.map Prod.fst, k + 1 < 2 ^ 63) (ha : Allowed topic partition s a) :
    Shows (append topic partition s a) topic partition
        (write s.settings.segmentMaxBytes (newLine topic partition s a).length
          (newLine topic partition s a) files)
        (messages ++ [toMessage (newRecord topic partition s a)]) (next + 1) ∧
      WellNamed (append topic partition s a) ∧
      (append topic partition s a).settings = s.settings := by
  obtain ⟨s', hcall, hshows, hdated, hlocal⟩ := append_shows ha.succeeds hkey h hroom
  have hnamed' := hnamed.keep hkey hlocal
  rw [hcall]
  refine ⟨enforceRetention_spares hnamed' hkey hshows ⟨?_, ?_⟩,
    wellNamed_enforceRetention a.env hnamed',
    (enforceRetention_settings a.env s').trans hlocal.settings⟩
  · rw [hlocal.settings]
    intro hlimit k file hfile
    rcases hdated k file hfile with hold | hnew
    · exact ha.sparing.young_segment hnamed.names hkey hlimit k file hold
    · rw [hnew]
      exact ha.fresh hlimit
  · rw [hlocal.settings, bytes_write, ← ownFiles_bytes hnamed.names hkey h.onDisk]
    exact ha.sparing.small

def newRecords (topic : Str) (partition : Int) (s : Storage) (later : List Append) : List Record :=
  outputs (append topic partition) (fun s a => some (newRecord topic partition s a)) s later

theorem newRecords_cons (topic : Str) (partition : Int) (s : Storage) (a : Append)
    (rest : List Append) : newRecords topic partition s (a :: rest) =
      newRecord topic partition s a ::
        newRecords topic partition (append topic partition s a) rest := rfl

theorem write_ids {n : ℕ} (hids : ∀ k ∈ files.map Prod.fst, k ≤ n) (limit : Int) (size : ℕ)
    (text : Str) : ∀ k ∈ (write limit size text files).map Prod.fst, k ≤ (n + 1 : ℕ) := by
  intro k hk
  rcases List.eq_nil_or_concat files with rfl | ⟨front, ⟨j, t⟩, rfl⟩
  · simp only [write_nil, List.map_cons, List.map_nil, List.mem_singleton] at hk
    omega
  · rw [List.concat_eq_append] at hids hk
    have hj := hids j (by simp)
    have hfront : k ∈ (front ++ [(j, t)]).map Prod.fst → k ≤ n := hids k
    rw [write_concat] at hk
    split at hk
    · rw [List.map_append, List.mem_append] at hk
      rcases hk with hold | hnew
      · have := hfront hold
        omega
      · simp only [List.map_cons, List.map_nil, List.mem_singleton] at hnew
        omega
    · have := hfront (by simpa using hk)
      omega

/-- Appends one after the other write one line each. -/
theorem shows_run {n : ℕ} {later : List Append} (hnamed : WellNamed s)
    (hkey : PartitionKey topic partition) (h : Shows s topic partition files messages next)
    (hnext : 0 ≤ next ∧ next ≤ n) (hids : ∀ k ∈ files.map Prod.fst, k ≤ n)
    (hvalid : Valid (append topic partition) (Allowed topic partition) s later)
    (hbound : n + later.length < 2 ^ 63) :
    Shows (run (append topic partition) s later) topic partition
        (writeAll s.settings.segmentMaxBytes (newRecords topic partition s later) files)
        (messages ++ (newRecords topic partition s later).map toMessage) (next + later.length) ∧
      WellNamed (run (append topic partition) s later) ∧
      Starting next (newRecords topic partition s later) := by
  induction later generalizing s files messages next n with
  | nil =>
    refine ⟨?_, hnamed, starting_nil next⟩
    simpa [newRecords, outputs, writeAll] using h
  | cons a rest ih =>
    obtain ⟨ha, hrest⟩ := hvalid
    rw [List.length_cons] at hbound
    have hroom : ∀ k ∈ files.map Prod.fst, k + 1 < 2 ^ 63 := fun k hk => by
      have := hids k hk
      omega
    have hoffset : (newRecord topic partition s a).offset = next := shows_next h
    have hlog : Loggable (newRecord topic partition s a) :=
      { offset_range := by rw [hoffset]; unfold InInt64; omega
        timestamp_range := unixMilli_inInt64 a.env.stamp
        no_newline := ha.safe.no_newline
        no_return := ha.safe.no_return
        fits := ha.fits }
    obtain ⟨hshows, hnamed', hsettings⟩ := shows_append hnamed hkey h hroom ha
    obtain ⟨hrun, hwell, hnew⟩ := ih hnamed' hshows ⟨by omega, by omega⟩
      (write_ids hids _ _ _) hrest (by omega)
    rw [newRecords_cons]
    refine ⟨?_, hwell, hnew.cons hlog hoffset⟩
    · rw [hsettings, List.append_assoc, List.singleton_append, ← List.map_cons] at hrun
      rw [List.length_cons, show next + ((rest.length + 1 : ℕ) : Int) =
        next + 1 + (rest.length : Int) by push_cast; omega]
      exact hrun

end Steps

end Flux.SparedRuns
