import Flux.SegmentFiles

/-!
Appends, restarts and retention over segment files with any texts. An append that
succeeds adds its line to the files and its record to the memory, one that is torn
adds a part of its line, and a restart makes the memory agree with the files.
-/
namespace Flux.SegmentRuns

open GoRuntime GoStrings LogLines SegmentNames FiniteMap PartitionStorage SegmentedLogs
open StorageFrames StorageReplay StorageRefinement StorageAppends StorageRecovery StorageCalls
open SegmentFiles

structure Append where
  replicated : Bool
  env : Env
  value : Str

section Calls

variable (topic : Str) (partition : Int)

def Append.call (s : Storage) (a : Append) : Call :=
  if a.replicated then .replicate a.env topic partition (nextOffsetOf s topic partition) a.value
  else .produce a.env topic partition a.value

def append (s : Storage) (a : Append) : Storage := step s (a.call topic partition s)

def newRecord (s : Storage) (a : Append) : Record :=
  ⟨nextOffsetOf s topic partition, unixMilli a.env.stamp, a.value⟩

def newLine (s : Storage) (a : Append) : Str := formatLine (newRecord topic partition s a)

end Calls

def tearing (env : Env) (k : ℕ) : Env := { env with writeFails := fun _ => some k }

def Append.tear (a : Append) (k : ℕ) : Append := { a with env := tearing a.env k }

section Appends

variable {s : Storage} {topic : Str} {partition next : Int} {files : Files}
  {messages : List Message}

theorem stateOf_nextOffset (env : Env) (s : Storage) (topic : Str) (partition : Int) :
    (stateOf env s topic partition).nextOffset = nextOffsetOf s topic partition := by
  unfold stateOf nextOffsetOf
  cases get2 s.partitionState topic partition with
  | none => rfl
  | some st => rfl

theorem nextOffsetOf_ensure (env : Env) (s : Storage) (topic : Str) (partition : Int) :
    (stateOf env (ensurePartitionState env s topic partition) topic partition).nextOffset =
      nextOffsetOf s topic partition := by
  rw [ensurePartitionState, stateOf_setState, stateOf_nextOffset]

theorem shows_next (h : Shows s topic partition files messages next) :
    nextOffsetOf s topic partition = next := by
  obtain ⟨st, hst, -, hnext⟩ := h.state
  rw [nextOffsetOf, hst]
  exact hnext

theorem shows_ensure (env : Env) (h : Shows s topic partition files messages next) :
    Shows (ensurePartitionState env s topic partition) topic partition files messages next := by
  obtain ⟨st, hst, hlisted, hnext⟩ := h.state
  refine ⟨h.onDisk, ⟨st, ?_, hlisted, hnext⟩, h.messages⟩
  rw [ensurePartitionState, get2_setState, stateOf_eq env topic partition hst]

/-- Steps between the write and the publication keep the files. -/
theorem shows_settle (h : Shows s topic partition files messages next) (disk : Disk)
    (st : PartitionState)
    (hdisk : ∀ k, disk.get (segmentName topic partition k) =
      s.disk.get (segmentName topic partition k))
    (hst : ∀ st₀, get2 s.partitionState topic partition = some st₀ →
      st.segments = st₀.segments ∧ st.activeSegmentID = st₀.activeSegmentID) :
    Shows { setState s topic partition st with disk := disk } topic partition files messages
      st.nextOffset := by
  obtain ⟨st₀, hst₀, hlisted, -⟩ := h.state
  obtain ⟨hsegments, hactive⟩ := hst st₀ hst₀
  exact ⟨h.onDisk.congr hdisk, ⟨st, get2_setState .., hlisted.congr hsegments hactive, rfl⟩,
    h.messages⟩

theorem shows_published (env : Env) (h : Shows s topic partition files messages next)
    (r : Record) :
    Shows (recordPublished env s topic partition r) topic partition files
      (messages ++ [toMessage r]) (r.offset + 1) := by
  obtain ⟨st, hst, hlisted, -⟩ := h.state
  have hframe := recordPublished_local env s topic partition r
  refine ⟨h.onDisk.congr (fun k => hframe.disk _ (segmentName_not_isIndex topic partition k)),
    ⟨_, get2_setState .., ?_, rfl⟩, ?_⟩
  · exact hlisted.congr (by rw [stateOf_eq env topic partition hst])
      (by rw [stateOf_eq env topic partition hst])
  · simp only [recordPublished, messagesOf_setState, messagesOf_pushMessage, messagesOf_setDisk,
      h.messages]
    rfl

/-- The write of an append, before anything else happens. -/
theorem ensured_writeSegment {env : Env} {w : Option ℕ} (hopen : ∀ name, env.openOk name = true)
    (hwrites : ∀ name, env.writeFails name = w) (hkey : PartitionKey topic partition)
    (h : Shows (ensurePartitionState env s topic partition) topic partition files messages next)
    (hroom : ∀ k ∈ files.map Prod.fst, k + 1 < 2 ^ 63) (line : Str) :
    ∃ s₂, writeSegment env (ensurePartitionState env s topic partition) topic partition line =
        (s₂, w.map (fun _ => .write)) ∧
      Shows s₂ topic partition
        (write s.settings.segmentMaxBytes line.length (stored w line) files) messages next ∧
      (∀ st, get2 s₂.partitionState topic partition = some st → Natural st.activeSegmentID) ∧
      (∀ name file, s₂.disk.get name = some file →
        s.disk.get name = some file ∨ file.modTime = env.written) ∧
      Local topic partition (Writes topic partition) s s₂ := by
  obtain ⟨hshows, hresult, hactive, hdated⟩ := shows_writeSegment hopen hwrites hkey h hroom line
  refine ⟨_, Prod.ext rfl hresult, hshows, hactive, hdated, ?_⟩
  exact (setState_local s _).trans (writeSegment_local env hkey _ _ hactive)

/-- An append whose segment write fails has ended. -/
theorem append_failed {a : Append} (hmkdir : a.env.mkdirOk = true) {s₂ : Storage} {e : FileError}
    (hwrite : writeSegment a.env (ensurePartitionState a.env s topic partition) topic partition
      (newLine topic partition s a) = (s₂, some e)) : append topic partition s a = s₂ := by
  rw [newLine, newRecord] at hwrite
  unfold append Append.call
  cases a.replicated with
  | false =>
    simp only [Bool.false_eq_true, ↓reduceIte, step, produceToPartition, nextOffsetOf_ensure,
      hmkdir, hwrite]
  | true =>
    simp only [↓reduceIte, step, appendReplicated, nextOffsetOf_ensure, lt_self_iff_false,
      hmkdir, hwrite]

/-- An append whose segment write succeeds publishes its record; a producer's is copied to
the replica files before. -/
theorem append_succeeded {a : Append} (hok : Succeeds a.env) {s₂ : Storage}
    (hwrite : writeSegment a.env (ensurePartitionState a.env s topic partition) topic partition
      (newLine topic partition s a) = (s₂, none)) :
    ∃ disk st, st = (applyFsyncPolicy a.env s₂.settings (stateOf a.env s₂ topic partition)
        (newLine topic partition s a).length).1 ∧
      (disk = s₂.disk ∨ disk = writeLocalReplicas a.env s₂.disk topic partition
        st.activeSegmentID (newLine topic partition s a)) ∧
      append topic partition s a =
        publish a.env { setState s₂ topic partition st with disk := disk }
        topic partition (newRecord topic partition s a) := by
  rw [newLine, newRecord] at hwrite
  unfold append Append.call newLine newRecord
  cases a.replicated with
  | false =>
    simp only [Bool.false_eq_true, ↓reduceIte, step, produceToPartition, nextOffsetOf_ensure,
      hok.mkdir, hwrite]
    exact ⟨_, _, rfl, .inr rfl, rfl⟩
  | true =>
    simp only [↓reduceIte, step, appendReplicated, nextOffsetOf_ensure, lt_self_iff_false,
      hok.mkdir, hwrite, applyFsyncPolicy_ok hok.sync]
    exact ⟨_, _, rfl, .inl rfl, rfl⟩

/-- A torn append leaves a part of its line behind and nothing else. -/
theorem append_torn {a : Append} (hok : Succeeds a.env) (k : ℕ)
    (hkey : PartitionKey topic partition)
    (h : Shows (ensurePartitionState (tearing a.env k) s topic partition) topic partition files
      messages next) (hroom : ∀ k ∈ files.map Prod.fst, k + 1 < 2 ^ 63) :
    Shows (append topic partition s (a.tear k)) topic partition
        (write s.settings.segmentMaxBytes (newLine topic partition s a).length
          ((newLine topic partition s a).take k) files) messages next ∧
      Local topic partition (Writes topic partition) s (append topic partition s (a.tear k)) := by
  have hopen : ∀ name, (tearing a.env k).openOk name = true := hok.opens
  have hwrites : ∀ name, (tearing a.env k).writeFails name = some k := fun _ => rfl
  obtain ⟨s₂, hwrite, hshows, -, -, hlocal⟩ := ensured_writeSegment hopen hwrites hkey h hroom
    (newLine topic partition s a)
  have hmkdir : (a.tear k).env.mkdirOk = true := hok.mkdir
  rw [append_failed hmkdir hwrite]
  exact ⟨hshows, hlocal⟩

/-- An append that succeeds adds its line to the files and its record to the memory. -/
theorem append_shows {a : Append} (hok : Succeeds a.env) (hkey : PartitionKey topic partition)
    (h : Shows s topic partition files messages next)
    (hroom : ∀ k ∈ files.map Prod.fst, k + 1 < 2 ^ 63) :
    ∃ s', append topic partition s a = enforceRetentionLocked a.env s' ∧
      Shows s' topic partition
        (write s.settings.segmentMaxBytes (newLine topic partition s a).length
          (newLine topic partition s a) files)
        (messages ++ [toMessage (newRecord topic partition s a)]) (next + 1) ∧
      (∀ k file, s'.disk.get (segmentName topic partition k) = some file →
        s.disk.get (segmentName topic partition k) = some file ∨ file.modTime = a.env.written) ∧
      Local topic partition (Writes topic partition) s s' := by
  obtain ⟨s₂, hwrite, hshows, hactive, hdated, hlocal⟩ :=
    ensured_writeSegment hok.opens hok.writes hkey
    (shows_ensure a.env h) hroom (newLine topic partition s a)
  obtain ⟨disk, st, hst, hdisk, hcall⟩ := append_succeeded hok hwrite
  obtain ⟨st₀, hst₀, -, -⟩ := hshows.state
  have hkeeps : st.segments = st₀.segments ∧ st.activeSegmentID = st₀.activeSegmentID := by
    rw [hst, stateOf_eq a.env topic partition hst₀]
    exact applyFsyncPolicy_keeps a.env s₂.settings st₀ _
  have hnatural : Natural st.activeSegmentID := hkeeps.2 ▸ hactive st₀ hst₀
  have hsame : ∀ k, disk.get (segmentName topic partition k) =
      s₂.disk.get (segmentName topic partition k) := by
    intro k
    rcases hdisk with rfl | rfl
    · rfl
    · exact writeLocalReplicas_get a.env hkey _ _ k _
  have hsettled := shows_settle hshows disk st hsame (fun st₁ hst₁ => ?_)
  · refine ⟨_, hcall.trans (publish_eq ..), ?_, fun k file hfile => ?_, ?_⟩
    · have hpublished := shows_published a.env hsettled (newRecord topic partition s a)
      rwa [show (newRecord topic partition s a).offset = next from shows_next h] at hpublished
    · rw [(recordPublished_local a.env _ topic partition _).disk _
        (segmentName_not_isIndex topic partition k)] at hfile
      exact hdated _ file ((hsame k).symm.trans hfile)
    · refine (hlocal.trans ?_).trans
        ((recordPublished_local a.env _ topic partition _).mono (fun _ hi => .inl (.inl hi)))
      rcases hdisk with rfl | rfl
      · exact setState_local _ _
      · exact (setState_local _ _).trans (writeLocalReplicas_local a.env hkey _ hnatural _)
  · rw [hst₀, Option.some.injEq] at hst₁
    exact hst₁ ▸ hkeeps

end Appends

section Retention

variable {env : Env} {s : Storage} {topic : Str} {partition next : Int} {files : Files}
  {messages : List Message}

structure Spared (env : Env) (s : Storage) (topic : Str) (partition : Int) (files : Files) :
    Prop where
  young : 0 < s.settings.retentionMaxAge → ∀ k file,
    s.disk.get (segmentName topic partition k) = some file →
      env.retention topic partition - s.settings.retentionMaxAge < file.modTime
  small : 0 < s.settings.retentionMaxBytes → bytes files ≤ s.settings.retentionMaxBytes

theorem fileSize_eq {disk : Disk} (h : OnDisk disk topic partition files) {f : Int × Str}
    (hf : f ∈ files) : fileSize disk (segmentName topic partition f.1) = f.2.length := by
  have htext := h.texts f.1 (h.natural f.1 (List.mem_map_of_mem hf))
  rw [lookup_of_mem h.ascending hf] at htext
  obtain ⟨file, hfile, hcontent⟩ := Option.map_eq_some_iff.mp htext
  rw [fileSize, hfile, ← hcontent]

/-- A listed segment without a file is the first one. -/
theorem listed_sizes {st : PartitionState} (h : OnDisk s.disk topic partition files)
    (hlisted : Listed st files) :
    (st.segments.map (fun k => fileSize s.disk (segmentName topic partition k))).sum =
      bytes files := by
  have hids : ((files.map Prod.fst).map
      (fun k => fileSize s.disk (segmentName topic partition k))).sum = bytes files := by
    rw [List.map_map, bytes]
    exact congrArg List.sum (List.map_congr_left (fun f hf => fileSize_eq h hf))
  rcases hlisted.segments with hseg | hseg
  · rw [hseg, hids]
  · have hzero : 0 ∉ files.map Prod.fst := fun hmem => by
      have hascending := hlisted.ascending
      rw [hseg] at hascending
      have := (List.pairwise_cons.mp hascending).1 0 hmem
      omega
    have hnone : s.disk.get (segmentName topic partition 0) = none := by
      have htext := h.texts 0 ⟨by omega, by decide⟩
      rwa [lookup_eq_none hzero, Option.map_eq_none_iff] at htext
    rw [hseg, List.map_cons, List.sum_cons, hids, fileSize, hnone]
    exact Int.zero_add _

/-- Young files are not removed for their age. -/
theorem ageLoop_spares (cutoff : Time) (segments : List Int)
    (hyoung : ∀ k file, s.disk.get (segmentName topic partition k) = some file →
      cutoff < file.modTime)
    (h : Shows s topic partition files messages next) {st : PartitionState}
    (hst : get2 s.partitionState topic partition = some st) (hseg : st.segments = segments) :
    Shows (ageLoop env topic partition cutoff segments s) topic partition files messages next ∧
      (ageLoop env topic partition cutoff segments s).disk = s.disk ∧
      (ageLoop env topic partition cutoff segments s).settings = s.settings := by
  fun_induction ageLoop env topic partition cutoff segments s generalizing st with
  | case1 segID second rest s st₀ hnone ih =>
    have heq : st₀ = st := stateOf_eq env topic partition hst
    rw [heq] at ih ⊢
    refine ih hyoung ?_ (get2_setState ..) (by simp [hseg])
    obtain ⟨st₁, hst₁, hlisted, hnext⟩ := h.state
    obtain rfl : st₁ = st := Option.some.inj (hst₁.symm.trans hst)
    have hphantom : segID ∉ files.map Prod.fst := fun hmem => by
      have hfile := (h.onDisk.exists_iff (h.onDisk.natural segID hmem)).mpr hmem
      rw [hnone] at hfile
      contradiction
    refine ⟨h.onDisk, ⟨_, get2_setState .., ⟨.inl ?_, hlisted.ascending.tail, ?_⟩, hnext⟩,
      h.messages⟩
    · rcases hlisted.segments with hids | hids
      · exact absurd (by rw [← hids, hseg]; exact List.mem_cons_self ..) hphantom
      · rw [hids, List.tail_cons]
    · have hactive := hlisted.active
      simpa [hseg] using hactive
  | case2 => exact ⟨h, rfl, rfl⟩
  | case3 segID second rest s st₀ file hfile hold =>
    exact absurd (hyoung segID file hfile) hold
  | case4 => exact ⟨h, rfl, rfl⟩

/-- A retention pass leaves spared files alone. -/
theorem retainPartition_spares (h : Shows s topic partition files messages next)
    (hspared : Spared env s topic partition files) :
    Shows (retainPartition env s (topic, partition)) topic partition files messages next ∧
      Spared env (retainPartition env s (topic, partition)) topic partition files := by
  have hage : Shows (applyAgeRetention env s topic partition) topic partition files messages next ∧
      (applyAgeRetention env s topic partition).disk = s.disk ∧
      (applyAgeRetention env s topic partition).settings = s.settings := by
    unfold applyAgeRetention
    split
    · exact ⟨h, rfl, rfl⟩
    · rename_i hlimit
      obtain ⟨st, hst, -, -⟩ := h.state
      rw [stateOf_eq env topic partition hst]
      exact ageLoop_spares _ st.segments (hspared.young (Int.not_le.mp hlimit)) h hst rfl
  obtain ⟨hshows, hdisk, hsettings⟩ := hage
  have hsize : applySizeRetention env (applyAgeRetention env s topic partition) topic partition =
      applyAgeRetention env s topic partition := by
    obtain ⟨st, hst, hlisted, -⟩ := hshows.state
    unfold applySizeRetention
    split
    · rfl
    · rename_i hlimit
      dsimp only
      rw [stateOf_eq env topic partition hst, listed_sizes hshows.onDisk hlisted]
      have hsmall : ¬ (applyAgeRetention env s topic partition).settings.retentionMaxBytes <
          bytes files := by
        rw [hsettings] at hlimit ⊢
        exact Int.not_lt.mpr (hspared.small (Int.not_le.mp hlimit))
      unfold sizeLoop
      split
      · rw [if_neg hsmall]
      · rfl
  rw [retainPartition, hsize]
  exact ⟨hshows, by rw [hdisk, hsettings]; exact hspared.young,
    by rw [hsettings]; exact hspared.small⟩

theorem Spared.frame {s' : Storage} {t : Str} {p : Int} {names : Str → Prop}
    (h : Spared env s topic partition files) (hlocal : Local t p names s s')
    (hnames : ∀ k, ¬ names (segmentName topic partition k)) :
    Spared env s' topic partition files where
  young hlimit k file hfile := by
    rw [hlocal.settings] at hlimit ⊢
    exact h.young hlimit k file (by rw [← hlocal.disk _ (hnames k), hfile])
  small := by rw [hlocal.settings]; exact h.small

theorem shows_frame {s' : Storage} {t : Str} {p : Int} {names : Str → Prop}
    (h : Shows s topic partition files messages next) (hlocal : Local t p names s s')
    (hne : (topic, partition) ≠ (t, p)) (hnames : ∀ k, ¬ names (segmentName topic partition k)) :
    Shows s' topic partition files messages next where
  onDisk := h.onDisk.congr (fun k => hlocal.disk _ (hnames k))
  state := by rw [hlocal.state topic partition hne]; exact h.state
  messages := by
    rw [← h.messages]
    simp only [messagesOf, hlocal.data topic partition hne]

/-- Retention that spares a partition leaves it as it is. -/
theorem enforceRetention_spares (hnamed : WellNamed s) (hkey : PartitionKey topic partition)
    (h : Shows s topic partition files messages next)
    (hspared : Spared env s topic partition files) :
    Shows (enforceRetentionLocked env s) topic partition files messages next := by
  have hpass := List.foldlRecOn (motive := fun s' => Shows s' topic partition files messages next ∧
      Spared env s' topic partition files) (env.visit (stateKeys s)) (retainPartition env)
    ⟨h, hspared⟩ (fun s' h' key hmem => ?_)
  · exact hpass.1
  · by_cases hown : (topic, partition) = key
    · subst hown
      exact retainPartition_spares h'.1 h'.2
    · have hlocal := retainPartition_local env s' key
      have hnames := not_owned hkey (visited_keys env hnamed key hmem) hown
      exact ⟨shows_frame h'.1 hlocal hown hnames, h'.2.frame hlocal hnames⟩

end Retention

section Restarts

variable {env : Env} {disk : Disk} {topic : Str} {partition : Int} {files : Files}

/-- A restart makes the memory agree with the files. -/
theorem shows_loadData (settings : Settings) (hok : Succeeds env)
    (hnames : ∀ name, (disk.get name).isSome → KnownName name)
    (hkey : PartitionKey topic partition) (hslash : (47 : UInt8) ∉ topic)
    (h : OnDisk disk topic partition files) (hne : files ≠ []) :
    Shows (loadData env ⟨settings, FMap.empty, FMap.empty, disk⟩) topic partition files
      ((records files).map toMessage) (advance Record.offset 0 (records files)) := by
  have hload := foldl_loadEntry env topic partition _ (sortedEntries_shape env hnames)
    ⟨settings, FMap.empty, FMap.empty, disk⟩
  have hids : files.map Prod.fst ≠ [] := by simpa using hne
  obtain ⟨hseg, hasc, hactive, hnext⟩ := recovered_fresh env disk topic partition
    (files.map Prod.fst) hids h.ascending (fun k hk => (h.natural k hk).1)
  rw [idsOf_eq env hnames hkey hslash h.ascending h.natural (fun k hk => h.exists_iff hk)] at hload
  simp only [messagesOf, get2_empty, Option.getD_none, List.nil_append, stateOf,
    replayedAll_ids h, hids, ↓reduceIte] at hload
  rw [loadData_eq hok]
  refine ⟨?_, ⟨_, hload.2, ⟨hseg, hasc, hactive⟩, ?_⟩, hload.1⟩
  · exact h.congr (fun k => foldl_loadEntry_disk env _ _ _
      (segmentName_not_isIndex topic partition k))
  · rw [hnext, replayedAll_ids h]

end Restarts

end Flux.SegmentRuns
