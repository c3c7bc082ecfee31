import Flux.StorageCalls

/-!
The segment files of a partition as they are, whatever their texts. An append adds
its text to the last file or to a new one, a restart replays the files in order, and
retention that finds nothing to delete changes neither the files nor the memory.
-/
namespace Flux.SegmentFiles

open GoRuntime GoStrings LogLines SegmentNames FiniteMap PartitionStorage
open StorageFrames StorageReplay StorageRefinement

abbrev Files := List (Int × Str)

variable {k : Int} {t : Str} {front : Files} {disk : Disk}

def records (files : Files) : List Record := files.flatMap (fun f => replay f.2)

def bytes (files : Files) : Int := (files.map (fun f => (f.2.length : Int))).sum

def write (limit : Int) (size : ℕ) (text : Str) (files : Files) : Files :=
  match files.getLast? with
  | none => [(0, text)]
  | some (k, t) =>
      if limit < t.length + size then files ++ [(k + 1, text)]
      else files.dropLast ++ [(k, t ++ text)]

theorem write_nil (limit : Int) (size : ℕ) (text : Str) : write limit size text [] = [(0, text)] :=
  rfl

theorem write_concat (limit : Int) (size : ℕ) (text : Str) (front : Files) (k : Int) (t : Str) :
    write limit size text (front ++ [(k, t)]) =
      if limit < t.length + size then front ++ [(k, t)] ++ [(k + 1, text)]
      else front ++ [(k, t ++ text)] := by
  simp only [write, List.getLast?_concat, List.dropLast_concat]

theorem bytes_write (limit : Int) (size : ℕ) (text : Str) (files : Files) :
    bytes (write limit size text files) = bytes files + text.length := by
  rcases List.eq_nil_or_concat files with rfl | ⟨front, ⟨k, t⟩, rfl⟩
  · simp [write_nil, bytes]
  · rw [List.concat_eq_append, write_concat]
    split
    · simp [bytes]
      omega
    · simp [bytes]
      omega

structure OnDisk (disk : Disk) (topic : Str) (partition : Int) (files : Files) : Prop where
  natural : ∀ k ∈ files.map Prod.fst, Natural k
  ascending : (files.map Prod.fst).Pairwise (· < ·)
  texts : ∀ k, Natural k → (disk.get (segmentName topic partition k)).map File.content =
    files.lookup k

/-- The write state lists the files, possibly after a segment 0 that has none. -/
structure Listed (st : PartitionState) (files : Files) : Prop where
  segments : st.segments = files.map Prod.fst ∨ st.segments = 0 :: files.map Prod.fst
  ascending : st.segments.Pairwise (· < ·)
  active : st.segments.getLast? = some st.activeSegmentID

structure Shows (s : Storage) (topic : Str) (partition : Int) (files : Files)
    (messages : List Message) (next : Int) : Prop where
  onDisk : OnDisk s.disk topic partition files
  state : ∃ st, get2 s.partitionState topic partition = some st ∧ Listed st files ∧
    st.nextOffset = next
  messages : messagesOf s topic partition = messages

section Files

variable {disk disk' : Disk} {topic : Str} {partition : Int} {files : Files}

theorem lookup_isSome (files : Files) (k : Int) :
    (files.lookup k).isSome ↔ k ∈ files.map Prod.fst := by
  induction files with
  | nil => simp
  | cons f rest ih =>
    rw [List.map_cons, List.mem_cons, ← ih, List.lookup_cons]
    by_cases hk : k = f.1
    · simp [hk]
    · simp [hk, beq_false_of_ne hk]

theorem lookup_eq_none (h : k ∉ files.map Prod.fst) : files.lookup k = none :=
  Option.not_isSome_iff_eq_none.mp (fun hsome => h ((lookup_isSome files k).mp hsome))

theorem lookup_of_mem (hascending : (files.map Prod.fst).Pairwise (· < ·)) {f : Int × Str}
    (hf : f ∈ files) : files.lookup f.1 = some f.2 := by
  induction files with
  | nil => exact absurd hf List.not_mem_nil
  | cons g rest ih =>
    rw [List.map_cons, List.pairwise_cons] at hascending
    rw [List.lookup_cons]
    rcases List.mem_cons.mp hf with rfl | hrest
    · simp
    · have hlt := hascending.1 f.1 (List.mem_map_of_mem hrest)
      have hne : (f.1 == g.1) = false := beq_false_of_ne (by omega)
      rw [hne]
      exact ih hascending.2 hrest

theorem lookup_concat_self (h : k ∉ files.map Prod.fst) :
    (files ++ [(k, t)]).lookup k = some t := by
  rw [List.lookup_append, lookup_eq_none h]
  simp

theorem lookup_concat_ne {j : Int} (h : j ≠ k) : (files ++ [(k, t)]).lookup j = files.lookup j := by
  have hbeq : (j == k) = false := beq_false_of_ne h
  rw [List.lookup_append]
  simp [List.lookup_cons, hbeq]

theorem OnDisk.congr (h : OnDisk disk topic partition files)
    (hsame : ∀ k, disk'.get (segmentName topic partition k) =
      disk.get (segmentName topic partition k)) : OnDisk disk' topic partition files where
  natural := h.natural
  ascending := h.ascending
  texts k hk := by rw [hsame, h.texts k hk]

theorem OnDisk.exists_iff (h : OnDisk disk topic partition files) (hk : Natural k) :
    (disk.get (segmentName topic partition k)).isSome ↔ k ∈ files.map Prod.fst := by
  rw [← lookup_isSome, ← Option.isSome_map, h.texts k hk]

/-- The last file is changed or a file after it appears. -/
theorem OnDisk.put {files' : Files} (hkey : PartitionKey topic partition)
    (h : OnDisk disk topic partition files) (hk : Natural k)
    (hdisk : ∀ name, name ≠ segmentName topic partition k → disk'.get name = disk.get name)
    (hnew : (disk'.get (segmentName topic partition k)).map File.content = files'.lookup k)
    (hother : ∀ j, j ≠ k → files'.lookup j = files.lookup j)
    (hids : ∀ j ∈ files'.map Prod.fst, j ∈ files.map Prod.fst ∨ j = k)
    (hascending : (files'.map Prod.fst).Pairwise (· < ·)) :
    OnDisk disk' topic partition files' where
  natural j hj := by
    rcases hids j hj with hold | rfl
    · exact h.natural j hold
    · exact hk
  ascending := hascending
  texts j hj := by
    by_cases hjk : j = k
    · rw [hjk, hnew]
    · rw [hdisk _ (segmentName_ne hkey hj hk hjk), h.texts j hj, hother j hjk]

theorem concat_ids (h : ((front ++ [(k, t)]).map Prod.fst).Pairwise (· < ·)) :
    ∀ j ∈ front.map Prod.fst, j < k := by
  rw [List.map_append, List.pairwise_append] at h
  exact fun j hj => h.2.2 j hj k (by simp)

theorem replayedAll_ids (h : OnDisk disk topic partition files) :
    replayedAll disk topic partition (files.map Prod.fst) = records files := by
  have hreplayed : ∀ f ∈ files, replayed disk (segmentName topic partition f.1) = replay f.2 := by
    intro f hf
    have htext := h.texts f.1 (h.natural f.1 (List.mem_map_of_mem hf))
    rw [lookup_of_mem h.ascending hf] at htext
    obtain ⟨file, hfile, hcontent⟩ := Option.map_eq_some_iff.mp htext
    rw [replayed, hfile, ← hcontent]
  rw [replayedAll, records, List.flatMap_map]
  exact List.flatMap_congr hreplayed

end Files

section Listing

variable {st : PartitionState} {files : Files}

theorem Listed.congr {st' : PartitionState} (h : Listed st files)
    (hsegments : st'.segments = st.segments) (hactive : st'.activeSegmentID = st.activeSegmentID) :
    Listed st' files where
  segments := hsegments ▸ h.segments
  ascending := hsegments ▸ h.ascending
  active := by rw [hsegments, hactive, h.active]

/-- The active segment is the last file, or 0 when there is no file. -/
theorem Listed.last (h : Listed st files) :
    (files = [] ∧ st.segments = [0] ∧ st.activeSegmentID = 0) ∨
      ∃ front t, files = front ++ [(st.activeSegmentID, t)] := by
  have hactive := h.active
  rcases List.eq_nil_or_concat files with rfl | ⟨front, ⟨k, t⟩, hfiles⟩
  · rcases h.segments with hseg | hseg
    · rw [hseg] at hactive
      simp at hactive
    · rw [hseg] at hactive
      simp only [List.map_nil, List.getLast?_singleton, Option.some.injEq] at hactive
      exact .inl ⟨rfl, hseg, hactive.symm⟩
  · rw [List.concat_eq_append] at hfiles
    refine .inr ⟨front, t, ?_⟩
    have hlast : st.segments.getLast? = some k := by
      rcases h.segments with hseg | hseg
      · rw [hseg, hfiles]
        simp
      · rw [hseg, hfiles, ← List.singleton_append, List.getLast?_append]
        simp
    rw [hlast, Option.some.injEq] at hactive
    rw [hfiles, hactive]

theorem Listed.rotate (h : Listed st files) (text : Str) :
    Listed (rotate st) (files ++ [(st.activeSegmentID + 1, text)]) where
  segments := by
    rcases h.segments with hseg | hseg
    · simp [PartitionStorage.rotate, hseg]
    · simp [PartitionStorage.rotate, hseg]
  ascending := by
    simp only [PartitionStorage.rotate, List.pairwise_append]
    refine ⟨h.ascending, by simp, fun k hk j hj => ?_⟩
    obtain ⟨front, hfront⟩ := List.getLast?_eq_some_iff.mp h.active
    have hascending := h.ascending
    rw [hfront] at hk hascending
    rw [List.mem_singleton.mp hj]
    rcases List.mem_append.mp hk with hmem | hlast
    · have := (List.pairwise_append.mp hascending).2.2 k hmem _ (List.mem_singleton.mpr rfl)
      omega
    · rw [List.mem_singleton.mp hlast]
      omega
  active := by simp [PartitionStorage.rotate]

end Listing

def stored (w : Option ℕ) (line : Str) : Str :=
  match w with
  | none => line
  | some k => line.take k

theorem appendBytes_content (now : Time) (disk : Disk) (name text : Str) :
    ((appendBytes now disk name text).get name).map File.content =
      some (((disk.get name).map File.content).getD [] ++ text) := by
  unfold appendBytes
  cases hfile : disk.get name with
  | none => simp
  | some file =>
    by_cases htext : text = []
    · simp [htext, hfile]
    · simp [htext]

theorem appendBytes_modTime {now : Time} {name text name' : Str} {file : File}
    (h : (appendBytes now disk name text).get name' = some file) :
    disk.get name' = some file ∨ file.modTime = now := by
  by_cases hname : name' = name
  · subst hname
    unfold appendBytes at h
    split at h
    · split at h
      · exact .inl h
      · rw [FMap.get_set_self] at h
        exact .inr (by rw [← Option.some.inj h])
    · rw [FMap.get_set_self] at h
      exact .inr (by rw [← Option.some.inj h])
  · rw [appendBytes_get_ne _ _ _ hname] at h
    exact .inl h

section Writes

variable {env : Env} {s : Storage} {topic : Str} {partition next : Int} {files : Files}
  {messages : List Message} {w : Option ℕ}

theorem appendLine_stored (hopen : ∀ name, env.openOk name = true)
    (hwrites : ∀ name, env.writeFails name = w) (disk : Disk) (name line : Str) :
    appendLine env disk name line =
      (appendBytes env.written disk name (stored w line), w.map (fun _ => .write)) := by
  rw [appendLine, if_pos (hopen name), hwrites]
  cases w with
  | none => rfl
  | some k => rfl

/-- The last file gets more text. -/
theorem OnDisk.extend (hkey : PartitionKey topic partition)
    (h : OnDisk disk topic partition (front ++ [(k, t)])) (now : Time) (text : Str) :
    OnDisk (appendBytes now disk (segmentName topic partition k) text) topic partition
      (front ++ [(k, t ++ text)]) := by
  have hk : Natural k := h.natural k (by simp)
  have hfront : k ∉ front.map Prod.fst := fun hmem => by
    have := concat_ids h.ascending k hmem
    omega
  have htext := h.texts k hk
  rw [lookup_concat_self hfront] at htext
  refine h.put hkey hk (fun name hname => appendBytes_get_ne _ _ _ hname) ?_ ?_ ?_ ?_
  · rw [appendBytes_content, htext, lookup_concat_self hfront, Option.getD_some]
  · intro j hj
    rw [lookup_concat_ne hj, lookup_concat_ne hj]
  · intro j hj
    exact .inl (by simpa using hj)
  · simpa using h.ascending

/-- A new file appears after the others. -/
theorem OnDisk.add (hkey : PartitionKey topic partition) (h : OnDisk disk topic partition files)
    (hk : Natural k) (habove : ∀ j ∈ files.map Prod.fst, j < k) (now : Time) (text : Str) :
    OnDisk (appendBytes now disk (segmentName topic partition k) text) topic partition
      (files ++ [(k, text)]) := by
  have hnew : k ∉ files.map Prod.fst := fun hmem => by
    have := habove k hmem
    omega
  have htext := h.texts k hk
  rw [lookup_eq_none hnew] at htext
  refine h.put hkey hk (fun name hname => appendBytes_get_ne _ _ _ hname) ?_ ?_ ?_ ?_
  · rw [appendBytes_content, htext, lookup_concat_self hnew, Option.getD_none, List.nil_append]
  · exact fun j hj => lookup_concat_ne hj
  · intro j hj
    simpa [List.mem_append] using hj
  · rw [List.map_append, List.pairwise_append]
    refine ⟨h.ascending, by simp, fun j hj i hi => ?_⟩
    obtain rfl : i = k := by simpa using hi
    exact habove j hj

/-- Whether the active segment has room. -/
theorem shouldRotate_last {st : PartitionState}
    (h : OnDisk s.disk topic partition (front ++ [(st.activeSegmentID, t)])) (size : ℕ) :
    shouldRotate s topic partition st.activeSegmentID size =
      decide (s.settings.segmentMaxBytes < t.length + size) := by
  have hfront : st.activeSegmentID ∉ front.map Prod.fst := fun hmem => by
    have := concat_ids h.ascending _ hmem
    omega
  have htext := h.texts _ (h.natural st.activeSegmentID (by simp))
  rw [lookup_concat_self hfront] at htext
  obtain ⟨file, hfile, hcontent⟩ := Option.map_eq_some_iff.mp htext
  rw [shouldRotate, hfile, ← hcontent]

/-- The state and the disk after the segment write of an append, complete or torn. -/
theorem written_files (hkey : PartitionKey topic partition) {st : PartitionState}
    (hdisk : OnDisk s.disk topic partition files) (hlisted : Listed st files)
    (hroom : ∀ k ∈ files.map Prod.fst, k + 1 < 2 ^ 63) (size : ℕ) (now : Time) (text : Str) :
    let st' := if shouldRotate s topic partition st.activeSegmentID size then rotate st else st
    OnDisk (appendBytes now s.disk (segmentName topic partition st'.activeSegmentID) text) topic
        partition (write s.settings.segmentMaxBytes size text files) ∧
      Listed st' (write s.settings.segmentMaxBytes size text files) ∧
      Natural st'.activeSegmentID ∧ st'.nextOffset = st.nextOffset := by
  intro st'
  rcases hlisted.last with ⟨rfl, hsegments, hactive⟩ | ⟨front, t, rfl⟩
  · have hzero : Natural 0 := ⟨by omega, by decide⟩
    have hrotate : shouldRotate s topic partition st.activeSegmentID size = false := by
      have htext := hdisk.texts 0 hzero
      rw [List.lookup_nil, Option.map_eq_none_iff] at htext
      rw [shouldRotate, hactive, htext]
    have hst' : st' = st := if_neg (by simp [hrotate])
    rw [hst', hactive]
    exact ⟨hdisk.add hkey hzero (by simp) now text,
      ⟨.inl (by simp [hsegments, write_nil]), hlisted.ascending, hlisted.active⟩, hzero, rfl⟩
  · have hk : Natural st.activeSegmentID := hdisk.natural _ (by simp)
    have hrotate := shouldRotate_last hdisk size
    rw [write_concat]
    by_cases hfull : s.settings.segmentMaxBytes < t.length + size
    · have hst' : st' = rotate st := if_pos (by rw [hrotate]; exact decide_eq_true hfull)
      have hk' : Natural (st.activeSegmentID + 1) := by
        have hlow := hk.1
        have hhigh := hroom st.activeSegmentID (by simp)
        exact ⟨by omega, by unfold InInt64; omega⟩
      rw [if_pos hfull, hst']
      refine ⟨hdisk.add hkey hk' (fun j hj => ?_) now text, hlisted.rotate text, hk', rfl⟩
      rw [List.map_append] at hj
      rcases List.mem_append.mp hj with hmem | hlast
      · have := concat_ids hdisk.ascending j hmem
        omega
      · obtain rfl : j = st.activeSegmentID := by simpa using hlast
        omega
    · have hst' : st' = st := if_neg (by rw [hrotate]; simpa using hfull)
      rw [if_neg hfull, hst']
      refine ⟨hdisk.extend hkey now text, ⟨?_, hlisted.ascending, hlisted.active⟩, hk, rfl⟩
      simpa using hlisted.segments

theorem shows_writeSegment (hopen : ∀ name, env.openOk name = true)
    (hwrites : ∀ name, env.writeFails name = w) (hkey : PartitionKey topic partition)
    (h : Shows s topic partition files messages next)
    (hroom : ∀ k ∈ files.map Prod.fst, k + 1 < 2 ^ 63) (line : Str) :
    Shows (writeSegment env s topic partition line).1 topic partition
        (write s.settings.segmentMaxBytes line.length (stored w line) files) messages next ∧
      (writeSegment env s topic partition line).2 = w.map (fun _ => .write) ∧
      (∀ st, get2 (writeSegment env s topic partition line).1.partitionState topic partition =
        some st → Natural st.activeSegmentID) ∧
      ∀ name file, (writeSegment env s topic partition line).1.disk.get name = some file →
        s.disk.get name = some file ∨ file.modTime = env.written := by
  obtain ⟨st, hst, hlisted, hnext⟩ := h.state
  obtain ⟨hdisk, hlisted', hactive, hsame⟩ := written_files hkey h.onDisk hlisted hroom
    line.length env.written (stored w line)
  simp only [writeSegment, stateOf_eq env topic partition hst, appendLine_stored hopen hwrites]
  refine ⟨⟨hdisk, ⟨_, get2_setState .., hlisted', hsame.trans hnext⟩, h.messages⟩, trivial, ?_,
    fun name file hfile => appendBytes_modTime hfile⟩
  intro st' hst'
  rw [get2_setState, Option.some.injEq] at hst'
  rw [← hst']
  exact hactive

end Writes

end Flux.SegmentFiles
