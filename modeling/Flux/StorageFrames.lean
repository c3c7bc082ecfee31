import Flux.PartitionStorage
import Flux.SegmentedLogs

/-!
What the operations of the storage leave alone. An operation on one partition
keeps the log and the write state of every other partition, and it changes only
index files and files that carry the partition's name.
-/
namespace Flux.StorageFrames

open GoRuntime GoStrings LogLines SegmentNames FiniteMap PartitionStorage

/-- Partition numbers and segment ids as recovery can read them back. -/
def Natural (n : Int) : Prop := 0 ≤ n ∧ InInt64 n

structure PartitionKey (topic : Str) (partition : Int) : Prop where
  topic_parsable : Parsable topic
  partition_natural : Natural partition

def IsIndex (name : Str) : Prop := ∃ base, name = base ++ lit ".idx"

def KnownName (name : Str) : Prop :=
  IsIndex name ∨ ∃ topic partition segmentID, PartitionKey topic partition ∧ Natural segmentID ∧
    name = segmentName topic partition segmentID

def Owned (topic : Str) (partition : Int) (name : Str) : Prop :=
  IsIndex name ∨ ∃ segmentID, name = segmentName topic partition segmentID

structure Local (topic : Str) (partition : Int) (names : Str → Prop) (s s' : Storage) : Prop where
  settings : s'.settings = s.settings
  data : ∀ t p, (t, p) ≠ (topic, partition) → get2 s'.data t p = get2 s.data t p
  state : ∀ t p, (t, p) ≠ (topic, partition) →
    get2 s'.partitionState t p = get2 s.partitionState t p
  disk : ∀ name, ¬ names name → s'.disk.get name = s.disk.get name
  appear : ∀ name, (s'.disk.get name).isSome → (s.disk.get name).isSome ∨ KnownName name

section Frames

variable {topic : Str} {partition : Int} {names : Str → Prop}

theorem Local.refl (s : Storage) : Local topic partition names s s where
  settings := rfl
  data _ _ _ := rfl
  state _ _ _ := rfl
  disk _ _ := rfl
  appear _ h := Or.inl h

theorem Local.trans {s s' s'' : Storage} (h : Local topic partition names s s')
    (h' : Local topic partition names s' s'') : Local topic partition names s s'' where
  settings := h'.settings.trans h.settings
  data t p hne := (h'.data t p hne).trans (h.data t p hne)
  state t p hne := (h'.state t p hne).trans (h.state t p hne)
  disk name hname := (h'.disk name hname).trans (h.disk name hname)
  appear name hname := by
    rcases h'.appear name hname with hmid | hknown
    · exact h.appear name hmid
    · exact Or.inr hknown

theorem Local.mono {names' : Str → Prop} {s s' : Storage} (h : Local topic partition names s s')
    (hsub : ∀ name, names name → names' name) : Local topic partition names' s s' where
  settings := h.settings
  data := h.data
  state := h.state
  disk name hname := h.disk name (fun hn => hname (hsub name hn))
  appear := h.appear

theorem setState_local (s : Storage) (st : PartitionState) :
    Local topic partition names s (setState s topic partition st) where
  settings := rfl
  data _ _ _ := rfl
  state _ _ hne := get2_set2_ne s.partitionState st hne
  disk _ _ := rfl
  appear _ h := Or.inl h

theorem setData_local (s : Storage) (messages : List Message) :
    Local topic partition names s
      { s with data := set2 s.data topic partition messages } where
  settings := rfl
  data _ _ hne := get2_set2_ne s.data messages hne
  state _ _ _ := rfl
  disk _ _ := rfl
  appear _ h := Or.inl h

/-- A change of the disk alone. -/
theorem setDisk_local (s : Storage) (disk : Disk)
    (hsame : ∀ name, ¬ names name → disk.get name = s.disk.get name)
    (happear : ∀ name, (disk.get name).isSome → (s.disk.get name).isSome ∨ KnownName name) :
    Local topic partition names s { s with disk := disk } where
  settings := rfl
  data _ _ _ := rfl
  state _ _ _ := rfl
  disk := hsame
  appear := happear

end Frames

structure Closed (env : Env) (topic : Str) (partition : Int) (R : Storage → Storage → Prop) :
    Prop where
  refl : ∀ s, R s s
  trans : ∀ {s s' s''}, R s s' → R s' s'' → R s s''
  state : ∀ s st, R s (setState s topic partition st)
  data : ∀ s messages, R s { s with data := set2 s.data topic partition messages }
  indexes : ∀ s segmentID r,
    R s { s with disk := appendIndexes env s.disk topic partition segmentID r }

section Closures

variable {env : Env} {topic : Str} {partition : Int} {R : Storage → Storage → Prop}

theorem Closed.foldl {ι : Type} {f : Storage → ι → Storage} (h : Closed env topic partition R)
    (hf : ∀ s x, R s (f s x)) (l : List ι) (s : Storage) : R s (l.foldl f s) := by
  induction l generalizing s with
  | nil => exact h.refl s
  | cons x rest ih => exact h.trans (hf s x) (ih (f s x))

theorem Closed.loadSegment (h : Closed env topic partition R) (s : Storage) (segmentID : Int)
    (name : Str) : R s (loadSegment env s topic partition segmentID name) := by
  unfold PartitionStorage.loadSegment
  split
  · refine h.foldl (fun s r => ?_) _ s
    exact h.trans (h.trans (h.data s _) (h.state _ _)) (h.indexes _ segmentID r)
  · exact h.refl s

theorem Closed.rebuild (h : Closed env topic partition R) (s : Storage) (st : PartitionState) :
    R s (rebuildPartitionFromSegments env s topic partition st) := by
  unfold rebuildPartitionFromSegments
  have hload := h.foldl (fun s segID => h.loadSegment s segID (segmentName topic partition segID))
    st.segments
  split
  · exact h.trans (h.trans (h.data s _) (h.state _ _)) (hload _)
  · exact h.trans (h.state s _) (hload _)

variable (h : Closed env topic partition R)
  (hremove : ∀ s segID, R s { s with disk := s.disk.del (segmentName topic partition segID) })

include h hremove

theorem Closed.deleteSegment (s : Storage) (st : PartitionState) (segID : Int) :
    R s (deleteSegment env s topic partition st segID) :=
  h.trans (hremove s segID) (h.rebuild _ _)

end Closures

theorem appendBytes_get_ne (now : Time) (disk : Disk) (bytes : Str) {name name' : Str}
    (h : name' ≠ name) : (appendBytes now disk name bytes).get name' = disk.get name' := by
  unfold appendBytes
  split
  · split
    · rfl
    · exact FMap.get_set_ne _ _ h
  · exact FMap.get_set_ne _ _ h

theorem appendLine_get_ne (env : Env) (disk : Disk) (line : Str) {name name' : Str}
    (h : name' ≠ name) : (appendLine env disk name line).1.get name' = disk.get name' := by
  unfold appendLine
  split
  · split <;> exact appendBytes_get_ne _ _ _ h
  · rfl

theorem appendLine_appear (env : Env) (disk : Disk) (name line : Str) (name' : Str)
    (h : ((appendLine env disk name line).1.get name').isSome) :
    (disk.get name').isSome ∨ name' = name := by
  by_cases hname : name' = name
  · exact Or.inr hname
  · rw [appendLine_get_ne env disk line hname] at h
    exact Or.inl h

theorem offsetIndexName_isIndex (topic : Str) (partition : Int) :
    IsIndex (offsetIndexName topic partition) := offsetIndexName_idx topic partition

theorem timestampIndexName_isIndex (topic : Str) (partition : Int) :
    IsIndex (timestampIndexName topic partition) := timestampIndexName_idx topic partition

theorem segmentName_not_isIndex (topic : Str) (partition segmentID : Int) :
    ¬ IsIndex (segmentName topic partition segmentID) := by
  rintro ⟨base, h⟩
  exact segmentName_ne_idx topic partition segmentID base h

theorem appendIndexes_get (env : Env) (disk : Disk) (topic : Str) (partition segmentID : Int)
    (r : Record) (name : Str) (h : ¬ IsIndex name) :
    (appendIndexes env disk topic partition segmentID r).get name = disk.get name := by
  have hoffset : name ≠ offsetIndexName topic partition :=
    fun e => h (e ▸ offsetIndexName_isIndex topic partition)
  have htime : name ≠ timestampIndexName topic partition :=
    fun e => h (e ▸ timestampIndexName_isIndex topic partition)
  rw [appendIndexes, appendTimestampIndex, appendLine_get_ne _ _ _ htime, appendOffsetIndex,
    appendLine_get_ne _ _ _ hoffset]

theorem appendIndexes_appear (env : Env) (disk : Disk) (topic : Str) (partition segmentID : Int)
    (r : Record) (name : Str)
    (h : ((appendIndexes env disk topic partition segmentID r).get name).isSome) :
    (disk.get name).isSome ∨ KnownName name := by
  by_cases hname : IsIndex name
  · exact Or.inr (Or.inl hname)
  · rw [appendIndexes_get env disk topic partition segmentID r name hname] at h
    exact Or.inl h

theorem appendIndexes_local (env : Env) (s : Storage) (topic : Str) (partition segmentID : Int)
    (r : Record) :
    Local topic partition IsIndex s
      { s with disk := appendIndexes env s.disk topic partition segmentID r } :=
  setDisk_local s _ (fun name h => appendIndexes_get env s.disk topic partition segmentID r name h)
    (appendIndexes_appear env s.disk topic partition segmentID r)

theorem closed_local {names : Str → Prop} (env : Env) (topic : Str) (partition : Int)
    (hnames : ∀ name, IsIndex name → names name) :
    Closed env topic partition (Local topic partition names) where
  refl := Local.refl
  trans := Local.trans
  state := setState_local
  data := setData_local
  indexes s segmentID r := (appendIndexes_local env s topic partition segmentID r).mono hnames

theorem loadSegment_local (env : Env) (s : Storage) (topic : Str) (partition segmentID : Int)
    (name : Str) :
    Local topic partition IsIndex s (loadSegment env s topic partition segmentID name) :=
  (closed_local env topic partition (fun _ h => h)).loadSegment s segmentID name

theorem rebuildPartitionFromSegments_local (env : Env) (s : Storage) (topic : Str)
    (partition : Int) (st : PartitionState) :
    Local topic partition IsIndex s (rebuildPartitionFromSegments env s topic partition st) :=
  (closed_local env topic partition (fun _ h => h)).rebuild s st

theorem removeFile_local (s : Storage) (topic : Str) (partition segID : Int) :
    Local topic partition (Owned topic partition) s
      { s with disk := s.disk.del (segmentName topic partition segID) } := by
  apply setDisk_local
  · intro name hname
    exact FMap.get_del_ne _ (fun e => hname (Or.inr ⟨segID, e⟩))
  · intro name hname
    by_cases he : name = segmentName topic partition segID
    · simp [he] at hname
    · rw [FMap.get_del_ne _ he] at hname
      exact Or.inl hname

end Flux.StorageFrames
