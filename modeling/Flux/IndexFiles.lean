import Flux.StorageRecovery

/-!
The side index files of a partition. Entries are only ever added to them, to both at
once: by the append of a record, and by every replay of a segment, at a restart and
when a deletion rebuilds the partition. No operation on another partition touches them.
-/
namespace Flux.IndexFiles

open GoStrings LogLines SegmentNames FiniteMap PartitionStorage
open StorageFrames StorageReplay StorageAppends StorageRecovery Cuts

variable {name : Str} {s : Storage}

/-- A record and the segment it was written to. -/
abbrev Entry := Int × Record

def offsetLine (e : Entry) : Str := itoa e.2.offset ++ 58 :: (itoaPad6 e.1 ++ [10])

def timestampLine (e : Entry) : Str :=
  itoa e.2.timestamp ++ 58 :: (itoaPad6 e.1 ++ 58 :: (itoa e.2.offset ++ [10]))

def textOf (disk : Disk) (name : Str) : Str := ((disk.get name).map File.content).getD []

theorem textOf_congr {disk disk' : Disk} (h : disk'.get name = disk.get name) :
    textOf disk' name = textOf disk name := by
  rw [textOf, h, textOf]

theorem textOf_appendLine {env : Env} (hok : Succeeds env) (disk : Disk) (name line : Str)
    (hline : line ≠ []) :
    textOf (appendLine env disk name line).1 name = textOf disk name ++ line := by
  rw [textOf, appendLine_content hok disk name line hline, Option.getD_some, textOf]

section Names

variable {t t' : Str} {p p' : Int}

theorem key_of_name (hp : 0 ≤ p) (hp' : 0 ≤ p') (h : t ++ 45 :: itoa p = t' ++ 45 :: itoa p') :
    (t, p) = (t', p') := by
  have hcut := cutLast_append 45 t (itoa p) (dash_not_mem_itoa p hp)
  rw [h, cutLast_append 45 t' (itoa p') (dash_not_mem_itoa p' hp'), Option.some.injEq,
    Prod.mk.injEq] at hcut
  rw [hcut.1, itoa_injective p' p hcut.2]

theorem offsetIndexName_eq (t : Str) (p : Int) :
    offsetIndexName t p = (t ++ 45 :: itoa p) ++ lit "-offset.idx" := by
  simp [offsetIndexName]

theorem timestampIndexName_eq (t : Str) (p : Int) :
    timestampIndexName t p = (t ++ 45 :: itoa p) ++ lit "-time.idx" := by
  simp [timestampIndexName]

theorem offsetIndexName_ne (hp : 0 ≤ p) (hp' : 0 ≤ p') (h : (t, p) ≠ (t', p')) :
    offsetIndexName t p ≠ offsetIndexName t' p' := by
  rw [offsetIndexName_eq, offsetIndexName_eq]
  intro heq
  exact h (key_of_name hp hp' (List.append_cancel_right heq))

theorem timestampIndexName_ne (hp : 0 ≤ p) (hp' : 0 ≤ p') (h : (t, p) ≠ (t', p')) :
    timestampIndexName t p ≠ timestampIndexName t' p' := by
  rw [timestampIndexName_eq, timestampIndexName_eq]
  intro heq
  exact h (key_of_name hp hp' (List.append_cancel_right heq))

theorem offsetIndexName_ne_timestamp (t t' : Str) (p p' : Int) :
    offsetIndexName t p ≠ timestampIndexName t' p' := by
  have hoffset : lit "-offset.idx" = lit "-of" ++ lit "fset.idx" := by decide
  have htime : lit "-time.idx" = lit "-" ++ lit "time.idx" := by decide
  rw [offsetIndexName_eq, timestampIndexName_eq, hoffset, htime, ← List.append_assoc,
    ← List.append_assoc]
  intro heq
  exact absurd (List.append_inj' heq (by decide)).2 (by decide)

end Names

structure Indexed (t : Str) (p : Int) (entries : List Entry) (disk disk' : Disk) : Prop where
  offsets : textOf disk' (offsetIndexName t p) =
    textOf disk (offsetIndexName t p) ++ entries.flatMap offsetLine
  timestamps : textOf disk' (timestampIndexName t p) =
    textOf disk (timestampIndexName t p) ++ entries.flatMap timestampLine

def ReadAs (t : Str) (p k : Int) (name : Str) : Prop :=
  name = segmentName t p k ∨ parseSegmentFileName name = some (t, p, k)

def Filed (disk : Disk) (t : Str) (p : Int) (e : Entry) : Prop :=
  ∃ name, ReadAs t p e.1 name ∧ e.2 ∈ replayed disk name

def Known (H : Entry → Prop) (t : Str) (p : Int) (disk : Disk) : Prop :=
  ∀ e, Filed disk t p e → H e

def Grows (H : Entry → Prop) (t : Str) (p : Int) (disk disk' : Disk) : Prop :=
  ∃ entries, Indexed t p entries disk disk' ∧ ∀ e ∈ entries, H e

/-- What an operation that only replays and removes files does to the indexes. -/
def Keeps (H : Entry → Prop) (t : Str) (p : Int) (disk disk' : Disk) : Prop :=
  Known H t p disk → Grows H t p disk disk' ∧ Known H t p disk'

section Growth

variable {t t' : Str} {p p' : Int} {disk disk' disk'' : Disk} {env : Env}

theorem Indexed.of_get (h : ∀ name, IsIndex name → disk'.get name = disk.get name) :
    Indexed t p [] disk disk' where
  offsets := by
    rw [List.flatMap_nil, List.append_nil]
    exact textOf_congr (h _ (offsetIndexName_isIndex t p))
  timestamps := by
    rw [List.flatMap_nil, List.append_nil]
    exact textOf_congr (h _ (timestampIndexName_isIndex t p))

theorem Indexed.refl (disk : Disk) : Indexed t p [] disk disk := .of_get (fun _ _ => rfl)

theorem Indexed.trans {es es' : List Entry} (h : Indexed t p es disk disk')
    (h' : Indexed t p es' disk' disk'') : Indexed t p (es ++ es') disk disk'' where
  offsets := by rw [h'.offsets, h.offsets, List.flatMap_append, List.append_assoc]
  timestamps := by rw [h'.timestamps, h.timestamps, List.flatMap_append, List.append_assoc]

theorem indexed_appendIndexes (hok : Succeeds env) (disk : Disk) (t : Str) (p k : Int)
    (r : Record) : Indexed t p [(k, r)] disk (appendIndexes env disk t p k r) where
  offsets := by
    have hne := offsetIndexName_ne_timestamp t t p p
    rw [appendIndexes, appendTimestampIndex, textOf_congr (appendLine_get_ne _ _ _ hne),
      appendOffsetIndex, textOf_appendLine hok _ _ _ (by simp), List.flatMap_singleton]
    rfl
  timestamps := by
    have hne := (offsetIndexName_ne_timestamp t t p p).symm
    rw [appendIndexes, appendTimestampIndex, textOf_appendLine hok _ _ _ (by simp),
      appendOffsetIndex, textOf_congr (appendLine_get_ne _ _ _ hne), List.flatMap_singleton]
    rfl

/-- Entries of one partition are not entries of another. -/
theorem indexed_appendIndexes_ne (disk : Disk) (hp : 0 ≤ p) (hp' : 0 ≤ p')
    (hne : (t, p) ≠ (t', p')) (k : Int) (r : Record) :
    Indexed t p [] disk (appendIndexes env disk t' p' k r) where
  offsets := by
    rw [List.flatMap_nil, List.append_nil, appendIndexes, appendTimestampIndex,
      textOf_congr (appendLine_get_ne _ _ _ (offsetIndexName_ne_timestamp t t' p p')),
      appendOffsetIndex, textOf_congr (appendLine_get_ne _ _ _ (offsetIndexName_ne hp hp' hne))]
  timestamps := by
    have hoffset := (offsetIndexName_ne_timestamp t' t p' p).symm
    rw [List.flatMap_nil, List.append_nil, appendIndexes, appendTimestampIndex,
      textOf_congr (appendLine_get_ne _ _ _ (timestampIndexName_ne hp hp' hne)),
      appendOffsetIndex, textOf_congr (appendLine_get_ne _ _ _ hoffset)]

theorem index_ne_segmentName (h : IsIndex name) (t : Str) (p k : Int) : name ≠ segmentName t p k :=
  fun heq => segmentName_not_isIndex t p k (heq ▸ h)

theorem ReadAs.not_isIndex {k : Int} (h : ReadAs t p k name) : ¬ IsIndex name := by
  rcases h with rfl | hparse
  · exact segmentName_not_isIndex t p k
  · rintro ⟨base, rfl⟩
    rw [parse_idx] at hparse
    contradiction

end Growth

section Keeping

variable {H : Entry → Prop} {t t' : Str} {p p' : Int} {disk disk' disk'' : Disk} {env : Env}

theorem Known.of_get (h : Known H t p disk) (hget : ∀ name, ¬ IsIndex name →
    disk'.get name = disk.get name ∨ disk'.get name = none) : Known H t p disk' := by
  rintro e ⟨name, hread, hr⟩
  rcases hget name hread.not_isIndex with hsame | hnone
  · rw [replayed, hsame, ← replayed] at hr
    exact h e ⟨name, hread, hr⟩
  · rw [replayed, hnone] at hr
    exact absurd hr List.not_mem_nil

theorem Keeps.refl (disk : Disk) : Keeps H t p disk disk :=
  fun h => ⟨⟨[], .refl disk, fun _ he => absurd he List.not_mem_nil⟩, h⟩

theorem Keeps.trans (h : Keeps H t p disk disk') (h' : Keeps H t p disk' disk'') :
    Keeps H t p disk disk'' := by
  intro hknown
  obtain ⟨⟨es, hes, hall⟩, hknown'⟩ := h hknown
  obtain ⟨⟨es', hes', hall'⟩, hknown''⟩ := h' hknown'
  refine ⟨⟨es ++ es', hes.trans hes', fun e he => ?_⟩, hknown''⟩
  rcases List.mem_append.mp he with hold | hnew
  · exact hall e hold
  · exact hall' e hnew

theorem keeps_remove (disk : Disk) (t' : Str) (p' k : Int) :
    Keeps H t p disk (disk.del (segmentName t' p' k)) := by
  refine fun hknown => ⟨⟨[], .of_get (fun _ hname =>
    FMap.get_del_ne _ (index_ne_segmentName hname t' p' k)),
      fun _ he => absurd he List.not_mem_nil⟩, hknown.of_get (fun name _ => ?_)⟩
  by_cases hname : name = segmentName t' p' k
  · exact .inr (by rw [hname, FMap.get_del_self])
  · exact .inl (FMap.get_del_ne _ hname)

section Replays

variable (hok : Succeeds env) (hp : 0 ≤ p) (hp' : 0 ≤ p')

include hok hp hp'

/-- Loading records adds to the indexes and takes nothing away. -/
theorem grows_loadRecords (k : Int) (records : List Record)
    (hown : (t, p) = (t', p') → ∀ r ∈ records, H (k, r)) (s : Storage) :
    Grows H t p s.disk (records.foldl (loadRecord env t' p' k) s).disk := by
  induction records generalizing s with
  | nil => exact ⟨[], .refl s.disk, fun _ he => absurd he List.not_mem_nil⟩
  | cons r rest ih =>
    obtain ⟨es, hes, hall⟩ := ih (fun heq r' hr' => hown heq r' (List.mem_cons_of_mem _ hr'))
      (loadRecord env t' p' k s r)
    have hdisk : (loadRecord env t' p' k s r).disk = appendIndexes env s.disk t' p' k r := rfl
    rw [hdisk] at hes
    by_cases heq : (t, p) = (t', p')
    · have hfirst := hown heq r (List.mem_cons_self ..)
      obtain ⟨rfl, rfl⟩ := Prod.mk.inj heq
      refine ⟨(k, r) :: es, (indexed_appendIndexes hok s.disk t p k r).trans hes, ?_⟩
      exact List.forall_mem_cons.mpr ⟨hfirst, hall⟩
    · exact ⟨es, (indexed_appendIndexes_ne s.disk hp hp' heq k r).trans hes, hall⟩

/-- A replayed file is listed again. -/
theorem keeps_loadSegment {k : Int} (hname : ReadAs t' p' k name) (s : Storage) :
    Keeps H t p s.disk (loadSegment env s t' p' k name).disk := by
  have hlocal := loadSegment_local env s t' p' k name
  refine fun hknown => ⟨?_, hknown.of_get (fun name' hname' => .inl (hlocal.disk name' hname'))⟩
  unfold loadSegment
  cases hfile : s.disk.get name with
  | none => exact (Keeps.refl s.disk hknown).1
  | some file =>
    refine grows_loadRecords hok hp hp' k _ (fun heq r hr => ?_) s
    obtain ⟨rfl, rfl⟩ := Prod.mk.inj heq
    refine hknown (k, r) ⟨name, hname, ?_⟩
    rw [replayed, hfile]
    exact hr

theorem keeps_rebuild (s : Storage) (st : PartitionState) :
    Keeps H t p s.disk (rebuildPartitionFromSegments env s t' p' st).disk := by
  have hload : ∀ s₀ : Storage, s₀.disk = s.disk → Keeps H t p s.disk (st.segments.foldl
      (fun s k => loadSegment env s t' p' k (segmentName t' p' k)) s₀).disk := by
    intro s₀ hdisk
    refine List.foldlRecOn (motive := fun s' : Storage => Keeps H t p s.disk s'.disk) _ _
      (hdisk ▸ Keeps.refl _) (fun s' hs' k _ => ?_)
    exact hs'.trans (keeps_loadSegment hok hp hp' (.inl rfl) s')
  unfold rebuildPartitionFromSegments
  split
  · exact hload _ rfl
  · exact hload _ rfl

theorem keeps_deleteSegment (s : Storage) (st : PartitionState) (k : Int) :
    Keeps H t p s.disk (deleteSegment env s t' p' st k).disk :=
  (keeps_remove s.disk t' p' k).trans (keeps_rebuild hok hp hp'
    { s with disk := s.disk.del (segmentName t' p' k) } { st with segments := st.segments.tail })

theorem trims_keeps (disk : Disk) :
    Trims env t' p' (fun s => Keeps H t p disk s.disk) where
  drop hs _ _ _ := hs
  delete hs _ _ := hs.trans (keeps_deleteSegment hok hp hp' _ _ _)

end Replays

end Keeping

def Numbered (s : Storage) : Prop :=
  ∀ t p, (get2 s.partitionState t p).isSome → 0 ≤ p

theorem Numbered.keep {s' : Storage} {t : Str} {p : Int} {names : Str → Prop} (h : Numbered s)
    (hp : 0 ≤ p) (hlocal : Local t p names s s') : Numbered s' := by
  intro t' p' hsome
  by_cases hown : (t', p') = (t, p)
  · rw [(Prod.mk.inj hown).2]
    exact hp
  · rw [hlocal.state t' p' hown] at hsome
    exact h t' p' hsome

theorem numbered_setState {t : Str} {p : Int} (hp : 0 ≤ p) (st : PartitionState) (h : Numbered s) :
    Numbered (setState s t p st) := by
  have hlocal : Local t p IsIndex s (setState s t p st) := setState_local s st
  exact h.keep hp hlocal

section Passes

variable {H : Entry → Prop} {t t' : Str} {p p' : Int} {env : Env}

theorem keeps_enforceRetention (hok : Succeeds env) (hp : 0 ≤ p) (hnum : Numbered s) :
    Keeps H t p s.disk (enforceRetentionLocked env s).disk ∧
      Numbered (enforceRetentionLocked env s) := by
  have hkeys : ∀ key ∈ env.visit (stateKeys s), 0 ≤ key.2 := by
    intro key hkey
    rw [(env.visit_perm _).mem_iff, mem_stateKeys_iff] at hkey
    exact hnum key.1 key.2 hkey
  refine List.foldlRecOn (motive := fun s' : Storage =>
    Keeps H t p s.disk s'.disk ∧ Numbered s') _ _ ⟨Keeps.refl _, hnum⟩ (fun s' h key hmem => ?_)
  exact ⟨(trims_keeps hok hp (hkeys key hmem) s.disk).retainPartition h.1,
    h.2.keep (hkeys key hmem) (retainPartition_local env s' key)⟩

theorem nonneg_of_atoi {text : Str} {n : Int} (hdash : (45 : UInt8) ∉ text)
    (h : atoi text = some n) : 0 ≤ n := by
  have hread := (Option.filter_eq_some_iff.mp h).1
  unfold readSigned at hread
  split at hread
  · exact absurd (List.mem_cons_self ..) hdash
  · obtain ⟨k, -, rfl⟩ := Option.map_eq_some_iff.mp hread
    exact Int.natCast_nonneg k
  · obtain ⟨k, -, rfl⟩ := Option.map_eq_some_iff.mp hread
    exact Int.natCast_nonneg k

theorem not_mem_cutLast {word front back : Str} (h : cutLast 45 word = some (front, back)) :
    (45 : UInt8) ∉ back := by
  obtain ⟨c, hc, heq⟩ := Option.map_eq_some_iff.mp h
  obtain ⟨-, rfl⟩ := Prod.mk.inj heq
  rw [List.mem_reverse]
  exact ((cut_letter_eq_some_iff 45 _ c).mp hc).1

/-- What is read as a partition number from a file name has no sign. -/
theorem parse_nonneg {e : Str × Int × Int} (h : parseSegmentFileName name = some e) :
    0 ≤ e.2.1 := by
  unfold parseSegmentFileName at h
  split at h
  · split at h
    · split at h
      · rename_i hcut
        split at h
        · contradiction
        · obtain ⟨n, hn, rfl⟩ := Option.map_eq_some_iff.mp h
          exact nonneg_of_atoi (not_mem_cutLast hcut) hn
      · contradiction
    · contradiction
  · contradiction

theorem keeps_loadData (hok : Succeeds env) (hp : 0 ≤ p) (hnum : Numbered s) :
    Keeps H t p s.disk (loadData env s).disk ∧ Numbered (loadData env s) := by
  rw [loadData_eq hok]
  refine List.foldlRecOn (motive := fun s' : Storage =>
    Keeps H t p s.disk s'.disk ∧ Numbered s') _ _ ⟨Keeps.refl _, hnum⟩ (fun s' h e he => ?_)
  obtain ⟨-, -, hparse⟩ := (mem_segmentEntries env s.disk e).mp
    ((mem_sortedEntries env s.disk e).mp he)
  have hpartition : 0 ≤ e.partition := parse_nonneg hparse
  have hload : Keeps H t p s'.disk (loadEntry env s' e).disk :=
    keeps_loadSegment hok hp hpartition (.inr hparse) (setState s' e.topic e.partition _)
  exact ⟨h.1.trans hload, h.2.keep hpartition (loadEntry_local env s' e)⟩

/-- A restart lists again what it reads, and so does the retention pass after it. -/
theorem keeps_newStorage (hok : Succeeds env) (hp : 0 ≤ p) (settings : Settings) (disk : Disk) :
    Keeps H t p disk (newStorage env settings disk).disk ∧
      Numbered (newStorage env settings disk) := by
  have hempty : Numbered ⟨settings, FMap.empty, FMap.empty, disk⟩ := by
    intro t p hsome
    simp at hsome
  obtain ⟨hload, hnum⟩ := keeps_loadData (H := H) (t := t) hok hp hempty
  obtain ⟨hretain, hnum'⟩ := keeps_enforceRetention (H := H) (t := t) hok hp hnum
  exact ⟨hload.trans hretain, hnum'⟩

end Passes

end Flux.IndexFiles
