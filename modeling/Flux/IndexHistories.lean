import Flux.IndexFiles
import Flux.SegmentRuns
import Flux.StorageRuns

/-!
The side indexes over whole runs. The two indexes of a partition list the same entries
in the same order, and the appends are among them in the order in which they were
made. They list nothing else, but a restart lists again what it reads.
-/
namespace Flux.IndexHistories

open GoRuntime GoStrings LogLines SegmentNames FiniteMap PartitionStorage Runs StorageFrames
open StorageReplay StorageRefinement StorageAppends StorageCalls StorageRuns SegmentRuns IndexFiles

variable {name : Str} {env : Env} {c : Call} {n : ℕ}

def writtenTo (env : Env) (s : Storage) (t : Str) (p : Int) (size : ℕ) : Int :=
  if shouldRotate s t p (stateOf env s t p).activeSegmentID size
  then (stateOf env s t p).activeSegmentID + 1 else (stateOf env s t p).activeSegmentID

section Appends

variable {t : Str} {p : Int} {s : Storage} {a : Append}

def entryOf (t : Str) (p : Int) (s : Storage) (a : Append) : Entry :=
  (writtenTo a.env s t p (newLine t p s a).length, newRecord t p s a)

/-- The state of the partition and its files when a line has been written. -/
theorem writeSegment_ensured (env : Env) (s : Storage) (t : Str) (p : Int) (line : Str) :
    (stateOf env (writeSegment env (ensurePartitionState env s t p) t p line).1 t p).activeSegmentID
        = writtenTo env s t p line.length ∧
      (writeSegment env (ensurePartitionState env s t p) t p line).1.disk =
        (appendLine env s.disk (segmentName t p (writtenTo env s t p line.length)) line).1 := by
  have hsame : stateOf env (ensurePartitionState env s t p) t p = stateOf env s t p := by
    rw [ensurePartitionState, stateOf_setState]
  have hactive : (if shouldRotate s t p (stateOf env s t p).activeSegmentID line.length
      then rotate (stateOf env s t p) else stateOf env s t p).activeSegmentID =
        writtenTo env s t p line.length := by
    rw [apply_ite PartitionState.activeSegmentID]
    rfl
  rw [← hactive]
  constructor
  · refine congrArg PartitionState.activeSegmentID (stateOf_eq env t p ?_)
    rw [writeSegment, hsame]
    exact get2_setState ..
  · rw [writeSegment, hsame]
    rfl

theorem writeLocalReplicas_ne (env : Env) (disk : Disk) (t : Str) (p k : Int) (line : Str)
    (h : ∀ i, Natural i → name ≠ replicaSegmentName t p i k) :
    (writeLocalReplicas env disk t p k line).get name = disk.get name := by
  have hne : ∀ i : ℕ, i < 2 → name ≠ replicaSegmentName t p (i + 1 : Int) k :=
    fun i hi => h _ ⟨by omega, by unfold InInt64; omega⟩
  exact (appendLine_get_ne env _ line (hne 1 (by omega))).trans
    (appendLine_get_ne env disk line (hne 0 (by omega)))

theorem index_ne_replica (h : IsIndex name) (t : Str) (p i k : Int) :
    name ≠ replicaSegmentName t p i k := by
  rw [replicaSegmentName_eq]
  exact index_ne_segmentName h _ _ _

def Wrote (t : Str) (p : Int) (s : Storage) (a : Append) (disk' : Disk) : Prop :=
  ∀ name, ¬ IsIndex name →
    (∀ i, Natural i → name ≠ replicaSegmentName t p i (entryOf t p s a).1) →
      disk'.get name =
        (appendLine a.env s.disk (segmentName t p (entryOf t p s a).1) (newLine t p s a)).1.get name

/-- An append adds one entry to the indexes of its partition, before retention. -/
theorem append_indexed (hok : Succeeds a.env) (hp : 0 ≤ p) (hnum : Numbered s) :
    ∃ s', append t p s a = enforceRetentionLocked a.env s' ∧ Numbered s' ∧
      Wrote t p s a s'.disk ∧ Indexed t p [entryOf t p s a] s.disk s'.disk ∧
      ∀ t' p', 0 ≤ p' → (t', p') ≠ (t, p) → Indexed t' p' [] s.disk s'.disk := by
  obtain ⟨s₂, hs₂⟩ : ∃ s₂, (writeSegment a.env (ensurePartitionState a.env s t p) t p
      (newLine t p s a)).1 = s₂ := ⟨_, rfl⟩
  have hwrite : writeSegment a.env (ensurePartitionState a.env s t p) t p (newLine t p s a) =
      (s₂, none) := by
    refine Prod.ext hs₂ ?_
    simp only [writeSegment, appendLine_succeeds hok]
  obtain ⟨hwritten, hsegment⟩ := writeSegment_ensured a.env s t p (newLine t p s a)
  rw [hs₂] at hwritten hsegment
  have hnum₂ : Numbered s₂ := by
    rw [← hs₂]
    exact numbered_setState hp _ (numbered_setState hp _ hnum)
  obtain ⟨disk, st, hst, hdisk, hcall⟩ := append_succeeded hok hwrite
  have hactive : st.activeSegmentID = (entryOf t p s a).1 := by
    rw [hst, (applyFsyncPolicy_keeps ..).2, hwritten]
    rfl
  have hfiles : ∀ name, (∀ i, Natural i → name ≠ replicaSegmentName t p i (entryOf t p s a).1) →
      disk.get name = (appendLine a.env s.disk (segmentName t p (entryOf t p s a).1)
        (newLine t p s a)).1.get name := by
    intro name hname
    rcases hdisk with rfl | rfl
    · rw [hsegment]
      rfl
    · rw [hactive, writeLocalReplicas_ne _ _ _ _ _ _ hname, hsegment]
      rfl
  have hindexes : ∀ name, IsIndex name → disk.get name = s.disk.get name := by
    intro name hname
    rw [hfiles name (fun i _ => index_ne_replica hname t p i _)]
    exact appendLine_get_ne _ _ _ (index_ne_segmentName hname t p _)
  have hstate : stateOf a.env { setState s₂ t p st with disk := disk } t p = st :=
    stateOf_eq a.env t p (get2_setState ..)
  have hpublished : (recordPublished a.env { setState s₂ t p st with disk := disk } t p
      (newRecord t p s a)).disk = appendIndexes a.env disk t p (entryOf t p s a).1
        (newRecord t p s a) := by
    have hshape : (recordPublished a.env { setState s₂ t p st with disk := disk } t p
        (newRecord t p s a)).disk = appendIndexes a.env disk t p
          (stateOf a.env { setState s₂ t p st with disk := disk } t p).activeSegmentID
          (newRecord t p s a) := rfl
    rw [hshape, hstate, hactive]
  rw [publish_eq] at hcall
  refine ⟨_, hcall, ?_, fun name hname hmirror => ?_, ?_, fun t' p' hp' hne => ?_⟩
  · have hsettled : Numbered { setState s₂ t p st with disk := disk } :=
      numbered_setState hp st hnum₂
    exact numbered_setState hp _ hsettled
  · rw [hpublished, appendIndexes_get _ _ _ _ _ _ _ hname]
    exact hfiles name hmirror
  · rw [hpublished]
    exact (Indexed.of_get hindexes).trans (indexed_appendIndexes hok disk t p _ _)
  · rw [hpublished]
    exact (Indexed.of_get hindexes).trans (indexed_appendIndexes_ne disk hp' hp hne _ _)

end Appends

/-- Calls on numbered partitions in which no file operation fails. -/
def Faultless : Call → Prop
  | .produce env _ p _ => Succeeds env ∧ 0 ≤ p
  | .replicate env _ p _ _ => Succeeds env ∧ 0 ≤ p
  | .retain env => Succeeds env
  | .restart env _ => Succeeds env

def recorded (t : Str) (p : Int) (s : Storage) : Call → List Entry
  | .produce env t' p' value =>
      if t' = t ∧ p' = p then [entryOf t p s ⟨false, env, value⟩] else []
  | .replicate env t' p' offset value =>
      if t' = t ∧ p' = p ∧ offset = nextOffsetOf s t p then [entryOf t p s ⟨true, env, value⟩]
      else []
  | .retain _ => []
  | .restart _ _ => []

def history (t : Str) (p : Int) : Storage → List Call → List Entry
  | _, [] => []
  | s, c :: rest => recorded t p s c ++ history t p (step s c) rest

section Runs

variable {H : Entry → Prop} {t : Str} {p : Int} {s : Storage}

def Adds (H : Entry → Prop) (t : Str) (p : Int) (s : Storage) (c : Call) : Prop :=
  ∀ t' p' a disk', c = a.call t' p' s → Wrote t' p' s a disk' → Known H t p disk'

structure Lists (H : Entry → Prop) (t : Str) (p : Int) (entries : List Entry) (s s' : Storage) :
    Prop where
  numbered : Numbered s'
  known : Known H t p s'.disk
  listed : ∃ es, Indexed t p es s.disk s'.disk ∧ entries.Sublist es ∧ ∀ e ∈ es, H e

theorem recorded_call (t : Str) (p : Int) (s : Storage) (t' : Str) (p' : Int) (a : Append) :
    recorded t p s (a.call t' p' s) = if t' = t ∧ p' = p then [entryOf t p s a] else [] := by
  obtain ⟨replicated, env, value⟩ := a
  cases replicated with
  | false => rfl
  | true =>
    by_cases hown : t' = t ∧ p' = p
    · obtain ⟨rfl, rfl⟩ := hown
      simp [recorded, Append.call]
    · rw [if_neg hown]
      exact if_neg (fun h => hown ⟨h.1, h.2.1⟩)

theorem lists_retained (hok : Succeeds env) (hp : 0 ≤ p) {s' : Storage} {entries : List Entry}
    (hnum : Numbered s') (hknown : Known H t p s'.disk) (h : Indexed t p entries s.disk s'.disk)
    (hentries : ∀ e ∈ entries, H e) : Lists H t p entries s (enforceRetentionLocked env s') := by
  obtain ⟨hkeeps, hnum'⟩ := keeps_enforceRetention (H := H) (t := t) hok hp hnum
  obtain ⟨⟨more, hmore, hall⟩, hknown'⟩ := hkeeps hknown
  refine ⟨hnum', hknown', entries ++ more, h.trans hmore, List.sublist_append_left .., ?_⟩
  intro e he
  rcases List.mem_append.mp he with hold | hnew
  · exact hentries e hold
  · exact hall e hnew

theorem lists_append {a : Append} (hok : Succeeds a.env) (hp : 0 ≤ p) {t' : Str} {p' : Int}
    (hp' : 0 ≤ p') (hnum : Numbered s) (hadds : Adds H t p s (a.call t' p' s))
    (hnew : ∀ e ∈ recorded t p s (a.call t' p' s), H e) :
    Lists H t p (recorded t p s (a.call t' p' s)) s (append t' p' s a) := by
  obtain ⟨s', hcall, hnum', hwrote, hown, hother⟩ :=
    append_indexed (t := t') (a := a) hok hp' hnum
  have hknown := hadds t' p' a s'.disk rfl hwrote
  rw [hcall]
  refine lists_retained hok hp hnum' hknown ?_ hnew
  rw [recorded_call]
  split
  · rename_i heq
    obtain ⟨rfl, rfl⟩ := heq
    exact hown
  · rename_i hne
    refine hother t p hp ?_
    intro heq
    exact hne ⟨(Prod.mk.inj heq).1.symm, (Prod.mk.inj heq).2.symm⟩

/-- A replicated record that is not the next one changes no file. -/
theorem replicate_skipped (env : Env) (s : Storage) (t : Str) (p offset : Int) (value : Str)
    (h : offset ≠ nextOffsetOf s t p) :
    step s (.replicate env t p offset value) = ensurePartitionState env s t p := by
  rw [step, appendReplicated]
  dsimp only
  rw [nextOffsetOf_ensure]
  split
  · rfl
  · rw [if_pos (by omega)]

/-- A call adds its records to both indexes. -/
theorem step_lists (hp : 0 ≤ p) (hnum : Numbered s) (hknown : Known H t p s.disk) (c : Call)
    (hc : Faultless c) (hadds : Adds H t p s c) (hnew : ∀ e ∈ recorded t p s c, H e) :
    Lists H t p (recorded t p s c) s (step s c) := by
  cases c with
  | produce env t' p' value =>
    exact lists_append (a := ⟨false, env, value⟩) hc.1 hp hc.2 hnum hadds hnew
  | replicate env t' p' offset value =>
    by_cases hnext : offset = nextOffsetOf s t' p'
    · subst hnext
      exact lists_append (a := ⟨true, env, value⟩) hc.1 hp hc.2 hnum hadds hnew
    · have hnone : recorded t p s (.replicate env t' p' offset value) = [] := by
        refine if_neg ?_
        rintro ⟨rfl, rfl, heq⟩
        exact hnext heq
      rw [replicate_skipped env s t' p' offset value hnext, hnone]
      exact ⟨numbered_setState hc.2 _ hnum, hknown, [], .refl s.disk, List.Sublist.refl [],
        fun e he => absurd he List.not_mem_nil⟩
  | retain env => exact lists_retained hc hp hnum hknown (.refl s.disk) hnew
  | restart env settings =>
    obtain ⟨hkeeps, hnum'⟩ := keeps_newStorage (H := H) (t := t) hc hp settings s.disk
    obtain ⟨⟨es, hes, hall⟩, hknown'⟩ := hkeeps hknown
    exact ⟨hnum', hknown', es, hes, List.nil_sublist es, hall⟩

/-- A run lists the records it appends, in their order. -/
theorem run_lists (hp : 0 ≤ p) (hnum : Numbered s) (hknown : Known H t p s.disk)
    (calls : List Call) (hcalls : ∀ c ∈ calls, Faultless c)
    (hadds : Valid step (fun s c => Known H t p s.disk → Adds H t p s c) s calls)
    (hnew : ∀ e ∈ history t p s calls, H e) :
    Lists H t p (history t p s calls) s (run step s calls) := by
  induction calls generalizing s with
  | nil =>
    exact ⟨hnum, hknown, [], .refl s.disk, List.Sublist.refl [],
      fun e he => absurd he List.not_mem_nil⟩
  | cons c rest ih =>
    obtain ⟨hfirst, hlater⟩ := List.forall_mem_append.mp hnew
    obtain ⟨hnum', hknown', es, hes, hsub, hall⟩ := step_lists hp hnum hknown c
      (hcalls c (List.mem_cons_self ..)) (hadds.1 hknown) hfirst
    obtain ⟨hnum'', hknown'', es', hes', hsub', hall'⟩ := ih hnum' hknown'
      (fun c' hc' => hcalls c' (List.mem_cons_of_mem _ hc')) hadds.2 hlater
    exact ⟨hnum'', hknown'', es ++ es', hes.trans hes', hsub.append hsub',
      List.forall_mem_append.mpr ⟨hall, hall'⟩⟩

theorem recorded_length_le (t : Str) (p : Int) (s : Storage) (c : Call) :
    (recorded t p s c).length ≤ 1 := by
  cases c with
  | produce env t' p' value =>
    simp only [recorded]
    split
    · exact Nat.le_refl 1
    · exact Nat.zero_le 1
  | replicate env t' p' offset value =>
    simp only [recorded]
    split
    · exact Nat.le_refl 1
    · exact Nat.zero_le 1
  | retain env => exact Nat.zero_le 1
  | restart env settings => exact Nat.zero_le 1

/-- The record that a call appends takes the next offset. -/
theorem recorded_offset {e : Entry} (he : e ∈ recorded t p s c) :
    e.2.offset = nextOffsetOf s t p := by
  cases c with
  | produce env t' p' value =>
    simp only [recorded] at he
    split at he
    · rw [List.mem_singleton.mp he]
      rfl
    · exact absurd he List.not_mem_nil
  | replicate env t' p' offset value =>
    simp only [recorded] at he
    split at he
    · rw [List.mem_singleton.mp he]
      rfl
    · exact absurd he List.not_mem_nil
  | retain env => exact absurd he List.not_mem_nil
  | restart env settings => exact absurd he List.not_mem_nil

theorem appendReplicated_next (hok : Succeeds env) (s : Storage) (t : Str) (p : Int) (value : Str) :
    (appendReplicated env s t p (nextOffsetOf s t p) value).2 = none := by
  simp [appendReplicated, nextOffsetOf_ensure, hok.mkdir, writeSegment, appendLine_succeeds hok,
    applyFsyncPolicy_ok hok.sync]

theorem recorded_taken (hadm : Admissible s c) (h : recorded t p s c ≠ []) :
    ∃ o, taken s c = some (t, p, o) := by
  cases c with
  | produce env t' p' value =>
    simp only [recorded] at h
    split at h
    · rename_i hown
      obtain ⟨rfl, rfl⟩ := hown
      have hpartition := produceToPartition_partition env s t' p' value
      refine ⟨(produceToPartition env s t' p' value).2.2, ?_⟩
      rw [taken, ← Prod.mk.eta (p := (produceToPartition env s t' p' value).2), hpartition]
    · exact absurd rfl h
  | replicate env t' p' offset value =>
    simp only [recorded] at h
    split at h
    · rename_i hown
      obtain ⟨rfl, rfl, rfl⟩ := hown
      refine ⟨nextOffsetOf s t' p', if_pos ⟨?_, appendReplicated_next hadm.1 s t' p' value⟩⟩
      rw [stateOf_nextOffset]
    · exact absurd rfl h
  | retain env => exact absurd rfl h
  | restart env settings => exact absurd rfl h

/-- The records of a partition are appended at ascending offsets. -/
theorem history_ascending (ht : Plain t) (hp : Natural p) (hsound : Sound n s) (calls : List Call)
    (hvalid : Valid step Admissible s calls) (hn : n + calls.length < 2 ^ 63) :
    (history t p s calls).Pairwise (fun e e' => e.2.offset < e'.2.offset) ∧
      ∀ e ∈ history t p s calls, nextOffsetOf s t p ≤ e.2.offset := by
  induction calls generalizing s n with
  | nil => exact ⟨List.Pairwise.nil, fun e he => absurd he List.not_mem_nil⟩
  | cons c rest ih =>
    obtain ⟨hadm, hrest⟩ := hvalid
    rw [List.length_cons] at hn
    have hspec := step_spec hsound (by omega) c hadm
    obtain ⟨hlater, hbound⟩ := ih hspec.sound hrest (by omega)
    have hmono := hspec.next_le ht hp
    have hnew : ∀ e ∈ recorded t p s c,
        e.2.offset = nextOffsetOf s t p ∧ e.2.offset < nextOffsetOf (step s c) t p := by
      intro e he
      obtain ⟨o, ho⟩ := recorded_taken hadm (List.ne_nil_of_mem he)
      have htook := hspec
      rw [ho] at htook
      obtain ⟨hbefore, hafter⟩ := htook.takes ht hp
      have hoffset := recorded_offset he
      exact ⟨hoffset, by omega⟩
    have hsingle := recorded_length_le t p s c
    constructor
    · refine List.pairwise_append.mpr ⟨?_, hlater, fun e he e' he' => ?_⟩
      · match hrec : recorded t p s c with
        | [] => exact List.Pairwise.nil
        | [e] => exact List.pairwise_singleton _ e
        | e :: e' :: more =>
          rw [hrec] at hsingle
          simp at hsingle
      · have hfirst := (hnew e he).2
        have hsecond := hbound e' he'
        omega
    · intro e he
      rcases List.mem_append.mp he with hfirst | hsecond
      · exact (hnew e hfirst).1.ge
      · have hlow := hbound e hsecond
        omega

end Runs

section Entries

variable {H : Entry → Prop} {t t' : Str} {p p' : Int} {s : Storage}

theorem readAs_segmentName {k k' : Int} (hkey : PartitionKey t p) (hkey' : PartitionKey t' p')
    (hk' : Natural k') (h : ReadAs t p k name) (hname : name = segmentName t' p' k') :
    t = t' ∧ p = p' ∧ k = k' := by
  subst hname
  rcases h with hsame | hparse
  · obtain ⟨rfl, rfl⟩ := segmentName_partition_injective hkey'.topic_parsable hkey.topic_parsable
      hkey'.partition_natural.1 hkey.partition_natural.1 hsame
    exact ⟨rfl, rfl, (segmentID_injective hsame).symm⟩
  · rw [parse_segmentName t' p' k' hkey'.topic_parsable hkey'.partition_natural.1
      hkey'.partition_natural.2 hk'.1 hk'.2, Option.some.injEq, Prod.mk.injEq,
      Prod.mk.injEq] at hparse
    exact ⟨hparse.1.symm, hparse.2.1.symm, hparse.2.2.symm⟩

/-- A line written to a file gives its record, after those that were there. -/
theorem replayed_written (hok : Succeeds env) {disk : Disk} {L : PartitionLog} {k : Int}
    (hstored : Stored disk t p L) (hk : Natural k) {r r' : Record} (hlog : Loggable r)
    (h : r' ∈ replayed (appendLine env disk (segmentName t p k) (formatLine r)).1
      (segmentName t p k)) : r' ∈ replayed disk (segmentName t p k) ∨ r' = r := by
  have hcontent := appendLine_content hok disk (segmentName t p k) (formatLine r)
    (by simp [formatLine])
  rw [hstored.files k hk] at hcontent
  obtain ⟨file, hfile, htext⟩ := Option.map_eq_some_iff.mp hcontent
  have hlines : file.content = ((L.segment k).getD [] ++ [r]).flatMap formatLine := by
    rw [htext]
    cases L.segment k with
    | none => simp
    | some records => simp
  have hall : ∀ r₀ ∈ (L.segment k).getD [] ++ [r], Loggable r₀ := by
    refine List.forall_mem_append.mpr ⟨fun r₀ hr₀ => ?_, fun r₀ hr₀ => ?_⟩
    · obtain ⟨records, hrecords⟩ : ∃ records, L.segment k = some records := by
        cases hsegment : L.segment k with
        | none => simp [hsegment] at hr₀
        | some records => exact ⟨records, rfl⟩
      rw [hrecords] at hr₀
      exact hstored.loggable r₀ (mem_entries_of_segment hrecords r₀ hr₀)
    · rwa [List.mem_singleton.mp hr₀]
  rw [replayed, hfile] at h
  change r' ∈ replay file.content at h
  rw [hlines, replay_flatMap_formatLine _ hall, List.mem_append, List.mem_singleton] at h
  rwa [hstored.replayed_eq hk]

theorem admissible_call {a : Append} (h : Admissible s (a.call t p s)) :
    Succeeds a.env ∧ Plain t ∧ Natural p ∧ LineSafe a.value ∧
      Fits a.env (nextOffsetOf s t p) a.value := by
  obtain ⟨replicated, env, value⟩ := a
  cases replicated with
  | false =>
    obtain ⟨hok, ht, hp, hsafe, hfits⟩ := h
    exact ⟨hok, ht, hp, hsafe, stateOf_nextOffset env s t p ▸ hfits⟩
  | true =>
    obtain ⟨hok, ht, hp, hsafe, hfits⟩ := h
    exact ⟨hok, ht, hp, hsafe, hfits (stateOf_nextOffset env s t p).symm⟩

/-- The files of a plain partition hold nothing but its own appends: the mirrors of another
are never read as its segments. -/
theorem adds_of_sound (hsound : Sound n s) (hn : n + 1 < 2 ^ 63) (ht : Plain t) (hp : Natural p)
    (hadm : Admissible s c) (hnew : ∀ e ∈ recorded t p s c, H e) (hknown : Known H t p s.disk) :
    Adds H t p s c := by
  rintro t' p' a disk' rfl hwrote e ⟨name, hread, hr⟩
  obtain ⟨hok, ht', hp', hsafe, hfits⟩ := admissible_call hadm
  obtain ⟨L, hL, hb⟩ := hsound.logs t' p' ht' hp'
  rw [nextOffsetOf_eq hL] at hfits
  have hlog := hb.loggable hn hsafe hfits
  have hrecord : newRecord t' p' s a = ⟨L.next, unixMilli a.env.stamp, a.value⟩ := by
    rw [newRecord, nextOffsetOf_eq hL]
  have hnatural : Natural (entryOf t' p' s a).1 := by
    obtain ⟨-, s₂, L', hwrite, -, -, hwritten⟩ :=
      ensured_write hok (ht'.key hp') hL (hb.room hn) hlog
    obtain ⟨st, hst, hactive, -⟩ := hwritten.state
    have hsegment := (writeSegment_ensured a.env s t' p' (newLine t' p' s a)).1
    rw [newLine, hrecord, hwrite, stateOf_eq a.env t' p' hst] at hsegment
    rw [entryOf, newLine, hrecord, ← hsegment]
    exact hactive
  have hmirror : ∀ i, Natural i → name ≠ replicaSegmentName t' p' i (entryOf t' p' s a).1 := by
    intro i hi hname
    rw [replicaSegmentName_eq] at hname
    obtain ⟨rfl, -⟩ := readAs_segmentName (ht.key hp)
      ⟨replicaTopic_parsable t' p' (ht'.key hp').topic_parsable hp'.1, hi⟩ hnatural hread hname
    exact ht.no_replica (replica_infix_replicaTopic t' p')
  rw [replayed, hwrote name hread.not_isIndex hmirror, ← replayed] at hr
  by_cases hname : name = segmentName t' p' (entryOf t' p' s a).1
  · obtain ⟨rfl, rfl, hk⟩ := readAs_segmentName (ht.key hp) (ht'.key hp') hnatural hread hname
    rw [hname, newLine] at hr
    rcases replayed_written hok hL.stored hnatural (hrecord ▸ hlog) hr with hold | hlast
    · exact hknown e ⟨_, .inl (by rw [hk]), hold⟩
    · refine hnew e ?_
      rw [recorded_call, if_pos ⟨rfl, rfl⟩, List.mem_singleton]
      exact Prod.ext hk hlast
  · rw [replayed, appendLine_get_ne _ _ _ hname, ← replayed] at hr
    exact hknown e ⟨name, hread, hr⟩

theorem valid_adds (hsound : Sound n s) (ht : Plain t) (hp : Natural p) (calls : List Call)
    (hvalid : Valid step Admissible s calls) (hn : n + calls.length < 2 ^ 63)
    (hnew : ∀ e ∈ history t p s calls, H e) :
    Valid step (fun s c => Known H t p s.disk → Adds H t p s c) s calls := by
  induction calls generalizing s n with
  | nil => trivial
  | cons c rest ih =>
    rw [List.length_cons] at hn
    obtain ⟨hfirst, hlater⟩ := List.forall_mem_append.mp hnew
    exact ⟨adds_of_sound hsound (by omega) ht hp hvalid.1 hfirst,
      ih (sound_step n s c (by omega) hsound hvalid.1) hvalid.2 (by omega) hlater⟩

end Entries

/-- After any calls without file errors the two indexes of a partition list the same
entries in the same order, and all appends are among them, in their order and with the
segment each was written to. If names and values are plain, every entry is one of an
append, and the appends have ascending offsets. -/
theorem indexes_list_appends (env : Env) (settings : Settings) (hok : Succeeds env)
    (calls : List Call) (hcalls : ∀ c ∈ calls, Faultless c) (t : Str) (p : Int) (hp : 0 ≤ p) :
    ∃ entries : List Entry,
      textOf (reached env settings calls).disk (offsetIndexName t p) =
          entries.flatMap offsetLine ∧
        textOf (reached env settings calls).disk (timestampIndexName t p) =
          entries.flatMap timestampLine ∧
        (history t p (newStorage env settings FMap.empty) calls).Sublist entries ∧
        (Plain t → Natural p → calls.length < 2 ^ 63 →
          Valid step Admissible (newStorage env settings FMap.empty) calls →
            (∀ e ∈ entries, e ∈ history t p (newStorage env settings FMap.empty) calls) ∧
              (history t p (newStorage env settings FMap.empty) calls).Pairwise
                (fun e e' => e.2.offset < e'.2.offset)) := by
  have hlists : ∀ H : Entry → Prop,
      Valid step (fun s c => Known H t p s.disk → Adds H t p s c)
        (newStorage env settings FMap.empty) calls →
      (∀ e ∈ history t p (newStorage env settings FMap.empty) calls, H e) →
      ∃ entries : List Entry, Indexed t p entries FMap.empty (reached env settings calls).disk ∧
        (history t p (newStorage env settings FMap.empty) calls).Sublist entries ∧
        ∀ e ∈ entries, H e := by
    intro H hadds hnew
    have hempty : Known H t p FMap.empty := by
      rintro e ⟨name, -, hr⟩
      exact absurd hr List.not_mem_nil
    obtain ⟨hkeeps, hnum⟩ := keeps_newStorage (H := H) (t := t) hok hp settings FMap.empty
    obtain ⟨⟨es, hes, hall⟩, hknown⟩ := hkeeps hempty
    obtain ⟨-, -, es', hes', hsub, hall'⟩ := run_lists hp hnum hknown calls hcalls hadds hnew
    exact ⟨es ++ es', hes.trans hes', hsub.trans (List.sublist_append_right es es'),
      List.forall_mem_append.mpr ⟨hall, hall'⟩⟩
  by_cases hplain : (Plain t ∧ Natural p) ∧ calls.length < 2 ^ 63 ∧
      Valid step Admissible (newStorage env settings FMap.empty) calls
  · obtain ⟨⟨ht, hnat⟩, hlength, hvalid⟩ := hplain
    have hsound := sound_empty hok settings
    obtain ⟨entries, hentries, hsub, hall⟩ :=
      hlists (· ∈ history t p (newStorage env settings FMap.empty) calls)
        (valid_adds hsound ht hnat calls hvalid (by omega) (fun _ he => he)) (fun _ he => he)
    refine ⟨entries, hentries.offsets, hentries.timestamps, hsub, fun _ _ _ _ => ⟨hall, ?_⟩⟩
    exact (history_ascending ht hnat hsound calls hvalid (by omega)).1
  · obtain ⟨entries, hentries, hsub, -⟩ := hlists (fun _ => True)
      (valid_of_forall (fun _ _ _ _ _ _ _ _ _ _ _ _ => trivial)) (fun _ _ => trivial)
    exact ⟨entries, hentries.offsets, hentries.timestamps, hsub,
      fun ht hnat hlength hvalid => absurd ⟨⟨ht, hnat⟩, hlength, hvalid⟩ hplain⟩

section Restarted

theorem faultless_twoRecords : ∀ c ∈ twoRecords, Faultless c := by
  intro c hc
  simp only [twoRecords, List.mem_cons, List.not_mem_nil, or_false] at hc
  rcases hc with rfl | rfl | rfl
  · exact ⟨calm_succeeds 1, Int.le_refl 0⟩
  · exact calm_succeeds 2
  · exact ⟨calm_succeeds 3, Int.le_refl 0⟩

/-- Two appends with a restart between them. -/
theorem indexes_list_appends_restart :
    ∃ entries : List Entry,
      textOf (reached (calm 0) defaultSettings twoRecords).disk
            (offsetIndexName (lit "orders") 0) = entries.flatMap offsetLine ∧
        textOf (reached (calm 0) defaultSettings twoRecords).disk
            (timestampIndexName (lit "orders") 0) = entries.flatMap timestampLine ∧
        [(0, ⟨0, 0, lit "a"⟩), (0, ⟨1, 0, lit "b"⟩)].Sublist entries ∧
        ∀ e ∈ entries, e ∈ [((0 : Int), (⟨0, 0, lit "a"⟩ : Record)), (0, ⟨1, 0, lit "b"⟩)] := by
  have hhistory : history (lit "orders") 0 (newStorage (calm 0) defaultSettings FMap.empty)
      twoRecords = [(0, ⟨0, 0, lit "a"⟩), (0, ⟨1, 0, lit "b"⟩)] := by decide +kernel
  obtain ⟨entries, hoffsets, htimestamps, hsub, hplain⟩ := indexes_list_appends (calm 0)
    defaultSettings (calm_succeeds 0) twoRecords faultless_twoRecords (lit "orders") 0
    (Int.le_refl 0)
  obtain ⟨hall, -⟩ := hplain orders_plain zero_natural (by decide) valid_twoRecords
  rw [hhistory] at hsub hall
  exact ⟨entries, hoffsets, htimestamps, hsub, hall⟩

/-- The restart lists the first record a second time. -/
theorem restart_lists_again :
    history (lit "orders") 0 (newStorage (calm 0) defaultSettings FMap.empty) twoRecords =
        [(0, ⟨0, 0, lit "a"⟩), (0, ⟨1, 0, lit "b"⟩)] ∧
      textOf (reached (calm 0) defaultSettings twoRecords).disk (offsetIndexName (lit "orders") 0) =
        [((0 : Int), (⟨0, 0, lit "a"⟩ : Record)), (0, ⟨0, 0, lit "a"⟩),
          (0, ⟨1, 0, lit "b"⟩)].flatMap offsetLine := by
  decide +kernel

end Restarted

end Flux.IndexHistories
