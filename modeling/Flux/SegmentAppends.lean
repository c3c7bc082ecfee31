import Flux.SegmentMirrors

/-!
Appends to a partition whose memory mirrors its files. A call fails before a byte of
its line is in the file, and then the files replay to what they did before; or it
succeeds, and then its record is the last one in the files and in the memory.
-/
namespace Flux.SegmentAppends

open GoRuntime GoStrings LogLines SegmentNames FiniteMap PartitionStorage SegmentedLogs
open StorageFrames StorageReplay StorageAppends StorageCalls
open SegmentFiles SegmentRuns TornTails SegmentMirrors

variable {st : PartitionState} {r : Record}

/-- Where the call fails, no byte of a line is stored, and `fsync` does not fail. -/
structure Harmless (env : Env) : Prop where
  sync : env.syncOk = true
  writes : ∀ topic partition k m,
    env.writeFails (segmentName topic partition k) = some m → m = 0

theorem harmless_of_succeeds {env : Env} (h : Succeeds env) : Harmless env where
  sync := h.sync
  writes topic partition k m hm := by
    rw [h.writes] at hm
    contradiction

def Put (k : Int) (rs : List Record) (segments segments' : Segments) : Prop :=
  (∃ front old, segments = front ++ [(k, old)] ∧ segments' = front ++ [(k, old ++ rs)]) ∨
    (k ∉ segments.map Prod.fst ∧ segments' = segments ++ [(k, rs)])

/-- A segment is within the limit, or it has one record only. -/
def Fit (limit : Int) (segments : Segments) : Prop :=
  ∀ g ∈ segments, ((g.2.flatMap formatLine).length : Int) ≤ limit ∨ g.2.length = 1

section Lists

variable {k : Int} {rs : List Record} {segments segments' : Segments}

theorem sublist_concat {ids all : List Int} {k : Int} (h : ids.Sublist all)
    (hlast : all.getLast? = some k) (hnot : k ∉ ids) : (ids ++ [k]).Sublist all := by
  obtain ⟨front, rfl⟩ := List.getLast?_eq_some_iff.mp hlast
  obtain ⟨xs, ys, rfl, hxs, hys⟩ := List.sublist_append_iff.mp h
  have hempty : ys = [] := by
    refine List.eq_nil_iff_forall_not_mem.mpr (fun j hj => hnot ?_)
    rw [← List.mem_singleton.mp (hys.subset hj)]
    exact List.mem_append_right _ hj
  rw [hempty, List.append_nil]
  exact hxs.append (List.Sublist.refl _)

theorem written_concat (front : Segments) (k : Int) (rs : List Record) :
    written (front ++ [(k, rs)]) = written front ++ [(k, rs.flatMap formatLine)] := by
  simp [written]

theorem entries_concat (front : Segments) (k : Int) (rs : List Record) :
    entries (front ++ [(k, rs)]) = entries front ++ rs := by
  simp [entries]

theorem Put.entries (h : Put k rs segments segments') :
    entries segments' = entries segments ++ rs := by
  rcases h with ⟨front, old, rfl, rfl⟩ | ⟨-, rfl⟩
  · rw [entries_concat, entries_concat, List.append_assoc]
  · exact entries_concat ..

theorem Put.mem (h : Put k rs segments segments') : ∃ old, (k, old ++ rs) ∈ segments' := by
  rcases h with ⟨front, old, rfl, rfl⟩ | ⟨-, rfl⟩
  · exact ⟨old, by simp⟩
  · exact ⟨[], by simp⟩

end Lists

section Writes

variable {topic : Str} {partition : Int} {segments : Segments}

/-- Lines that are written to the active segment go to the last file or to a new one. -/
theorem Spans.write {disk : Disk} (hkey : PartitionKey topic partition)
    (hspans : Spans st segments) (hdisk : OnDisk disk topic partition (written segments))
    (now : Time) (rs : List Record) :
    ∃ segments', OnDisk (appendBytes now disk (segmentName topic partition st.activeSegmentID)
        (rs.flatMap formatLine)) topic partition (written segments') ∧
      Spans st segments' ∧ Put st.activeSegmentID rs segments segments' := by
  by_cases hmem : st.activeSegmentID ∈ segments.map Prod.fst
  · rcases List.eq_nil_or_concat segments with rfl | ⟨front, ⟨k, old⟩, rfl⟩
    · exact absurd hmem List.not_mem_nil
    · rw [List.concat_eq_append] at hmem hspans hdisk ⊢
      have hlast : k = st.activeSegmentID := by
        have hascending := hdisk.ascending
        rw [map_fst_written] at hascending
        have hle := hspans.le_active (hspans.listed.subset (a := k) (by simp))
        rcases List.mem_append.mp (List.map_append ▸ hmem) with hfront | hsingle
        · have := (List.pairwise_append.mp (List.map_append ▸ hascending)).2.2 _ hfront k (by simp)
          omega
        · exact (List.mem_singleton.mp hsingle).symm
      subst hlast
      refine ⟨front ++ [(st.activeSegmentID, old ++ rs)], ?_, ⟨?_, hspans.ascending,
        hspans.natural, hspans.active⟩, .inl ⟨front, old, rfl, rfl⟩⟩
      · rw [written_concat] at hdisk ⊢
        rw [List.flatMap_append]
        exact hdisk.extend hkey now _
      · simpa using hspans.listed
  · refine ⟨segments ++ [(st.activeSegmentID, rs)], ?_, ⟨?_, hspans.ascending,
      hspans.natural, hspans.active⟩, .inr ⟨hmem, rfl⟩⟩
    · rw [written_concat]
      refine hdisk.add hkey hspans.natural_active (fun j hj => ?_) now _
      rw [map_fst_written] at hj
      have hle := hspans.le_active (hspans.listed.subset hj)
      have hne : j ≠ st.activeSegmentID := fun he => hmem (he ▸ hj)
      omega
    · rw [List.map_append]
      exact sublist_concat hspans.listed hspans.active hmem

/-- A line that has room in the active segment, or goes to a new one, keeps the limit. -/
theorem Fit.put {s : Storage} {segments' : Segments} (hspans : Spans st segments)
    (hdisk : OnDisk s.disk topic partition (written segments))
    (hput : Put (if shouldRotate s topic partition st.activeSegmentID (formatLine r).length
      then rotate st else st).activeSegmentID [r] segments segments')
    (h : Fit s.settings.segmentMaxBytes segments) : Fit s.settings.segmentMaxBytes segments' := by
  rcases hput with ⟨front, old, rfl, rfl⟩ | ⟨-, rfl⟩
  · intro g hg
    rcases List.mem_append.mp hg with hfront | hlast
    · exact h g (List.mem_append_left _ hfront)
    · rw [List.mem_singleton.mp hlast]
      left
      by_cases hrotate : shouldRotate s topic partition st.activeSegmentID
          (formatLine r).length = true
      · rw [if_pos hrotate] at hspans
        have hle := hspans.le_active (hspans.listed.subset (a := st.activeSegmentID + 1)
          (by simp [rotate]))
        omega
      · rw [if_neg hrotate] at hdisk
        rw [written_concat] at hdisk
        rw [shouldRotate_last hdisk] at hrotate
        have hroom := of_decide_eq_false (Bool.not_eq_true _ ▸ hrotate)
        rw [List.flatMap_append, List.flatMap_singleton, List.length_append]
        push_cast
        omega
  · intro g hg
    rcases List.mem_append.mp hg with hold | hlast
    · exact h g hold
    · rw [List.mem_singleton.mp hlast]
      exact .inr rfl

end Writes

structure Laid (s : Storage) (topic : Str) (partition : Int) (segments : Segments)
    (messages : List Message) (next : Int) : Prop where
  onDisk : OnDisk s.disk topic partition (written segments)
  state : ∃ st, get2 s.partitionState topic partition = some st ∧ Spans st segments ∧
    st.nextOffset = next
  messages : messagesOf s topic partition = messages

def Rises (topic : Str) (partition : Int) (s s' : Storage) : Prop :=
  ∀ k k', activeOf s topic partition = some k → activeOf s' topic partition = some k' → k' ≤ k + 1

theorem appendLine_harmless {env : Env} (h : Harmless env) (disk : Disk) (topic : Str)
    (partition k : Int) (line : Str) :
    appendLine env disk (segmentName topic partition k) line = (disk, some .open) ∨
      appendLine env disk (segmentName topic partition k) line =
        (appendBytes env.written disk (segmentName topic partition k) [], some .write) ∨
      appendLine env disk (segmentName topic partition k) line =
        (appendBytes env.written disk (segmentName topic partition k) line, none) := by
  unfold appendLine
  split
  · cases hfails : env.writeFails (segmentName topic partition k) with
    | some m =>
      right
      left
      rw [h.writes topic partition k m hfails]
      rfl
    | none => exact .inr (.inr rfl)
  · exact .inl rfl

section Calls

variable {env : Env} {s : Storage} {topic : Str} {partition next : Int} {segments : Segments}
  {messages : List Message}

/-- What the write of a line leaves: the line in the active segment, or no byte of it. -/
theorem laid_writeSegment (hharm : Harmless env) (hkey : PartitionKey topic partition)
    (h : Laid s topic partition segments messages next)
    (hroom : ∀ k, activeOf s topic partition = some k → k + 1 < 2 ^ 63) (r : Record) :
    ∃ segments', Laid (writeSegment env s topic partition (formatLine r)).1 topic partition
        segments' messages next ∧
      Local topic partition (Writes topic partition) s
        (writeSegment env s topic partition (formatLine r)).1 ∧
      Rises topic partition s (writeSegment env s topic partition (formatLine r)).1 ∧
      (((writeSegment env s topic partition (formatLine r)).2 ≠ none ∧
          entries segments' = entries segments) ∨
        ((writeSegment env s topic partition (formatLine r)).2 = none ∧
          (∃ k, activeOf (writeSegment env s topic partition (formatLine r)).1 topic partition =
            some k ∧ Put k [r] segments segments') ∧
          (Fit s.settings.segmentMaxBytes segments →
            Fit s.settings.segmentMaxBytes segments'))) := by
  obtain ⟨st, hst, hspans, hnext⟩ := h.state
  have hactive := activeOf_eq hst
  obtain ⟨st', hst'⟩ : ∃ st', st' = if shouldRotate s topic partition st.activeSegmentID
      (formatLine r).length then rotate st else st := ⟨_, rfl⟩
  have hshape : writeSegment env s topic partition (formatLine r) =
      ({ setState s topic partition st' with
          disk := (appendLine env s.disk (segmentName topic partition st'.activeSegmentID)
            (formatLine r)).1 },
        (appendLine env s.disk (segmentName topic partition st'.activeSegmentID)
          (formatLine r)).2) := by
    rw [writeSegment, stateOf_eq env topic partition hst, hst']
  have hspans' : Spans st' segments := by
    rw [hst']
    split
    · exact hspans.rotate (hroom _ hactive)
    · exact hspans
  have hnext' : st'.nextOffset = next := by
    rw [hst', ← hnext]
    split
    · rfl
    · rfl
  have hstep : st'.activeSegmentID ≤ st.activeSegmentID + 1 := by
    rw [hst']
    split
    · exact Int.le_refl _
    · omega
  have hgot : ∀ disk, activeOf { setState s topic partition st' with disk := disk } topic partition
      = some st'.activeSegmentID := fun disk => activeOf_eq (get2_setState ..)
  have hlocal : Local topic partition (Writes topic partition) s
      (writeSegment env s topic partition (formatLine r)).1 := by
    refine writeSegment_local env hkey s (formatLine r) (fun st₁ hst₁ => ?_)
    rw [hshape] at hst₁
    rw [← Option.some.inj ((get2_setState topic partition s st').symm.trans hst₁)]
    exact hspans'.natural_active
  have hlaid : ∀ disk segments', OnDisk disk topic partition (written segments') →
      Spans st' segments' → Laid { setState s topic partition st' with disk := disk } topic
        partition segments' messages next :=
    fun disk segments' hdisk hspan => ⟨hdisk, ⟨st', get2_setState .., hspan, hnext'⟩, h.messages⟩
  have hrises : Rises topic partition s (writeSegment env s topic partition (formatLine r)).1 := by
    intro k k' hk hk'
    rw [hshape, hgot] at hk'
    rw [hactive] at hk
    obtain rfl := Option.some.inj hk
    obtain rfl := Option.some.inj hk'
    exact hstep
  rw [hshape] at hlocal hrises ⊢
  rcases appendLine_harmless hharm s.disk topic partition st'.activeSegmentID (formatLine r)
    with hopen | hwrite | hdone
  · rw [hopen] at hlocal hrises ⊢
    exact ⟨segments, hlaid _ _ h.onDisk hspans', hlocal, hrises, .inl ⟨by simp, rfl⟩⟩
  · rw [hwrite] at hlocal hrises ⊢
    obtain ⟨segments', hdisk, hspan, hput⟩ := Spans.write hkey hspans' h.onDisk env.written []
    refine ⟨segments', hlaid _ _ hdisk hspan, hlocal, hrises, .inl ⟨by simp, ?_⟩⟩
    rw [hput.entries, List.append_nil]
  · rw [hdone] at hlocal hrises ⊢
    obtain ⟨segments', hdisk, hspan, hput⟩ := Spans.write hkey hspans' h.onDisk env.written [r]
    rw [List.flatMap_singleton] at hdisk
    refine ⟨segments', hlaid _ _ hdisk hspan, hlocal, hrises,
      .inr ⟨rfl, ⟨st'.activeSegmentID, hgot _, hput⟩, ?_⟩⟩
    rw [hst'] at hput
    exact Fit.put hspans h.onDisk hput

/-- Publishing the record that was written makes the memory mirror the files again. -/
theorem mirrors_published (env : Env) {segments' : Segments}
    (h : Laid s topic partition segments' ((entries segments).map toMessage) next)
    (hentries : entries segments' = entries segments ++ [r])
    (hlog : ∀ x ∈ entries segments', Loggable x)
    (hascending : (entries segments).Pairwise (fun a b => a.offset < b.offset))
    (hnext : r.offset = advance Record.offset 0 (entries segments)) :
    Mirrors (recordPublished env s topic partition r) topic partition segments' ∧
      activeOf (recordPublished env s topic partition r) topic partition =
        activeOf s topic partition := by
  obtain ⟨st, hst, hspans, -⟩ := h.state
  have hframe := recordPublished_local env s topic partition r
  have hstate : get2 (recordPublished env s topic partition r).partitionState topic partition =
      some { st with nextOffset := r.offset + 1 } := by
    unfold recordPublished
    rw [stateOf_eq env topic partition hst]
    exact get2_setState ..
  refine ⟨⟨?_, hlog, ?_, ?_, fun hnone => ?_, fun st₁ hst₁ => ?_⟩, ?_⟩
  · exact h.onDisk.congr (fun k => hframe.disk _ (segmentName_not_isIndex topic partition k))
  · rw [hentries, List.pairwise_append]
    refine ⟨hascending, List.pairwise_singleton _ _, fun x hx y hy => ?_⟩
    rw [List.mem_singleton.mp hy, hnext]
    exact lt_advance hx
  · rw [hentries, List.map_append]
    simp only [recordPublished, messagesOf_setState, messagesOf_pushMessage, messagesOf_setDisk,
      h.messages]
    rfl
  · rw [hstate] at hnone
    contradiction
  · obtain rfl := Option.some.inj (hstate.symm.trans hst₁)
    refine ⟨hspans.congr rfl rfl, ?_⟩
    rw [hentries, advance_concat hnext]
  · rw [activeOf_eq hstate, activeOf_eq hst]

theorem nextOffsetOf_mirrors (h : Mirrors s topic partition segments) :
    nextOffsetOf s topic partition = advance Record.offset 0 (entries segments) := by
  unfold nextOffsetOf
  split
  · rename_i st hst
    exact (h.tracked st hst).2
  · rename_i hnone
    rw [h.untracked hnone]
    rfl

theorem Mirrors.laid (h : Mirrors s topic partition segments)
    (hst : get2 s.partitionState topic partition = some st) :
    Laid s topic partition segments ((entries segments).map toMessage)
      (nextOffsetOf s topic partition) := by
  obtain ⟨hspans, hnext⟩ := h.tracked st hst
  exact ⟨h.onDisk, ⟨st, hst, hspans, hnext.trans (nextOffsetOf_mirrors h).symm⟩, h.messages⟩

/-- A fresh write state lists segment 0, which has no file. -/
theorem mirrors_ensure (env : Env) (h : Mirrors s topic partition segments) :
    Mirrors (ensurePartitionState env s topic partition) topic partition segments where
  onDisk := h.onDisk
  loggable := h.loggable
  ascending := h.ascending
  messages := h.messages
  untracked hnone := by
    rw [ensurePartitionState, get2_setState] at hnone
    contradiction
  tracked st hst := by
    rw [ensurePartitionState, get2_setState, Option.some.injEq] at hst
    subst hst
    cases hget : get2 s.partitionState topic partition with
    | none =>
      rw [h.untracked hget]
      have hfresh : stateOf env s topic partition = freshState env := by simp [stateOf, hget]
      rw [hfresh]
      refine ⟨⟨List.nil_sublist _, List.pairwise_singleton _ _, fun k hk => ?_, rfl⟩, rfl⟩
      rw [List.mem_singleton.mp hk]
      exact ⟨Int.le_refl 0, by decide⟩
    | some st =>
      rw [stateOf_eq env topic partition hget]
      exact h.tracked st hget

end Calls

def Below (n : ℕ) (topic : Str) (partition : Int) (s : Storage) : Prop :=
  ∀ k, activeOf s topic partition = some k → k ≤ n

def Climbs (topic : Str) (partition : Int) (s s' : Storage) : Prop :=
  ∀ n, Below n topic partition s → Below (n + 1) topic partition s'

structure Stays (topic : Str) (partition : Int) (segments : Segments) (s s' : Storage) : Prop where
  mirrors : ∃ segments', Mirrors s' topic partition segments' ∧
    entries segments' = entries segments
  within : Local topic partition (Writes topic partition) s s'
  climbs : Climbs topic partition s s'

structure Gains (topic : Str) (partition : Int) (segments : Segments) (r : Record)
    (s s' : Storage) : Prop where
  mirrors : ∃ segments' k, Mirrors s' topic partition segments' ∧
    activeOf s' topic partition = some k ∧ Put k [r] segments segments' ∧
    (Fit s.settings.segmentMaxBytes segments → Fit s.settings.segmentMaxBytes segments')
  within : Local topic partition (Writes topic partition) s s'
  climbs : Climbs topic partition s s'

section Outcomes

variable {env : Env} {s : Storage} {topic : Str} {partition : Int} {segments : Segments} {n : ℕ}

theorem activeOf_ensure (env : Env) (s : Storage) (topic : Str) (partition : Int) :
    activeOf (ensurePartitionState env s topic partition) topic partition =
      some ((activeOf s topic partition).getD 0) := by
  rw [ensurePartitionState, activeOf_eq (get2_setState ..), stateOf, activeOf]
  cases get2 s.partitionState topic partition with
  | none => rfl
  | some st => rfl

theorem below_ensure (env : Env) (h : Below n topic partition s) :
    Below n topic partition (ensurePartitionState env s topic partition) := by
  intro k hk
  rw [activeOf_ensure, Option.some.injEq] at hk
  cases hactive : activeOf s topic partition with
  | none =>
    rw [hactive, Option.getD_none] at hk
    omega
  | some j =>
    rw [hactive, Option.getD_some] at hk
    exact hk ▸ h j hactive

theorem stays_ensure (env : Env) (h : Mirrors s topic partition segments) :
    Stays topic partition segments s (ensurePartitionState env s topic partition) where
  mirrors := ⟨segments, mirrors_ensure env h, rfl⟩
  within := setState_local s _
  climbs n hbelow k hk := by
    have hle := below_ensure env hbelow k hk
    push_cast
    omega

/-- The two ends of the write of a record, and what its publication then makes of it. -/
theorem write_outcome (hharm : Harmless env) (hkey : PartitionKey topic partition)
    (h : Mirrors s topic partition segments) (hbelow : Below n topic partition s)
    (hn : n + 1 < 2 ^ 63) (hr : r.offset = nextOffsetOf s topic partition) (hlog : Loggable r) :
    ∃ s₂ e, writeSegment env (ensurePartitionState env s topic partition) topic partition
        (formatLine r) = (s₂, e) ∧
      ((e ≠ none ∧ ¬ Succeeds env ∧ Stays topic partition segments s s₂) ∨
        (e = none ∧ ∀ disk st, st.segments = (stateOf env s₂ topic partition).segments →
          st.activeSegmentID = (stateOf env s₂ topic partition).activeSegmentID →
          (disk = s₂.disk ∨ disk = writeLocalReplicas env s₂.disk topic partition
            st.activeSegmentID (formatLine r)) →
          Gains topic partition segments r s (recordPublished env
            { setState s₂ topic partition st with disk := disk } topic partition r))) := by
  have hensured := mirrors_ensure env h
  have hlaid := Mirrors.laid hensured (get2_setState ..)
  have hroom : ∀ k, activeOf (ensurePartitionState env s topic partition) topic partition =
      some k → k + 1 < 2 ^ 63 := by
    intro k hk
    have hle := below_ensure env hbelow k hk
    omega
  have hnext : nextOffsetOf (ensurePartitionState env s topic partition) topic partition =
      nextOffsetOf s topic partition := by
    rw [nextOffsetOf_mirrors hensured, nextOffsetOf_mirrors h]
  obtain ⟨segments', hlaid', hlocal, hrises, houtcome⟩ := laid_writeSegment hharm hkey hlaid hroom r
  obtain ⟨s₂, e, hwrite⟩ : ∃ s₂ e, writeSegment env (ensurePartitionState env s topic partition)
      topic partition (formatLine r) = (s₂, e) := ⟨_, _, rfl⟩
  rw [hwrite] at hlaid' hlocal hrises houtcome
  dsimp only at hlaid' hlocal hrises houtcome
  have hensure : Local topic partition (Writes topic partition) s
      (ensurePartitionState env s topic partition) := setState_local s _
  have hwithin := hensure.trans hlocal
  have hclimbs : Climbs topic partition s s₂ := by
    intro m hm k hk
    have hle := below_ensure env hm _ (activeOf_ensure env s topic partition)
    have hstep := hrises _ k (activeOf_ensure env s topic partition) hk
    push_cast
    omega
  have hfails : e ≠ none → ¬ Succeeds env := by
    intro hfailed hok
    have hresult := congrArg Prod.snd hwrite
    simp only [writeSegment, appendLine_succeeds hok] at hresult
    exact hfailed hresult.symm
  refine ⟨s₂, e, hwrite, ?_⟩
  obtain ⟨st₂, hst₂, hspans₂, hnext₂⟩ := hlaid'.state
  rcases houtcome with ⟨hfailed, hentries⟩ | ⟨hdone, ⟨k, hk, hput⟩, hfit⟩
  · refine .inl ⟨hfailed, hfails hfailed, ⟨segments', ⟨hlaid'.onDisk, ?_, ?_, ?_,
      fun hnone => ?_, fun st hst => ?_⟩, hentries⟩, hwithin, hclimbs⟩
    · rw [hentries]
      exact h.loggable
    · rw [hentries]
      exact h.ascending
    · rw [hlaid'.messages, hentries]
    · rw [hst₂] at hnone
      contradiction
    · obtain rfl := Option.some.inj (hst₂.symm.trans hst)
      refine ⟨hspans₂, ?_⟩
      rw [hnext₂, hnext, nextOffsetOf_mirrors h, hentries]
  · refine .inr ⟨hdone, fun disk st hsegments hactive hdisk => ?_⟩
    rw [stateOf_eq env topic partition hst₂] at hsegments hactive
    have hspans := hspans₂.congr hsegments hactive
    have hsame : ∀ j, disk.get (segmentName topic partition j) =
        s₂.disk.get (segmentName topic partition j) := by
      intro j
      rcases hdisk with rfl | rfl
      · rfl
      · exact writeLocalReplicas_get env hkey _ _ j _
    have hsettled : Laid { setState s₂ topic partition st with disk := disk } topic partition
        segments' ((entries segments).map toMessage) st.nextOffset :=
      ⟨hlaid'.onDisk.congr hsame, ⟨st, get2_setState .., hspans, rfl⟩, hlaid'.messages⟩
    have hlog' : ∀ x ∈ entries segments', Loggable x := by
      intro x hx
      rw [hput.entries] at hx
      rcases List.mem_append.mp hx with hold | hnew
      · exact h.loggable x hold
      · rw [List.mem_singleton.mp hnew]
        exact hlog
    obtain ⟨hmirrors, hkept⟩ := mirrors_published env hsettled hput.entries hlog'
      h.ascending (hr.trans (nextOffsetOf_mirrors h))
    have hstate : activeOf { setState s₂ topic partition st with disk := disk } topic partition =
        some st.activeSegmentID := activeOf_eq (get2_setState ..)
    rw [hactive, ← activeOf_eq hst₂, hk] at hstate
    refine ⟨⟨segments', k, hmirrors, hkept.trans hstate, hput, hfit⟩, ?_, fun m hm j hj => ?_⟩
    · refine (hwithin.trans ?_).trans
        ((recordPublished_local env _ topic partition r).mono (fun _ hi => .inl (.inl hi)))
      rcases hdisk with rfl | rfl
      · exact setState_local _ _
      · exact (setState_local _ _).trans
          (writeLocalReplicas_local env hkey _ hspans.natural_active _)
    · rw [hkept, hstate] at hj
      obtain rfl := Option.some.inj hj
      exact hclimbs m hm k hk

/-- A produced record is in the log, or the call has failed and the log is as it was. -/
theorem produce_outcome (hharm : Harmless env) (hkey : PartitionKey topic partition)
    (h : Mirrors s topic partition segments) (hbelow : Below n topic partition s)
    (hn : n + 1 < 2 ^ 63) {value : Str}
    (hlog : Loggable ⟨nextOffsetOf s topic partition, unixMilli env.stamp, value⟩) :
    (¬ Succeeds env ∧
        Stays topic partition segments s (produceToPartition env s topic partition value).1) ∨
      ∃ s', (produceToPartition env s topic partition value).1 = enforceRetentionLocked env s' ∧
        Gains topic partition segments
          ⟨nextOffsetOf s topic partition, unixMilli env.stamp, value⟩ s s' := by
  obtain ⟨s₂, e, hwrite, houtcome⟩ := write_outcome hharm hkey h hbelow hn rfl hlog
  by_cases hmkdir : env.mkdirOk = true
  · rcases houtcome with ⟨hfailed, hnot, hstays⟩ | ⟨rfl, hgains⟩
    · obtain ⟨err, rfl⟩ := Option.ne_none_iff_exists'.mp hfailed
      left
      simp only [produceToPartition, nextOffsetOf_ensure, hmkdir, ↓reduceIte, hwrite]
      exact ⟨hnot, hstays⟩
    · right
      simp only [produceToPartition, nextOffsetOf_ensure, hmkdir, ↓reduceIte, hwrite, publish_eq]
      refine ⟨_, rfl, hgains _ _ ?_ ?_ (.inr rfl)⟩
      · exact (applyFsyncPolicy_keeps ..).1
      · exact (applyFsyncPolicy_keeps ..).2
  · left
    simp only [produceToPartition, hmkdir]
    exact ⟨fun hok => hmkdir hok.mkdir, stays_ensure env h⟩

/-- A replicated record at the next offset is in the log, or the call has failed and the
log is as it was. -/
theorem replicate_outcome (hharm : Harmless env) (hkey : PartitionKey topic partition)
    (h : Mirrors s topic partition segments) (hbelow : Below n topic partition s)
    (hn : n + 1 < 2 ^ 63) {offset : Int} {value : Str}
    (hlog : offset = nextOffsetOf s topic partition →
      Loggable ⟨offset, unixMilli env.stamp, value⟩) :
    (Stays topic partition segments s (appendReplicated env s topic partition offset value).1 ∧
        (nextOffsetOf s topic partition ≤ offset →
          (appendReplicated env s topic partition offset value).2 ≠ none) ∧
        (offset = nextOffsetOf s topic partition → ¬ Succeeds env)) ∨
      (offset = nextOffsetOf s topic partition ∧
        (appendReplicated env s topic partition offset value).2 = none ∧
        ∃ s', (appendReplicated env s topic partition offset value).1 =
            enforceRetentionLocked env s' ∧
          Gains topic partition segments ⟨offset, unixMilli env.stamp, value⟩ s s') := by
  rcases Int.lt_trichotomy offset (nextOffsetOf s topic partition) with hlt | heq | hgt
  · left
    simp only [appendReplicated, nextOffsetOf_ensure, hlt, ↓reduceIte]
    exact ⟨stays_ensure env h, fun hle => by omega, fun heq => by omega⟩
  · obtain ⟨s₂, e, hwrite, houtcome⟩ := write_outcome hharm hkey h hbelow hn heq (hlog heq)
    by_cases hmkdir : env.mkdirOk = true
    · rcases houtcome with ⟨hfailed, hnot, hstays⟩ | ⟨rfl, hgains⟩
      · obtain ⟨err, rfl⟩ := Option.ne_none_iff_exists'.mp hfailed
        left
        simp only [appendReplicated, nextOffsetOf_ensure, heq, lt_self_iff_false, hmkdir,
          ↓reduceIte]
        rw [← heq, hwrite]
        exact ⟨hstays, fun _ => by simp, fun _ => hnot⟩
      · right
        refine ⟨heq, ?_⟩
        simp only [appendReplicated, nextOffsetOf_ensure, heq, lt_self_iff_false, hmkdir,
          ↓reduceIte]
        rw [← heq, hwrite]
        simp only [applyFsyncPolicy_ok hharm.sync, ↓reduceIte, publish_eq]
        refine ⟨trivial, _, rfl, hgains _ _ ?_ ?_ (.inl rfl)⟩
        · exact (applyFsyncPolicy_keeps ..).1
        · exact (applyFsyncPolicy_keeps ..).2
    · left
      simp only [appendReplicated, nextOffsetOf_ensure, heq, lt_self_iff_false, hmkdir,
        ↓reduceIte]
      exact ⟨stays_ensure env h, fun _ => by simp, fun _ hok => hmkdir hok.mkdir⟩
  · left
    have hnot : ¬ offset < nextOffsetOf s topic partition := by omega
    simp only [appendReplicated, nextOffsetOf_ensure, hnot, hgt, ↓reduceIte]
    exact ⟨stays_ensure env h, fun _ => by simp, fun heq => by omega⟩

end Outcomes

end Flux.SegmentAppends
