import Flux.SegmentRuns
import Flux.TornTails

/-!
A partition whose memory mirrors its files, also after appends that failed. A
failed append can leave an empty file behind, or a segment that is listed and has
no file at all. Neither has records, so the memory still is what the files give
when they are replayed, retention drops segments from the front, and the segment
that is written to stays.
-/
namespace Flux.SegmentMirrors

open GoRuntime GoStrings LogLines SegmentNames FiniteMap PartitionStorage SegmentedLogs
open StorageFrames StorageReplay StorageRefinement StorageAppends SegmentFiles TornTails

abbrev Segments := List (Int × List Record)

variable {segments' : Segments} {next segID : Int} {rest : List Int} {st : PartitionState}

def entries (segments : Segments) : List Record := segments.flatMap Prod.snd

structure Spans (st : PartitionState) (segments : Segments) : Prop where
  listed : (segments.map Prod.fst).Sublist st.segments
  ascending : st.segments.Pairwise (· < ·)
  natural : ∀ k ∈ st.segments, Natural k
  active : st.segments.getLast? = some st.activeSegmentID

structure Mirrors (s : Storage) (topic : Str) (partition : Int) (segments : Segments) : Prop where
  onDisk : OnDisk s.disk topic partition (written segments)
  loggable : ∀ r ∈ entries segments, Loggable r
  ascending : (entries segments).Pairwise (fun a b => a.offset < b.offset)
  messages : messagesOf s topic partition = (entries segments).map toMessage
  untracked : get2 s.partitionState topic partition = none → segments = []
  tracked : ∀ st, get2 s.partitionState topic partition = some st →
    Spans st segments ∧ st.nextOffset = advance Record.offset 0 (entries segments)

def activeOf (s : Storage) (topic : Str) (partition : Int) : Option Int :=
  (get2 s.partitionState topic partition).map PartitionState.activeSegmentID

structure Dropped (active : Option Int) (segments segments' : Segments) : Prop where
  suffix : segments' <:+ segments
  kept : ∀ g ∈ segments, active = some g.1 → g ∈ segments'

theorem Dropped.refl (active : Option Int) (segments : Segments) :
    Dropped active segments segments := ⟨List.suffix_refl _, fun _ hg _ => hg⟩

theorem Dropped.trans {active : Option Int} {segments segments'' : Segments}
    (h : Dropped active segments segments') (h' : Dropped active segments' segments'') :
    Dropped active segments segments'' :=
  ⟨h'.suffix.trans h.suffix, fun g hg hactive => h'.kept g (h.kept g hg hactive) hactive⟩

theorem map_fst_written (segments : Segments) :
    (written segments).map Prod.fst = segments.map Prod.fst := by
  simp [written]

section Lists

/-- A fold over a list is one over a part of it when the rest does nothing. -/
theorem foldr_of_sublist {α β : Type} {l l' : List α} (h : l.Sublist l') (hnodup : l'.Nodup)
    {f : α → β → β} {z : β} (hf : ∀ a ∈ l', a ∉ l → ∀ b, f a b = b) :
    l'.foldr f z = l.foldr f z := by
  induction h with
  | slnil => rfl
  | cons a hsub ih =>
    obtain ⟨hnot, hrest⟩ := List.nodup_cons.mp hnodup
    rw [List.foldr_cons, hf a (List.mem_cons_self ..) (fun hmem => hnot (hsub.subset hmem))]
    exact ih hrest (fun b hb hb' => hf b (List.mem_cons_of_mem _ hb) hb')
  | cons_cons a hsub ih =>
    obtain ⟨hnot, hrest⟩ := List.nodup_cons.mp hnodup
    refine congrArg (f a) (ih hrest (fun b hb hb' => hf b (List.mem_cons_of_mem _ hb) ?_))
    intro hmem
    rcases List.mem_cons.mp hmem with rfl | hmem
    · exact hnot hb
    · exact hb' hmem

theorem flatMap_eq_foldr {α β : Type} (f : α → List β) (l : List α) :
    l.flatMap f = l.foldr (fun a rest => f a ++ rest) [] := by
  induction l with
  | nil => rfl
  | cons a l ih => rw [List.flatMap_cons, ih, List.foldr_cons]

theorem entries_suffix {segments : Segments} (h : segments' <:+ segments) :
    entries segments' <:+ entries segments := by
  obtain ⟨front, rfl⟩ := h
  exact ⟨entries front, List.flatMap_append.symm⟩

end Lists

section Shapes

variable {st : PartitionState} {segments : Segments}

theorem Spans.le_active (h : Spans st segments) {k : Int} (hk : k ∈ st.segments) :
    k ≤ st.activeSegmentID :=
  le_getLast h.ascending h.active hk

theorem Spans.natural_active (h : Spans st segments) : Natural st.activeSegmentID :=
  h.natural _ (List.mem_of_getLast? h.active)

theorem Spans.congr {st' : PartitionState} (h : Spans st segments)
    (hsegments : st'.segments = st.segments) (hactive : st'.activeSegmentID = st.activeSegmentID) :
    Spans st' segments where
  listed := hsegments ▸ h.listed
  ascending := hsegments ▸ h.ascending
  natural := hsegments ▸ h.natural
  active := by rw [hsegments, hactive, h.active]

/-- A rotation lists a segment that has no file yet. -/
theorem Spans.rotate (h : Spans st segments) (hroom : st.activeSegmentID + 1 < 2 ^ 63) :
    Spans (rotate st) segments where
  listed := h.listed.trans (List.sublist_append_left ..)
  ascending := by
    simp only [PartitionStorage.rotate, List.pairwise_append]
    refine ⟨h.ascending, by simp, fun k hk j hj => ?_⟩
    have := h.le_active hk
    rw [List.mem_singleton.mp hj]
    omega
  natural k hk := by
    rcases List.mem_append.mp hk with hmem | hlast
    · exact h.natural k hmem
    · have hlow := h.natural_active.1
      rw [List.mem_singleton.mp hlast]
      exact ⟨by omega, by unfold InInt64; omega⟩
  active := by simp [PartitionStorage.rotate]

/-- The first of several listed segments has the first file or none. -/
theorem Spans.first (h : Spans st segments) (hseg : st.segments = segID :: next :: rest) :
    (segID ∉ segments.map Prod.fst ∧ (segments.map Prod.fst).Sublist (next :: rest)) ∨
      ∃ rs segments', segments = (segID, rs) :: segments' ∧
        (segments'.map Prod.fst).Sublist (next :: rest) := by
  have hlisted := h.listed
  have hascending := h.ascending
  rw [hseg] at hlisted hascending
  rcases List.sublist_cons_iff.mp hlisted with hrest | ⟨ids, hids, hrest⟩
  · refine .inl ⟨fun hmem => ?_, hrest⟩
    have := (List.pairwise_cons.mp hascending).1 segID (hrest.subset hmem)
    omega
  · cases segments with
    | nil => cases hids
    | cons g segments' =>
      obtain ⟨k, rs⟩ := g
      obtain ⟨rfl, rfl⟩ := List.cons.inj hids
      exact .inr ⟨rs, segments', rfl, hrest⟩

end Shapes

section Files

variable {disk : Disk} {topic : Str} {partition : Int} {segments : Segments}

/-- Segments without a file add nothing to a replay. -/
theorem replayedAll_spans (h : OnDisk disk topic partition (written segments))
    (hlog : ∀ r ∈ entries segments, Loggable r) {ids : List Int}
    (hlisted : (segments.map Prod.fst).Sublist ids) (hascending : ids.Pairwise (· < ·))
    (hnatural : ∀ k ∈ ids, Natural k) :
    replayedAll disk topic partition ids = entries segments := by
  have hnodup : ids.Nodup := hascending.imp (fun hlt => by omega)
  have hphantom : ∀ k ∈ ids, k ∉ segments.map Prod.fst →
      replayed disk (segmentName topic partition k) = [] := by
    intro k hk hnot
    have htext := h.texts k (hnatural k hk)
    rw [lookup_eq_none (by rwa [map_fst_written]), Option.map_eq_none_iff] at htext
    rw [replayed, htext]
  have hids := replayedAll_ids h
  rw [map_fst_written, records_written hlog] at hids
  rw [replayedAll, flatMap_eq_foldr, foldr_of_sublist hlisted hnodup
    (fun k hk hnot b => by rw [hphantom k hk hnot, List.nil_append]), ← flatMap_eq_foldr]
  exact hids

/-- Removing the file of a segment that has none, or of the first one. -/
theorem onDisk_remove (hkey : PartitionKey topic partition)
    (h : OnDisk disk topic partition (written segments)) (hseg : Natural segID)
    (hshape : (segID ∉ segments.map Prod.fst ∧ segments' = segments) ∨
      ∃ rs, segments = (segID, rs) :: segments') :
    OnDisk (disk.del (segmentName topic partition segID)) topic partition (written segments') := by
  have hlookup : ∀ k, (written segments').lookup k =
      if k = segID then none else (written segments).lookup k := by
    intro k
    rcases hshape with ⟨hnot, rfl⟩ | ⟨rs, rfl⟩
    · split
      · rename_i he
        exact lookup_eq_none (by rw [he, map_fst_written]; exact hnot)
      · rfl
    · have hfirst := h.ascending
      rw [map_fst_written, List.map_cons, List.pairwise_cons] at hfirst
      split
      · rename_i he
        refine lookup_eq_none (fun hmem => ?_)
        rw [he, map_fst_written] at hmem
        have := hfirst.1 segID hmem
        omega
      · rename_i he
        have hbeq : (k == segID) = false := by simpa using he
        simp [written, List.lookup_cons, hbeq]
  have hids : ∀ k ∈ segments'.map Prod.fst, k ∈ segments.map Prod.fst := by
    rcases hshape with ⟨-, rfl⟩ | ⟨rs, rfl⟩
    · exact fun k hk => hk
    · exact fun k hk => List.mem_cons_of_mem _ hk
  refine ⟨fun k hk => ?_, ?_, fun k hk => ?_⟩
  · rw [map_fst_written] at hk
    exact h.natural k (by rw [map_fst_written]; exact hids k hk)
  · have hascending := h.ascending
    rcases hshape with ⟨-, rfl⟩ | ⟨rs, rfl⟩
    · exact hascending
    · exact hascending.tail
  · rw [hlookup]
    by_cases he : k = segID
    · simp [he]
    · rw [FMap.get_del_ne _ (segmentName_ne hkey hk hseg he), h.texts k hk]
      simp [he]

end Files

def Retains (topic : Str) (partition : Int) (segments : Segments) (s s' : Storage) : Prop :=
  ∃ segments', Mirrors s' topic partition segments' ∧
    activeOf s' topic partition = activeOf s topic partition ∧
    Dropped (activeOf s topic partition) segments segments'

section Retention

variable (env : Env) {s : Storage} {topic : Str} {partition : Int} {segments : Segments}

theorem Mirrors.retains (h : Mirrors s topic partition segments) :
    Retains topic partition segments s s :=
  ⟨segments, h, rfl, Dropped.refl _ _⟩

theorem Retains.trans {s' s'' : Storage} (h : Retains topic partition segments s s')
    (h' : ∀ segments', Mirrors s' topic partition segments' →
      Retains topic partition segments' s' s'') :
    Retains topic partition segments s s'' := by
  obtain ⟨segments', hmirrors, hactive, hdropped⟩ := h
  obtain ⟨segments'', hmirrors', hactive', hdropped'⟩ := h' segments' hmirrors
  rw [hactive] at hactive' hdropped'
  exact ⟨segments'', hmirrors', hactive', hdropped.trans hdropped'⟩

theorem activeOf_eq (h : get2 s.partitionState topic partition = some st) :
    activeOf s topic partition = some st.activeSegmentID := by
  rw [activeOf, h, Option.map_some]

/-- A rebuilt partition mirrors its files. -/
theorem mirrors_rebuild (hdisk : OnDisk s.disk topic partition (written segments))
    (hlog : ∀ r ∈ entries segments, Loggable r)
    (hascending : (entries segments).Pairwise (fun a b => a.offset < b.offset))
    (hspans : Spans st segments) :
    Mirrors (rebuildPartitionFromSegments env s topic partition st) topic partition segments := by
  have heffect := rebuild_effect env topic partition s st
  have hframe := rebuildPartitionFromSegments_local env s topic partition st
  simp only [replayedAll_spans hdisk hlog hspans.listed hspans.ascending hspans.natural] at heffect
  refine ⟨?_, hlog, hascending, heffect.1, fun hnone => ?_, fun st' hst' => ?_⟩
  · exact hdisk.congr (fun k => hframe.disk _ (segmentName_not_isIndex topic partition k))
  · rw [heffect.2] at hnone
    contradiction
  · rw [heffect.2, Option.some.injEq] at hst'
    rw [← hst']
    exact ⟨hspans.congr rfl rfl, rfl⟩

/-- Deleting the first of several listed segments removes the first file, or none. -/
theorem deleteSegment_first (hkey : PartitionKey topic partition)
    (h : Mirrors s topic partition segments)
    (hst : get2 s.partitionState topic partition = some st)
    (hseg : st.segments = segID :: next :: rest) :
    ∃ segments', Mirrors (deleteSegment env s topic partition st segID) topic partition segments' ∧
      activeOf (deleteSegment env s topic partition st segID) topic partition =
        activeOf s topic partition ∧
      Dropped (activeOf s topic partition) segments segments' ∧
      ((segID ∉ segments.map Prod.fst ∧ segments' = segments) ∨
        ∃ rs, segments = (segID, rs) :: segments') := by
  obtain ⟨hspans, -⟩ := h.tracked st hst
  have hactive : (next :: rest).getLast? = some st.activeSegmentID := by
    have := hspans.active
    rwa [hseg, List.getLast?_cons_cons] at this
  have hascending : (segID :: next :: rest).Pairwise (· < ·) := hseg ▸ hspans.ascending
  have hnatural : ∀ k ∈ segID :: next :: rest, Natural k := hseg ▸ hspans.natural
  have hbelow : segID < st.activeSegmentID :=
    (List.pairwise_cons.mp hascending).1 _ (List.mem_of_getLast? hactive)
  have hlast : ∀ s', activeOf (rebuildPartitionFromSegments env s' topic partition
      { st with segments := st.segments.tail }) topic partition = some st.activeSegmentID :=
    fun s' => (activeOf_eq (rebuild_effect env topic partition s' _).2).trans rfl
  have hshorter : ∀ segments' : Segments, (segments'.map Prod.fst).Sublist (next :: rest) →
      Spans { st with segments := st.segments.tail } segments' := by
    intro segments' hlisted
    rw [hseg, List.tail_cons]
    exact ⟨hlisted, hascending.tail, fun k hk => hnatural k (List.mem_cons_of_mem _ hk), hactive⟩
  rcases hspans.first hseg with ⟨hnot, hlisted⟩ | ⟨rs, segments', rfl, hlisted⟩
  · refine ⟨segments, ?_, (hlast _).trans (activeOf_eq hst).symm, Dropped.refl _ _,
      .inl ⟨hnot, rfl⟩⟩
    exact mirrors_rebuild env (onDisk_remove hkey h.onDisk (hnatural _ (List.mem_cons_self ..))
      (.inl ⟨hnot, rfl⟩)) h.loggable h.ascending (hshorter _ hlisted)
  · have hsuffix : segments' <:+ (segID, rs) :: segments' := List.suffix_cons ..
    refine ⟨segments', ?_, (hlast _).trans (activeOf_eq hst).symm, ⟨hsuffix, ?_⟩,
      .inr ⟨rs, rfl⟩⟩
    · refine mirrors_rebuild env (onDisk_remove hkey h.onDisk
        (hnatural _ (List.mem_cons_self ..)) (.inr ⟨rs, rfl⟩)) ?_ ?_ (hshorter _ hlisted)
      · exact fun r hr => h.loggable r ((entries_suffix hsuffix).subset hr)
      · exact h.ascending.sublist (entries_suffix hsuffix).sublist
    · intro g hg heq
      rw [activeOf_eq hst, Option.some.injEq] at heq
      rcases List.mem_cons.mp hg with rfl | hmem
      · exact absurd heq (by dsimp only; omega)
      · exact hmem

theorem retains_deleteSegment (hkey : PartitionKey topic partition)
    (h : Mirrors s topic partition segments)
    (hst : get2 s.partitionState topic partition = some st)
    (hseg : st.segments = segID :: next :: rest) :
    Retains topic partition segments s (deleteSegment env s topic partition st segID) := by
  obtain ⟨segments', hmirrors, hactive, hdropped, -⟩ := deleteSegment_first env hkey h hst hseg
  exact ⟨segments', hmirrors, hactive, hdropped⟩

/-- Dropping the first of several listed segments from the list, if it has no file. -/
theorem retains_dropPhantom (h : Mirrors s topic partition segments)
    (hst : get2 s.partitionState topic partition = some st)
    (hseg : st.segments = segID :: next :: rest)
    (hnone : s.disk.get (segmentName topic partition segID) = none) :
    Retains topic partition segments s
      (setState s topic partition { st with segments := st.segments.tail }) := by
  obtain ⟨hspans, hnext⟩ := h.tracked st hst
  have hlisted : (segments.map Prod.fst).Sublist (next :: rest) := by
    rcases hspans.first hseg with ⟨-, hlisted⟩ | ⟨rs, segments', rfl, -⟩
    · exact hlisted
    · have hfile := (h.onDisk.exists_iff (k := segID) (hspans.natural _
        (by rw [hseg]; exact List.mem_cons_self ..))).mpr (by simp [written])
      rw [hnone] at hfile
      contradiction
  have hspans' : Spans { st with segments := st.segments.tail } segments := by
    have hascending := hspans.ascending
    have hnatural := hspans.natural
    have hactive := hspans.active
    rw [hseg] at hascending hnatural hactive
    rw [hseg, List.tail_cons]
    exact ⟨hlisted, hascending.tail, fun k hk => hnatural k (List.mem_cons_of_mem _ hk),
      by rwa [List.getLast?_cons_cons] at hactive⟩
  refine ⟨segments, ⟨h.onDisk, h.loggable, h.ascending, h.messages, fun hnone => ?_,
    fun st' hst' => ?_⟩, ?_, Dropped.refl _ _⟩
  · rw [get2_setState] at hnone
    contradiction
  · rw [get2_setState, Option.some.injEq] at hst'
    rw [← hst']
    exact ⟨hspans', hnext⟩
  · rw [activeOf_eq hst, activeOf_eq (get2_setState ..)]

theorem trims_retains (hkey : PartitionKey topic partition) (s : Storage) (segments : Segments) :
    Trims env topic partition (Retains topic partition segments s) where
  drop h hst hseg hnone := h.trans (fun _ h' => retains_dropPhantom h' hst hseg hnone)
  delete h hst hseg := h.trans (fun _ h' => retains_deleteSegment env hkey h' hst hseg)

/-- A change elsewhere leaves the partition as it is. -/
theorem Mirrors.frame {s' : Storage} {t : Str} {p : Int} {names : Str → Prop}
    (h : Mirrors s topic partition segments) (hlocal : Local t p names s s')
    (hne : (topic, partition) ≠ (t, p)) (hnames : ∀ k, ¬ names (segmentName topic partition k)) :
    Mirrors s' topic partition segments ∧
      activeOf s' topic partition = activeOf s topic partition := by
  have hstate := hlocal.state topic partition hne
  refine ⟨⟨h.onDisk.congr (fun k => hlocal.disk _ (hnames k)), h.loggable, h.ascending, ?_,
    fun hnone => h.untracked (hstate ▸ hnone), fun st hst => h.tracked st (hstate ▸ hst)⟩, ?_⟩
  · rw [← h.messages]
    simp only [messagesOf, hlocal.data topic partition hne]
  · rw [activeOf, activeOf, hstate]

theorem retains_visits (hkey : PartitionKey topic partition) {keys : List (Str × Int)}
    (hkeys : ∀ key ∈ keys, PartitionKey key.1 key.2) (h : Mirrors s topic partition segments) :
    Retains topic partition segments s (keys.foldl (retainPartition env) s) := by
  refine (trims_retains env hkey s segments).visits (fun s' key hmem hother hretains => ?_)
    h.retains
  refine hretains.trans (fun segments' h' => ?_)
  obtain ⟨hframe, hactive⟩ := h'.frame (retainPartition_local env s' key) hother
    (not_owned hkey (hkeys key hmem) hother)
  exact ⟨segments', hframe, hactive, Dropped.refl _ _⟩

theorem retains_enforceRetention (hnamed : WellNamed s) (hkey : PartitionKey topic partition)
    (h : Mirrors s topic partition segments) :
    Retains topic partition segments s (enforceRetentionLocked env s) :=
  retains_visits env hkey (visited_keys env hnamed) h

end Retention

end Flux.SegmentMirrors
