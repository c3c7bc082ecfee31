import Flux.StorageAppends

/-!
Recovery from the data directory. The listing is sorted by partition and
segment, so the files of one partition are replayed in the order in which they
were written, and the represented log is the one the files hold.
-/
namespace Flux.StorageRecovery

open GoStrings LogLines SegmentNames FiniteMap PartitionStorage SegmentedLogs
open StorageFrames StorageReplay StorageRefinement StorageAppends

variable {disk : Disk} {topic : Str} {partition : Int}

theorem entryLe_iff (a b : SegmentEntry) : entryLe a b = true ↔
    (a.topic ≠ b.topic ∧ strLe a.topic b.topic = true) ∨
      (a.topic = b.topic ∧ (a.partition < b.partition ∨
        (a.partition = b.partition ∧ a.segmentID ≤ b.segmentID))) := by
  unfold entryLe
  split
  · rename_i hne
    simp [hne]
  · rename_i heq
    have heq : a.topic = b.topic := by simpa using heq
    split
    · rename_i hne
      simp only [heq, decide_eq_true_eq, ne_eq, not_true_eq_false, false_and, true_and, false_or]
      omega
    · rename_i hp
      have hp : a.partition = b.partition := by simpa using hp
      simp [heq, hp]

instance entryLe_total : Std.Total (fun a b : SegmentEntry => entryLe a b = true) where
  total a b := by
    rw [entryLe_iff, entryLe_iff]
    by_cases ht : a.topic = b.topic
    · simp only [ht, ne_eq, not_true_eq_false, false_and, true_and, false_or]
      omega
    · have ht' : ¬ b.topic = a.topic := fun h => ht h.symm
      simpa [ht, ht'] using strLe_total a.topic b.topic

instance entryLe_trans : IsTrans SegmentEntry (fun a b => entryLe a b = true) where
  trans a b c hab hbc := by
    rw [entryLe_iff] at hab hbc ⊢
    rcases hab with ⟨hne, hle⟩ | ⟨heq, hrest⟩
    · rcases hbc with ⟨hne', hle'⟩ | ⟨heq', -⟩
      · left
        refine ⟨?_, strLe_trans _ _ _ hle hle'⟩
        intro hac
        exact hne (strLe_antisymm _ _ hle (hac ▸ hle'))
      · left
        exact heq' ▸ ⟨hne, hle⟩
    · rcases hbc with ⟨hne', hle'⟩ | ⟨heq', hrest'⟩
      · left
        exact heq ▸ ⟨hne', hle'⟩
      · right
        exact ⟨heq.trans heq', by omega⟩

theorem loadEntry_local (env : Env) (s : Storage) (e : SegmentEntry) :
    Local e.topic e.partition IsIndex s (loadEntry env s e) :=
  (setState_local s _).trans (loadSegment_local env _ e.topic e.partition e.segmentID e.name)

theorem loadEntry_disk (env : Env) (s : Storage) (e : SegmentEntry) (name : Str)
    (h : ¬ IsIndex name) : (loadEntry env s e).disk.get name = s.disk.get name :=
  (loadEntry_local env s e).disk name h

def recoverSegment (disk : Disk) (topic : Str) (partition : Int) (st : PartitionState) (k : Int) :
    PartitionState :=
  movedOver (listSegment st k) (replayed disk (segmentName topic partition k))

def idsOf (topic : Str) (partition : Int) (entries : List SegmentEntry) : List Int :=
  (entries.filter (fun e => e.topic = topic ∧ e.partition = partition)).map SegmentEntry.segmentID

section Effects

variable (env : Env) (topic : Str) (partition : Int)

theorem loadEntry_effect (s : Storage) (e : SegmentEntry) (ht : e.topic = topic)
    (hp : e.partition = partition) (hname : e.name = segmentName topic partition e.segmentID) :
    messagesOf (loadEntry env s e) topic partition = messagesOf s topic partition ++
        (replayed s.disk (segmentName topic partition e.segmentID)).map toMessage ∧
      get2 (loadEntry env s e).partitionState topic partition =
        some (recoverSegment s.disk topic partition (stateOf env s topic partition)
          e.segmentID) := by
  subst ht hp
  have h := loadSegment_effect env e.topic e.partition (setState s e.topic e.partition
    (listSegment (stateOf env s e.topic e.partition) e.segmentID)) e.segmentID e.name _
    (get2_setState ..)
  rw [hname] at h
  unfold loadEntry
  rw [hname]
  exact h

/-- What replaying a list of entries does to one partition. -/
theorem foldl_loadEntry (entries : List SegmentEntry)
    (hname : ∀ e ∈ entries, e.name = segmentName e.topic e.partition e.segmentID) (s : Storage) :
    messagesOf (entries.foldl (loadEntry env) s) topic partition = messagesOf s topic partition ++
        (replayedAll s.disk topic partition (idsOf topic partition entries)).map toMessage ∧
      get2 (entries.foldl (loadEntry env) s).partitionState topic partition =
        if idsOf topic partition entries = [] then get2 s.partitionState topic partition
        else some ((idsOf topic partition entries).foldl
          (recoverSegment s.disk topic partition) (stateOf env s topic partition)) := by
  induction entries generalizing s with
  | nil => simp [idsOf, replayedAll]
  | cons e rest ih =>
    have hrest := ih (fun e' he' => hname e' (List.mem_cons_of_mem _ he')) (loadEntry env s e)
    have hdisk : ∀ k, replayed (loadEntry env s e).disk (segmentName topic partition k) =
        replayed s.disk (segmentName topic partition k) := by
      intro k
      rw [replayed, loadEntry_disk env s e _ (segmentName_not_isIndex topic partition k),
        ← replayed]
    have hall : ∀ ids, replayedAll (loadEntry env s e).disk topic partition ids =
        replayedAll s.disk topic partition ids := by
      intro ids
      simp only [replayedAll, hdisk]
    have hrecover : recoverSegment (loadEntry env s e).disk topic partition =
        recoverSegment s.disk topic partition := by
      funext st k
      simp only [recoverSegment, hdisk]
    rw [hall, hrecover] at hrest
    rw [List.foldl_cons]
    by_cases hown : e.topic = topic ∧ e.partition = partition
    · have hcons : idsOf topic partition (e :: rest) =
          e.segmentID :: idsOf topic partition rest := by simp [idsOf, hown]
      have heffect := loadEntry_effect env topic partition s e hown.1 hown.2
        (by rw [hname e (List.mem_cons_self ..), hown.1, hown.2])
      rw [hcons, hrest.1, hrest.2, heffect.1, heffect.2, stateOf_eq env topic partition heffect.2]
      refine ⟨by simp [replayedAll], ?_⟩
      simp only [List.foldl_cons, reduceCtorEq, ↓reduceIte]
      split
      · rename_i hnil
        simp [hnil]
      · rfl
    · have hcons : idsOf topic partition (e :: rest) = idsOf topic partition rest := by
        simp [idsOf, hown]
      have hne : (topic, partition) ≠ (e.topic, e.partition) := by
        intro he
        exact hown ⟨(Prod.mk.inj he).1.symm, (Prod.mk.inj he).2.symm⟩
      have hlocal := loadEntry_local env s e
      have hmessages : messagesOf (loadEntry env s e) topic partition =
          messagesOf s topic partition := by
        simp only [messagesOf, hlocal.data topic partition hne]
      have hstate := hlocal.state topic partition hne
      rw [hcons, hrest.1, hrest.2, hmessages, hstate]
      simp only [stateOf, hstate, and_self]

end Effects

/-- Later segments are listed after the ones that are there. -/
theorem foldl_recoverSegment (disk : Disk) (topic : Str) (partition : Int) (ids : List Int)
    (st : PartitionState) (hactive : st.segments.getLast? = some st.activeSegmentID)
    (hasc : (st.activeSegmentID :: ids).Pairwise (· < ·)) :
    let st' := ids.foldl (recoverSegment disk topic partition) st
    st'.segments = st.segments ++ ids ∧ st'.segments.getLast? = some st'.activeSegmentID ∧
      st'.nextOffset =
        advance Record.offset st.nextOffset (replayedAll disk topic partition ids) := by
  induction ids generalizing st with
  | nil => exact ⟨by simp, hactive, rfl⟩
  | cons k rest ih =>
    have hlt : st.activeSegmentID < k := (List.pairwise_cons.mp hasc).1 k (List.mem_cons_self ..)
    have hlast : st.segments.getLast? ≠ some k := by
      rw [hactive, ne_eq, Option.some.injEq]
      omega
    have hstep : recoverSegment disk topic partition st k =
        { st with
          segments := st.segments ++ [k]
          activeSegmentID := k
          nextOffset := advance Record.offset st.nextOffset
            (replayed disk (segmentName topic partition k)) } := by
      simp [recoverSegment, movedOver, listSegment, hlast, hlt]
    have hrest := ih (recoverSegment disk topic partition st k) (by simp [hstep])
      (by rw [hstep]; exact (List.pairwise_cons.mp hasc).2)
    rw [List.foldl_cons]
    refine ⟨?_, hrest.2.1, ?_⟩
    · rw [hrest.1, hstep, List.append_assoc, List.singleton_append]
    · rw [hrest.2.2, hstep]
      simp [replayedAll, advance]

/-- From a fresh state, recovery lists the ascending ids it found, after a
segment 0 if that was not among them. -/
theorem recovered_fresh (env : Env) (disk : Disk) (topic : Str) (partition : Int) (ids : List Int)
    (hne : ids ≠ []) (hasc : ids.Pairwise (· < ·)) (hnonneg : ∀ k ∈ ids, 0 ≤ k) :
    let st := ids.foldl (recoverSegment disk topic partition) (freshState env)
    (st.segments = ids ∨ st.segments = 0 :: ids) ∧ st.segments.Pairwise (· < ·) ∧
      st.segments.getLast? = some st.activeSegmentID ∧
      st.nextOffset = advance Record.offset 0 (replayedAll disk topic partition ids) := by
  intro st
  by_cases hzero : ∀ k ∈ ids, 0 < k
  · have hchain : ((freshState env).activeSegmentID :: ids).Pairwise (· < ·) :=
      List.pairwise_cons.mpr ⟨hzero, hasc⟩
    obtain ⟨hseg, hlast, hnext⟩ :=
      foldl_recoverSegment disk topic partition ids (freshState env) rfl hchain
    exact ⟨Or.inr hseg, by rw [hseg]; exact hchain, hlast, hnext⟩
  · cases ids with
    | nil => contradiction
    | cons k rest =>
      have hk : k = 0 := by
        by_contra hk
        apply hzero
        have hk0 := hnonneg k (List.mem_cons_self ..)
        intro j hj
        rcases List.mem_cons.mp hj with rfl | hmem
        · omega
        · have := (List.pairwise_cons.mp hasc).1 j hmem
          omega
      subst hk
      have hstep : recoverSegment disk topic partition (freshState env) 0 =
          movedOver (freshState env) (replayed disk (segmentName topic partition 0)) := by
        simp [recoverSegment, listSegment, freshState]
      obtain ⟨hseg, hlast, hnext⟩ := foldl_recoverSegment disk topic partition rest
        (recoverSegment disk topic partition (freshState env) 0) (by rw [hstep]; rfl)
        (by rw [hstep]; exact hasc)
      have hseg' : st.segments = 0 :: rest := by
        rw [← List.singleton_append]
        exact hseg.trans (by rw [hstep]; rfl)
      refine ⟨Or.inl hseg', by rw [hseg']; exact hasc, hlast, ?_⟩
      refine hnext.trans ?_
      rw [hstep]
      simp [replayedAll, advance, movedOver, freshState]

theorem mem_segmentEntries (env : Env) (disk : Disk) (e : SegmentEntry) :
    e ∈ segmentEntries env disk ↔ (disk.get e.name).isSome ∧ (47 : UInt8) ∉ e.name ∧
      parseSegmentFileName e.name = some (e.topic, e.partition, e.segmentID) := by
  unfold segmentEntries
  simp only [List.mem_filterMap, List.mem_filter, (env.listing_perm _).mem_iff,
    FMap.mem_keys_iff, Option.map_eq_some_iff, decide_eq_true_eq, ← Option.isSome_iff_exists]
  constructor
  · rintro ⟨name, ⟨hfile, hslash⟩, ⟨t, p, k⟩, hparse, rfl⟩
    exact ⟨hfile, hslash, hparse⟩
  · rintro ⟨hfile, hslash, hparse⟩
    exact ⟨e.name, ⟨hfile, hslash⟩, _, hparse, rfl⟩

theorem segmentEntries_nodup (env : Env) (disk : Disk) : (segmentEntries env disk).Nodup := by
  unfold segmentEntries
  refine List.Nodup.filterMap ?_ (((env.listing_perm _).nodup_iff.mpr disk.keys_nodup).filter _)
  intro name name' e he he'
  simp only [Option.mem_def, Option.map_eq_some_iff] at he he'
  obtain ⟨_, _, heq⟩ := he
  obtain ⟨_, _, heq'⟩ := he'
  exact congrArg SegmentEntry.name (heq.trans heq'.symm)

/-- The files that recovery reads are those of the partitions it names. -/
theorem entry_shape (env : Env) (hnames : ∀ name, (disk.get name).isSome → KnownName name)
    {e : SegmentEntry} (he : e ∈ segmentEntries env disk) :
    PartitionKey e.topic e.partition ∧ Natural e.segmentID ∧
      e.name = segmentName e.topic e.partition e.segmentID := by
  obtain ⟨hfile, -, hparse⟩ := (mem_segmentEntries env disk e).mp he
  rcases hnames e.name hfile with ⟨base, hindex⟩ | ⟨t, p, k, hkey, hk, hname⟩
  · rw [hindex, parse_idx] at hparse
    contradiction
  · rw [hname, parse_segmentName t p k hkey.topic_parsable hkey.partition_natural.1
      hkey.partition_natural.2 hk.1 hk.2] at hparse
    simp only [Option.some.injEq, Prod.mk.injEq] at hparse
    obtain ⟨ht, hp, hs⟩ := hparse
    exact ⟨ht ▸ hp ▸ hkey, hs ▸ hk, by rw [hname, ht, hp, hs]⟩

def sortedEntries (env : Env) (disk : Disk) : List SegmentEntry :=
  (segmentEntries env disk).insertionSort (fun a b => entryLe a b = true)

theorem mem_sortedEntries (env : Env) (disk : Disk) (e : SegmentEntry) :
    e ∈ sortedEntries env disk ↔ e ∈ segmentEntries env disk :=
  (List.perm_insertionSort _ _).mem_iff

theorem mem_idsOf_iff (topic : Str) (partition k : Int) (entries : List SegmentEntry) :
    k ∈ idsOf topic partition entries ↔
      ∃ e ∈ entries, e.topic = topic ∧ e.partition = partition ∧ e.segmentID = k := by
  simp [idsOf, and_assoc]

/-- Recovery meets the segments of a partition in order. -/
theorem idsOf_ascending (env : Env) (hnames : ∀ name, (disk.get name).isSome → KnownName name)
    (topic : Str) (partition : Int) :
    (idsOf topic partition (sortedEntries env disk)).Pairwise (· < ·) := by
  have hsorted : (sortedEntries env disk).Pairwise (fun a b => entryLe a b = true) :=
    List.pairwise_insertionSort _ _
  have hle : (idsOf topic partition (sortedEntries env disk)).Pairwise (· ≤ ·) := by
    unfold idsOf
    rw [List.pairwise_map]
    refine (hsorted.filter _).imp_of_mem ?_
    intro a b ha hb hab
    simp only [List.mem_filter, decide_eq_true_eq] at ha hb
    rw [entryLe_iff] at hab
    rcases hab with ⟨hne, -⟩ | ⟨-, hlt | ⟨-, hseg⟩⟩
    · exact absurd (ha.2.1.trans hb.2.1.symm) hne
    · rw [ha.2.2, hb.2.2] at hlt
      omega
    · exact hseg
  have hnodup : (idsOf topic partition (sortedEntries env disk)).Nodup := by
    apply List.Nodup.map_on
    · intro a ha b hb hab
      simp only [List.mem_filter, decide_eq_true_eq, mem_sortedEntries] at ha hb
      have hname : a.name = b.name := by
        rw [(entry_shape env hnames ha.1).2.2, (entry_shape env hnames hb.1).2.2, ha.2.1, ha.2.2,
          hb.2.1, hb.2.2, hab]
      obtain ⟨at', ap, ak, an⟩ := a
      obtain ⟨bt, bp, bk, bn⟩ := b
      simp_all
    · exact ((List.perm_insertionSort _ _).nodup_iff.mpr (segmentEntries_nodup env disk)).filter _
  exact (hle.and hnodup).imp (fun h => lt_of_le_of_ne h.1 h.2)

/-- Recovery finds exactly the segments that have a file. -/
theorem idsOf_eq (env : Env) (hnames : ∀ name, (disk.get name).isSome → KnownName name)
    (hkey : PartitionKey topic partition) (hslash : (47 : UInt8) ∉ topic) {ids : List Int}
    (hascending : ids.Pairwise (· < ·)) (hnatural : ∀ k ∈ ids, Natural k)
    (hexists : ∀ k, Natural k → ((disk.get (segmentName topic partition k)).isSome ↔ k ∈ ids)) :
    idsOf topic partition (sortedEntries env disk) = ids := by
  refine List.Pairwise.eq_of_mem_iff (idsOf_ascending env hnames topic partition) hascending ?_
  intro k
  rw [mem_idsOf_iff]
  constructor
  · rintro ⟨e, he, rfl, rfl, rfl⟩
    rw [mem_sortedEntries] at he
    obtain ⟨-, hk, hname⟩ := entry_shape env hnames he
    have hfile := ((mem_segmentEntries env disk e).mp he).1
    rw [hname] at hfile
    exact (hexists _ hk).mp hfile
  · intro hk
    have hnat := hnatural k hk
    refine ⟨⟨topic, partition, k, segmentName topic partition k⟩, ?_, rfl, rfl, rfl⟩
    rw [mem_sortedEntries, mem_segmentEntries]
    exact ⟨(hexists k hnat).mpr hk,
      slash_not_mem_segmentName topic partition k hslash hnat.1,
      parse_segmentName topic partition k hkey.topic_parsable hkey.partition_natural.1
        hkey.partition_natural.2 hnat.1 hnat.2⟩

theorem foldl_loadEntry_disk (env : Env) (entries : List SegmentEntry) (s : Storage) (name : Str)
    (h : ¬ IsIndex name) : (entries.foldl (loadEntry env) s).disk.get name = s.disk.get name := by
  induction entries generalizing s with
  | nil => rfl
  | cons e rest ih => rw [List.foldl_cons, ih, loadEntry_disk env s e name h]

theorem wellNamed_foldl_loadEntry (env : Env) (entries : List SegmentEntry)
    (hkeys : ∀ e ∈ entries, PartitionKey e.topic e.partition) (s : Storage) (h : WellNamed s) :
    WellNamed (entries.foldl (loadEntry env) s) := by
  induction entries generalizing s with
  | nil => exact h
  | cons e rest ih =>
    refine ih (fun e' he' => hkeys e' (List.mem_cons_of_mem _ he')) _ ?_
    exact h.keep (hkeys e (List.mem_cons_self ..)) (loadEntry_local env s e)

theorem loadData_eq {env : Env} (hok : Succeeds env) (s : Storage) :
    loadData env s = (sortedEntries env s.disk).foldl (loadEntry env) s := by
  simp [loadData, hok.mkdir, hok.readDir, sortedEntries]

def loaded (env : Env) (settings : Settings) (disk : Disk) : Storage :=
  loadData env ⟨settings, FMap.empty, FMap.empty, disk⟩

section Restart

theorem sortedEntries_shape (env : Env) (hnames : ∀ name, (disk.get name).isSome → KnownName name) :
    ∀ e ∈ sortedEntries env disk, e.name = segmentName e.topic e.partition e.segmentID :=
  fun e he => (entry_shape env hnames ((mem_sortedEntries env disk e).mp he)).2.2

theorem foldl_settings {ι : Type} {f : Storage → ι → Storage}
    (h : ∀ s x, (f s x).settings = s.settings) (l : List ι) (s : Storage) :
    (l.foldl f s).settings = s.settings :=
  List.foldlRecOn (motive := fun s' : Storage => s'.settings = s.settings) l f rfl
    (fun s' hs' x _ => (h s' x).trans hs')

theorem enforceRetention_settings (env : Env) (s : Storage) :
    (enforceRetentionLocked env s).settings = s.settings :=
  foldl_settings (fun s key => (retainPartition_local env s key).settings) _ s

theorem loaded_settings (env : Env) (settings : Settings) (disk : Disk) :
    (loaded env settings disk).settings = settings := by
  unfold loaded loadData
  split
  · exact foldl_settings (fun s e => (loadEntry_local env s e).settings) _ _
  · rfl

variable {env : Env} {disk : Disk} (settings : Settings) (hok : Succeeds env)
  (hnames : ∀ name, (disk.get name).isSome → KnownName name)

include hok hnames

theorem wellNamed_loadData :
    WellNamed (loadData env ⟨settings, FMap.empty, FMap.empty, disk⟩) := by
  rw [loadData_eq hok]
  refine wellNamed_foldl_loadEntry env _ ?_ _ ⟨hnames, fun t p h => by simp at h⟩
  intro e he
  exact (entry_shape env hnames ((mem_sortedEntries env disk e).mp he)).1

/-- Loading the data directory represents the log that its files hold. -/
theorem holds_loadData {L : PartitionLog} (hkey : PartitionKey topic partition)
    (hslash : (47 : UInt8) ∉ topic) (hstored : Stored disk topic partition L) :
    Holds (loadData env ⟨settings, FMap.empty, FMap.empty, disk⟩) topic partition L := by
  have hload := foldl_loadEntry env topic partition _ (sortedEntries_shape env hnames)
    ⟨settings, FMap.empty, FMap.empty, disk⟩
  rw [idsOf_eq env hnames hkey hslash L.ascending hstored.ids_natural
    (fun k hk => hstored.exists_iff hk), show L.segments.map Prod.fst = L.ids from rfl] at hload
  simp only [messagesOf, get2_empty, Option.getD_none, List.nil_append, stateOf,
    hstored.replayedAll_ids] at hload
  rw [loadData_eq hok]
  refine ⟨?_, hload.1, ?_, ?_⟩
  · exact hstored.congr (fun k => foldl_loadEntry_disk env _ _ _
      (segmentName_not_isIndex topic partition k))
  · intro hnone
    rw [hload.2] at hnone
    by_contra hne
    simp [hne] at hnone
  · intro st hst
    rw [hload.2] at hst
    split at hst
    · contradiction
    · rename_i hne
      rw [Option.some.injEq] at hst
      obtain ⟨hseg, hasc, hactive, hnext⟩ := recovered_fresh env disk topic partition L.ids hne
        L.ascending (fun k hk => (hstored.ids_natural k hk).1)
      rw [hst] at hseg hasc hactive hnext
      rw [hstored.replayedAll_ids, advance_entries] at hnext
      exact ⟨hseg, hasc, hactive, hnext⟩

end Restart

end Flux.StorageRecovery
