import Flux.IndexHistories
import Flux.IntactRuns

/-!
Bounds on the segment files of a partition. A file is within the segment limit or has
one record only, and the files together are within the retention limit unless one is
left. Retention removes files from the front, and a pass over the sizes removes one
only while the files that are left are over the limit.
-/
namespace Flux.RetentionBounds

open GoStrings LogLines SegmentNames FiniteMap PartitionStorage StorageFrames StorageReplay
open StorageAppends StorageRecovery SegmentFiles SegmentRuns TornTails SegmentMirrors

/-- One segment is left, or all are within the limit. -/
def Within (limit : Int) (segments : Segments) : Prop :=
  segments.length ≤ 1 ∨ bytes (written segments) ≤ limit

/-- What a pass over the sizes leaves: no more than it may, and no less than it must. -/
structure Sized (limit : Int) (segments segments' : Segments) : Prop where
  within : Within limit segments'
  needed : ∀ kept, kept <:+ segments → segments' <:+ kept → kept ≠ segments' →
    limit < bytes (written kept)

section Sums

variable {disk : Disk} {topic : Str} {partition : Int} {segments : Segments}

theorem fileSize_unlisted (h : OnDisk disk topic partition (written segments)) {k : Int}
    (hk : Natural k) (hnot : k ∉ segments.map Prod.fst) :
    fileSize disk (segmentName topic partition k) = 0 := by
  have htext := h.texts k hk
  rw [lookup_eq_none (by rwa [map_fst_written]), Option.map_eq_none_iff] at htext
  rw [fileSize, htext]

/-- The total that the pass over the sizes computes. -/
theorem listed_bytes {st : PartitionState} (h : OnDisk disk topic partition (written segments))
    (hspans : Spans st segments) :
    (st.segments.map (fun k => fileSize disk (segmentName topic partition k))).sum =
      bytes (written segments) := by
  have hnodup : st.segments.Nodup := hspans.ascending.imp (fun hlt => hlt.ne)
  rw [List.sum, List.foldr_map, foldr_of_sublist hspans.listed hnodup (fun k hk hnot n => by
      rw [fileSize_unlisted h (hspans.natural k hk) hnot, Int.zero_add]),
    ← map_fst_written, List.foldr_map, bytes,
    ← List.map_congr_left (fun f hf => fileSize_eq h hf), List.sum, List.foldr_map]

theorem bytes_cons (k : Int) (rs : List Record) (segments : Segments) :
    bytes (written ((k, rs) :: segments)) =
      ((rs.flatMap formatLine).length : Int) + bytes (written segments) := by
  simp [bytes, written]

end Sums

section Passes

variable (env : Env) {s : Storage} {topic : Str} {partition : Int} {segments : Segments}

/-- What a pass of retention leaves of a partition, of which `P` holds. -/
def Leaves (topic : Str) (partition : Int) (P : Segments → Prop) (segments : Segments)
    (s s' : Storage) : Prop :=
  ∃ segments', Mirrors s' topic partition segments' ∧
    activeOf s' topic partition = activeOf s topic partition ∧
    Dropped (activeOf s topic partition) segments segments' ∧ P segments'

theorem sized_self {limit : Int} (h : Within limit segments) : Sized limit segments segments where
  within := h
  needed _ hkept hself hne :=
    absurd (hkept.eq_of_length_le hself.length_le) hne

/-- Loading and retention read the settings only. -/
theorem closed_settings (topic : Str) (partition : Int) :
    Closed env topic partition (fun s s' => s'.settings = s.settings) where
  refl _ := rfl
  trans h h' := h'.trans h
  state _ _ := rfl
  data _ _ := rfl
  indexes _ _ _ := rfl

theorem deleteSegment_settings (s : Storage) (topic : Str) (partition : Int) (st : PartitionState)
    (segID : Int) : (deleteSegment env s topic partition st segID).settings = s.settings :=
  (closed_settings env topic partition).deleteSegment (fun _ _ => rfl) s st segID

/-- A pass over the sizes stops as soon as the rest fits. -/
theorem sizeLoop_sized (hkey : PartitionKey topic partition) (ids : List Int) (total : Int)
    (h : Mirrors s topic partition segments) {st : PartitionState}
    (hst : get2 s.partitionState topic partition = some st) (hseg : st.segments = ids)
    (htotal : total = bytes (written segments)) :
    Leaves topic partition (Sized s.settings.retentionMaxBytes segments) segments s
      (sizeLoop env topic partition ids total s) := by
  fun_induction sizeLoop env topic partition ids total s generalizing segments st with
  | case1 segID next rest total s hbig ih =>
    rw [stateOf_eq env topic partition hst] at ih ⊢
    obtain ⟨st₁, hst₁, hseg₁⟩ := deleteSegment_segments env s topic partition st segID
    obtain ⟨segments₁, hmirrors, hactive, hdropped, hfirst⟩ :=
      deleteSegment_first env hkey h hst hseg
    obtain ⟨hspans, -⟩ := h.tracked st hst
    have hnatural : Natural segID := by
      apply hspans.natural segID
      rw [hseg]
      exact List.mem_cons_self ..
    have hsize : total - fileSize s.disk (segmentName topic partition segID) =
        bytes (written segments₁) := by
      rcases hfirst with ⟨hnot, rfl⟩ | ⟨rs, rfl⟩
      · rw [fileSize_unlisted h.onDisk hnatural hnot, htotal, Int.sub_zero]
      · rw [htotal, bytes_cons, fileSize_eq (f := (segID, rs.flatMap formatLine)) h.onDisk
          (by simp [written])]
        dsimp only
        omega
    obtain ⟨segments₂, hmirrors₂, hactive₂, hdropped₂, hsized⟩ :=
      ih hmirrors hst₁ (by simp [hseg₁, hseg]) hsize
    rw [deleteSegment_settings] at hsized
    rw [hactive] at hactive₂ hdropped₂
    refine ⟨segments₂, hmirrors₂, hactive₂, hdropped.trans hdropped₂, hsized.within, ?_⟩
    intro kept hkept hleft hne
    rcases hfirst with ⟨-, rfl⟩ | ⟨rs, rfl⟩
    · exact hsized.needed kept hkept hleft hne
    · rcases List.suffix_cons_iff.mp hkept with rfl | hshorter
      · rw [← htotal]
        exact hbig
      · exact hsized.needed kept hshorter hleft hne
  | case2 segID next rest total s hsmall =>
    refine ⟨segments, h, rfl, Dropped.refl _ _, sized_self (.inr ?_)⟩
    rw [← htotal]
    exact Int.not_lt.mp hsmall
  | case3 ids total s hshort =>
    obtain ⟨hspans, -⟩ := h.tracked st hst
    have hlength := hspans.listed.length_le
    rw [List.length_map, hseg] at hlength
    refine ⟨segments, h, rfl, Dropped.refl _ _, sized_self (.inl (hlength.trans ?_))⟩
    rcases ids with _ | ⟨segID, _ | ⟨next, rest⟩⟩
    · exact Nat.zero_le 1
    · exact Nat.le_refl 1
    · exact absurd rfl (hshort segID next rest)

/-- The pass over the sizes, with a positive limit. -/
theorem applySizeRetention_sized (hkey : PartitionKey topic partition)
    (hlimit : 0 < s.settings.retentionMaxBytes) (h : Mirrors s topic partition segments) :
    Leaves topic partition (Sized s.settings.retentionMaxBytes segments) segments s
      (applySizeRetention env s topic partition) := by
  unfold applySizeRetention
  rw [if_neg (Int.not_le.mpr hlimit)]
  cases hst : get2 s.partitionState topic partition with
  | none =>
    have hfresh : stateOf env s topic partition = freshState env := by simp [stateOf, hst]
    have hnil := h.untracked hst
    rw [hfresh]
    refine ⟨segments, h, rfl, Dropped.refl _ _, sized_self (.inl ?_)⟩
    rw [hnil]
    exact Nat.zero_le 1
  | some st =>
    rw [stateOf_eq env topic partition hst]
    exact sizeLoop_sized env hkey st.segments _ h hst rfl
      (listed_bytes h.onDisk (h.tracked st hst).1)

theorem bytes_append (front segments : Segments) :
    bytes (written (front ++ segments)) = bytes (written front) + bytes (written segments) := by
  simp [bytes, written]

theorem bytes_nonneg (segments : Segments) : 0 ≤ bytes (written segments) := by
  induction segments with
  | nil => exact Int.le_refl 0
  | cons g rest ih =>
    rw [bytes_cons g.1 g.2]
    omega

theorem Within.suffix {limit : Int} {segments' : Segments} (h : Within limit segments)
    (hsuffix : segments' <:+ segments) : Within limit segments' := by
  rcases h with hone | hsmall
  · exact .inl (hsuffix.length_le.trans hone)
  · obtain ⟨front, rfl⟩ := hsuffix
    have hfront := bytes_nonneg front
    rw [bytes_append] at hsmall
    exact .inr (by omega)

/-- A retention pass leaves a partition within its limit. -/
theorem retainPartition_within (hkey : PartitionKey topic partition)
    (hlimit : 0 < s.settings.retentionMaxBytes) (h : Mirrors s topic partition segments) :
    Leaves topic partition (Within s.settings.retentionMaxBytes) segments s
      (retainPartition env s (topic, partition)) := by
  have hsettings : (applyAgeRetention env s topic partition).settings = s.settings :=
    (trims_closed (closed_settings env topic partition) (fun _ _ => rfl) s).applyAgeRetention rfl
  obtain ⟨aged, hmirrors, hactive, hdropped⟩ :=
    (trims_retains env hkey s segments).applyAgeRetention h.retains
  obtain ⟨segments', hmirrors', hactive', hdropped', hsized⟩ :=
    applySizeRetention_sized env hkey (hsettings ▸ hlimit) hmirrors
  rw [hsettings] at hsized
  rw [hactive] at hactive' hdropped'
  exact ⟨segments', hmirrors', hactive', hdropped.trans hdropped', hsized.within⟩

/-- Retention brings every partition within the limit. -/
theorem enforceRetention_within (hnamed : WellNamed s) (hkey : PartitionKey topic partition)
    (hlimit : 0 < s.settings.retentionMaxBytes) (h : Mirrors s topic partition segments) :
    Leaves topic partition (Within s.settings.retentionMaxBytes) segments s
      (enforceRetentionLocked env s) := by
  cases hst : get2 s.partitionState topic partition with
  | none =>
    obtain ⟨segments', hmirrors, hactive, hdropped⟩ := retains_enforceRetention env hnamed hkey h
    refine ⟨segments', hmirrors, hactive, hdropped, .inl (hdropped.suffix.length_le.trans ?_)⟩
    rw [h.untracked hst]
    exact Nat.zero_le 1
  | some st =>
    have hkeys := visited_keys env hnamed
    have hmem : (topic, partition) ∈ env.visit (stateKeys s) := by
      rw [(env.visit_perm _).mem_iff, mem_stateKeys_iff]
      exact Option.isSome_iff_exists.mpr ⟨st, hst⟩
    obtain ⟨front, back, hsplit⟩ := List.append_of_mem hmem
    rw [enforceRetentionLocked, hsplit, List.foldl_append, List.foldl_cons]
    rw [hsplit] at hkeys
    have hsettings : (front.foldl (retainPartition env) s).settings = s.settings :=
      foldl_settings (fun s key => (retainPartition_local env s key).settings) front s
    obtain ⟨segments₁, hmirrors₁, hactive₁, hdropped₁⟩ := retains_visits env hkey
      (fun key hkey' => hkeys key (List.mem_append_left _ hkey')) h
    obtain ⟨segments₂, hmirrors₂, hactive₂, hdropped₂, hwithin⟩ :=
      retainPartition_within env hkey (hsettings ▸ hlimit) hmirrors₁
    have hback : ∀ key ∈ back, PartitionKey key.1 key.2 :=
      fun key hkey' => hkeys key (List.mem_append_right _ (List.mem_cons_of_mem _ hkey'))
    obtain ⟨segments₃, hmirrors₃, hactive₃, hdropped₃⟩ := retains_visits env hkey hback hmirrors₂
    rw [hsettings] at hwithin
    rw [hactive₁] at hactive₂ hdropped₂
    rw [hactive₂] at hactive₃ hdropped₃
    exact ⟨segments₃, hmirrors₃, hactive₃, (hdropped₁.trans hdropped₂).trans hdropped₃,
      hwithin.suffix hdropped₃.suffix⟩

end Passes

end Flux.RetentionBounds
