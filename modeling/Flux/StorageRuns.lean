import Flux.Runs
import Flux.StorageCalls

/-!
Runs of the storage from an empty data directory. In every state of a run each
partition represents a segmented log, so the memory, the write state and the
files agree, the next offset never goes back and no offset is given out twice.
-/
namespace Flux.StorageRuns

open GoStrings FiniteMap PartitionStorage SegmentedLogs Runs
open StorageFrames StorageRefinement StorageAppends StorageRecovery StorageCalls

theorem stored_empty (topic : Str) (partition : Int) :
    Stored FMap.empty topic partition SegmentedLog.empty where
  ids_natural k hk := absurd hk List.not_mem_nil
  loggable r hr := absurd hr List.not_mem_nil
  files k _ := by
    rw [FMap.get_empty]
    rfl

/-- An empty data directory holds an empty log for every partition. -/
theorem sound_empty {env : Env} (hok : Succeeds env) (settings : Settings) :
    Sound 0 (newStorage env settings FMap.empty) := by
  have hnames : ∀ name, ((FMap.empty : Disk).get name).isSome → KnownName name := by simp
  have hnamed := wellNamed_loadData settings hok hnames
  refine ⟨wellNamed_enforceRetention env hnamed, ?_⟩
  intro t p ht hp
  have hload := holds_loadData settings hok hnames (ht.key hp) ht.no_slash (stored_empty t p)
  obtain ⟨L, hL, htrim⟩ := holds_enforceRetention env hnamed (ht.key hp) hload
  refine ⟨L, hL, by rw [htrim.next]; rfl, ?_⟩
  intro k hk
  exact absurd (htrim.ids.subset hk) List.not_mem_nil

theorem admissible_plain {s : Storage} {c : Call} (h : Admissible s c) {t : Str} {p : Int}
    (hc : c.partition = some (t, p)) : Plain t ∧ Natural p := by
  cases c with
  | produce env topic partition value =>
    obtain ⟨rfl, rfl⟩ := Prod.mk.inj (Option.some.inj hc)
    exact ⟨h.2.1, h.2.2.1⟩
  | replicate env topic partition offset value =>
    obtain ⟨rfl, rfl⟩ := Prod.mk.inj (Option.some.inj hc)
    exact ⟨h.2.1, h.2.2.1⟩
  | retain env => simp [Call.partition] at hc
  | restart env settings => simp [Call.partition] at hc

theorem produceToPartition_partition (env : Env) (s : Storage) (topic : Str) (partition : Int)
    (value : Str) : (produceToPartition env s topic partition value).2.1 = partition := by
  unfold produceToPartition
  dsimp only
  split
  · split <;> rfl
  · rfl

/-- A call takes offsets of its own partition only. -/
theorem taken_partition {s : Storage} {c : Call} {t : Str} {p o : Int}
    (h : taken s c = some (t, p, o)) : c.partition = some (t, p) := by
  cases c with
  | produce env topic partition value =>
    simp only [taken, Option.some.injEq] at h
    obtain ⟨ht, hrest⟩ := Prod.mk.inj h
    have hp := congrArg Prod.fst hrest
    rw [produceToPartition_partition] at hp
    rw [Call.partition, ht, hp]
  | replicate env topic partition offset value =>
    simp only [taken] at h
    split at h
    · simp only [Option.some.injEq, Prod.mk.injEq] at h
      simp [Call.partition, h.1, h.2.1]
    · contradiction
  | retain env => simp [taken] at h
  | restart env settings => simp [taken] at h

def reached (env : Env) (settings : Settings) (calls : List Call) : Storage :=
  run step (newStorage env settings FMap.empty) calls

theorem sound_step (n : ℕ) (s : Storage) (c : Call) (hn : n + 1 < 2 ^ 63) (hsound : Sound n s)
    (hadm : Admissible s c) : Sound (n + 1) (step s c) :=
  (step_spec hsound hn c hadm).sound

theorem sound_reached {env : Env} (hok : Succeeds env) (settings : Settings) {calls : List Call}
    (hvalid : Valid step Admissible (newStorage env settings FMap.empty) calls)
    (hlength : calls.length < 2 ^ 63) : Sound (0 + calls.length) (reached env settings calls) :=
  run_counted sound_step (sound_empty hok settings) hvalid (by omega)

def Free (s : Storage) (key : Str × Int × Int) : Prop :=
  Plain key.1 ∧ Natural key.2.1 ∧ nextOffsetOf s key.1 key.2.1 ≤ key.2.2

theorem step_uses (n : ℕ) (s : Storage) (c : Call) (hn : n + 1 < 2 ^ 63) (hsound : Sound n s)
    (hadm : Admissible s c) : Sound (n + 1) (step s c) ∧
      (∀ key, Free (step s c) key → Free s key) ∧
      (∀ key, taken s c = some key → Free s key ∧ ¬ Free (step s c) key) := by
  have hspec := step_spec hsound hn c hadm
  refine ⟨hspec.sound, ?_, ?_⟩
  · rintro ⟨t, p, o⟩ ⟨ht, hp, hle⟩
    exact ⟨ht, hp, (hspec.next_le ht hp).trans hle⟩
  · rintro ⟨t, p, o⟩ htaken
    obtain ⟨ht, hp⟩ := admissible_plain hadm (taken_partition htaken)
    rw [htaken] at hspec
    obtain ⟨hbefore, hafter⟩ := hspec.takes ht hp
    refine ⟨⟨ht, hp, hbefore.le⟩, ?_⟩
    rintro ⟨-, -, hle⟩
    dsimp only at hle
    omega

/-- In every state of a run from an empty directory the partitions that calls
name are consistent, their next offset is not above any later one, and no
offset of a partition is taken twice. The run has fewer calls than there are
machine integers to count them. -/
theorem storage_runs_consistent {env : Env} (hok : Succeeds env) (settings : Settings)
    (calls later : List Call)
    (hvalid : Valid step Admissible (newStorage env settings FMap.empty) (calls ++ later))
    (hlength : (calls ++ later).length < 2 ^ 63) :
    (∀ t p, (∃ c ∈ calls ++ later, c.partition = some (t, p)) →
      Consistent (reached env settings calls) t p ∧
        nextOffsetOf (reached env settings calls) t p ≤
          nextOffsetOf (reached env settings (calls ++ later)) t p) ∧
    (outputs step taken (newStorage env settings FMap.empty) (calls ++ later)).Nodup := by
  obtain ⟨hfront, hback⟩ := (valid_append step Admissible _ calls later).mp hvalid
  rw [List.length_append] at hlength
  have hsound := sound_reached hok settings hfront (by omega)
  refine ⟨?_, ?_⟩
  · rintro t p ⟨c, hc, hkey⟩
    obtain ⟨s, hadm⟩ := valid_mem hvalid hc
    obtain ⟨ht, hp⟩ := admissible_plain hadm hkey
    obtain ⟨L, hL, -⟩ := hsound.logs t p ht hp
    refine ⟨consistent_of_holds hL, ?_⟩
    have hstep : ∀ n s c, n + 1 < 2 ^ 63 → Sound n s → Admissible s c →
        Sound (n + 1) (step s c) ∧ nextOffsetOf s t p ≤ nextOffsetOf (step s c) t p :=
      fun n s c hn hs hc => ⟨sound_step n s c hn hs hc, (step_spec hs hn c hc).next_le ht hp⟩
    rw [reached, reached, run_append]
    exact run_monotone (fun s => nextOffsetOf s t p) hstep hsound hback (by omega)
  · exact outputs_nodup step_uses (sound_empty hok settings) hvalid
      (by rw [List.length_append]; omega)

theorem orders_plain : Plain (lit "orders") := ⟨by decide, by decide, by decide, by decide⟩

theorem zero_natural : Natural 0 := ⟨by decide, by decide⟩

def twoRecords : List Call :=
  [.produce (calm 1) (lit "orders") 0 (lit "a"), .restart (calm 2) defaultSettings,
    .produce (calm 3) (lit "orders") 0 (lit "b")]

theorem valid_twoRecords :
    Valid step Admissible (newStorage (calm 0) defaultSettings FMap.empty) twoRecords := by
  refine ⟨⟨calm_succeeds 1, orders_plain, zero_natural, ⟨by decide, by decide⟩, ?_⟩,
    calm_succeeds 2,
    ⟨calm_succeeds 3, orders_plain, zero_natural, ⟨by decide, by decide⟩, ?_⟩, trivial⟩
  · unfold Fits
    decide
  · unfold Fits
    decide

/-- A run with a restart between two appends. -/
theorem storage_runs_consistent_restart :
    Consistent (reached (calm 0) defaultSettings (twoRecords.take 2)) (lit "orders") 0 ∧
      Consistent (reached (calm 0) defaultSettings twoRecords) (lit "orders") 0 := by
  have hparts : twoRecords.take 2 ++ twoRecords.drop 2 = twoRecords := List.take_append_drop ..
  constructor
  · refine ((storage_runs_consistent (calm_succeeds 0) defaultSettings (twoRecords.take 2)
      (twoRecords.drop 2) ?_ (by decide)).1 (lit "orders") 0 ⟨_, List.mem_cons_self .., rfl⟩).1
    rw [hparts]
    exact valid_twoRecords
  · refine ((storage_runs_consistent (calm_succeeds 0) defaultSettings twoRecords []
      ?_ (by decide)).1 (lit "orders") 0 ⟨_, List.mem_cons_self .., rfl⟩).1
    rw [List.append_nil]
    exact valid_twoRecords

end Flux.StorageRuns
