import Flux.StorageRecovery

/-!
The calls a storage receives: appends by producers and by replication workers,
retention passes, and restarts on the same data directory. Each admissible call
follows one specification: a log may grow by one record at its end and may lose
segments at its front, and every other log keeps its next offset.
-/
namespace Flux.StorageCalls

open GoRuntime GoStrings LogLines SegmentNames FiniteMap PartitionStorage SegmentedLogs
open StorageFrames StorageReplay StorageRefinement StorageAppends StorageRecovery

inductive Call
  | produce (env : Env) (topic : Str) (partition : Int) (value : Str)
  | replicate (env : Env) (topic : Str) (partition offset : Int) (value : Str)
  | retain (env : Env)
  | restart (env : Env) (settings : Settings)

def step (s : Storage) : Call → Storage
  | .produce env topic partition value => (produceToPartition env s topic partition value).1
  | .replicate env topic partition offset value =>
      (appendReplicated env s topic partition offset value).1
  | .retain env => enforceRetentionLocked env s
  | .restart env settings => newStorage env settings s.disk

def Call.partition : Call → Option (Str × Int)
  | .produce _ topic partition _ => some (topic, partition)
  | .replicate _ topic partition _ _ => some (topic, partition)
  | .retain _ => none
  | .restart _ _ => none

def taken (s : Storage) : Call → Option (Str × Int × Int)
  | .produce env topic partition value =>
      some (topic, (produceToPartition env s topic partition value).2)
  | .replicate env topic partition offset value =>
      if (stateOf env s topic partition).nextOffset ≤ offset ∧
          (appendReplicated env s topic partition offset value).2 = none
      then some (topic, partition, offset) else none
  | .retain _ => none
  | .restart _ _ => none

/-- Topic names that make no trouble in file names. -/
structure Plain (topic : Str) : Prop where
  nonempty : topic ≠ []
  no_slash : (47 : UInt8) ∉ topic
  no_segment : ¬ lit "-segment" <:+: topic
  no_replica : ¬ lit "-replica" <:+: topic

structure LineSafe (value : Str) : Prop where
  no_newline : (10 : UInt8) ∉ value
  no_return : value.getLast? ≠ some 13

def Fits (env : Env) (offset : Int) (value : Str) : Prop :=
  (formatLine ⟨offset, unixMilli env.stamp, value⟩).length ≤ maxScanTokenSize

def Admissible (s : Storage) : Call → Prop
  | .produce env topic partition value =>
      Succeeds env ∧ Plain topic ∧ Natural partition ∧ LineSafe value ∧
        Fits env (stateOf env s topic partition).nextOffset value
  | .replicate env topic partition offset value =>
      Succeeds env ∧ Plain topic ∧ Natural partition ∧ LineSafe value ∧
        (offset = (stateOf env s topic partition).nextOffset → Fits env offset value)
  | .retain env => Succeeds env
  | .restart env _ => Succeeds env

def nextOffsetOf (s : Storage) (topic : Str) (partition : Int) : Int :=
  match get2 s.partitionState topic partition with
  | some st => st.nextOffset
  | none => 0

/-- The memory, the write state and the files of a partition agree. -/
structure Consistent (s : Storage) (topic : Str) (partition : Int) : Prop where
  consecutive : Consecutive Message.offset (messagesOf s topic partition)
  untracked : get2 s.partitionState topic partition = none → messagesOf s topic partition = []
  replays : ∀ st, get2 s.partitionState topic partition = some st →
    messagesOf s topic partition =
      (replayedAll s.disk topic partition st.segments).map toMessage
  ascending : ∀ st, get2 s.partitionState topic partition = some st →
    st.segments.Pairwise (· < ·) ∧ st.segments.getLast? = some st.activeSegmentID
  next : nextOffsetOf s topic partition = lastOffset s topic partition + 1

section Logs

variable {s : Storage} {topic : Str} {partition : Int} {L : PartitionLog}

theorem Plain.key (h : Plain topic) (hp : Natural partition) : PartitionKey topic partition :=
  ⟨⟨h.nonempty, h.no_segment⟩, hp⟩

theorem nextOffsetOf_eq (h : Holds s topic partition L) :
    nextOffsetOf s topic partition = L.next := by
  unfold nextOffsetOf
  split
  · rename_i st hst
    exact (h.tracked st hst).next
  · rename_i hnone
    rw [SegmentedLog.next, L.entries_eq_nil (h.untracked hnone), after_nil]

theorem stateOf_next (env : Env) (h : Holds s topic partition L) :
    (stateOf env s topic partition).nextOffset = L.next := by
  rw [← nextOffsetOf_eq h, stateOf, nextOffsetOf]
  cases get2 s.partitionState topic partition with
  | none => rfl
  | some st => rfl

theorem consecutive_map (h : Consecutive Record.offset L.entries) :
    Consecutive Message.offset (L.entries.map toMessage) := by
  unfold Consecutive at h ⊢
  rw [List.isChain_map]
  exact h

theorem lastOffset_eq (h : Holds s topic partition L) :
    lastOffset s topic partition + 1 = L.next := by
  rw [lastOffset, h.messages, List.getLast?_map, SegmentedLog.next, after]
  cases L.entries.getLast? with
  | none => rfl
  | some r => rfl

theorem consistent_of_holds (h : Holds s topic partition L) : Consistent s topic partition where
  consecutive := by
    rw [h.messages]
    exact consecutive_map L.consecutive
  untracked hnone := by
    rw [h.messages, L.entries_eq_nil (h.untracked hnone)]
    rfl
  replays st hst := by
    have htrack := h.tracked st hst
    rw [h.messages, h.stored.replayedAll_eq htrack.segments htrack.ascending]
  ascending st hst := ⟨(h.tracked st hst).ascending, (h.tracked st hst).active⟩
  next := by rw [nextOffsetOf_eq h, lastOffset_eq h]

end Logs

def Evolves (L L' : PartitionLog) : Prop :=
  ∃ L₁, (L₁ = L ∨ ∃ r, Grown L r L₁) ∧ Trimmed L₁ L'

structure Bounded (n : ℕ) (L : PartitionLog) : Prop where
  next : L.next ≤ n
  ids : ∀ k ∈ L.ids, k ≤ n

theorem Evolves.next_le {L L' : PartitionLog} (h : Evolves L L') : L.next ≤ L'.next := by
  obtain ⟨L₁, rfl | ⟨r, hgrown⟩, htrim⟩ := h
  · rw [htrim.next]
  · rw [htrim.next, hgrown.next]
    omega

theorem Evolves.bounded {L L' : PartitionLog} {n : ℕ} (h : Evolves L L') (hb : Bounded n L) :
    Bounded (n + 1) L' := by
  have hnext := hb.next
  obtain ⟨L₁, rfl | ⟨r, hgrown⟩, htrim⟩ := h
  · refine ⟨by rw [htrim.next]; omega, fun k hk => ?_⟩
    have := hb.ids k (htrim.ids.subset hk)
    omega
  · refine ⟨by rw [htrim.next, hgrown.next]; omega, fun k hk => ?_⟩
    have := hgrown.ids n (by omega) hb.ids k (htrim.ids.subset hk)
    omega

theorem Bounded.loggable {L : PartitionLog} {n : ℕ} (hb : Bounded n L) (hn : n + 1 < 2 ^ 63)
    {env : Env} {value : Str} (hsafe : LineSafe value) (hfits : Fits env L.next value) :
    Loggable ⟨L.next, unixMilli env.stamp, value⟩ where
  offset_range := by
    have hlow := L.next_nonneg
    have hhigh := hb.next
    unfold InInt64
    dsimp only
    omega
  timestamp_range := unixMilli_inInt64 env.stamp
  no_newline := hsafe.no_newline
  no_return := hsafe.no_return
  fits := hfits

theorem Bounded.room {L : PartitionLog} {n : ℕ} (hb : Bounded n L) (hn : n + 1 < 2 ^ 63) :
    ∀ k ∈ L.ids, k + 1 < 2 ^ 63 := by
  intro k hk
  have := hb.ids k hk
  omega

section Elsewhere

variable {topic t : Str} {partition p : Int}

theorem not_writes (ht : Plain t) (hp : Natural p) (hkey : PartitionKey topic partition)
    (hne : (t, p) ≠ (topic, partition)) (k : Int) :
    ¬ Writes topic partition (segmentName t p k) := by
  rintro (howned | ⟨id, j, hid, hname⟩)
  · exact not_owned (ht.key hp) hkey hne k howned
  · rw [replicaSegmentName_eq] at hname
    have htopic := (segmentName_partition_injective (ht.key hp).topic_parsable
      (replicaTopic_parsable topic partition hkey.topic_parsable hkey.partition_natural.1)
      hp.1 hid hname).1
    exact ht.no_replica (htopic ▸ replica_infix_replicaTopic topic partition)

end Elsewhere

/-- Every partition represents a log whose counters are at most `n`. -/
structure Sound (n : ℕ) (s : Storage) : Prop where
  named : WellNamed s
  logs : ∀ t p, Plain t → Natural p → ∃ L, Holds s t p L ∧ Bounded n L

structure StepSpec (n : ℕ) (s s' : Storage) (took : Option (Str × Int × Int)) : Prop where
  named : WellNamed s'
  logs : ∀ t p, Plain t → Natural p → ∃ L L', Holds s t p L ∧ Bounded n L ∧ Holds s' t p L' ∧
    Evolves L L' ∧ ∀ o, took = some (t, p, o) → o = L.next ∧ L'.next = L.next + 1

section Steps

variable {s : Storage} {n : ℕ} (hsound : Sound n s)

include hsound

theorem retained_spec (env : Env) : StepSpec n s (enforceRetentionLocked env s) none where
  named := wellNamed_enforceRetention env hsound.named
  logs t p ht hp := by
    obtain ⟨L, h, hb⟩ := hsound.logs t p ht hp
    obtain ⟨L', hL', htrim⟩ := holds_enforceRetention env hsound.named (ht.key hp) h
    exact ⟨L, L', h, hb, hL', ⟨L, Or.inl rfl, htrim⟩, by simp⟩

/-- An append followed by retention. -/
theorem appended_spec (env : Env) {s' : Storage} {topic : Str} {partition : Int} {L : PartitionLog}
    {r : Record} (ht : Plain topic) (hp : Natural partition) (h : Holds s topic partition L)
    (hb : Bounded n L) (happ : Appends topic partition L r s s') :
    StepSpec n s (enforceRetentionLocked env s') (some (topic, partition, L.next)) := by
  obtain ⟨L₁, hgrown, hholds, hlocal⟩ := happ
  have hnamed := hsound.named.keep (ht.key hp) hlocal
  refine ⟨wellNamed_enforceRetention env hnamed, ?_⟩
  intro t p ht' hp'
  by_cases hown : (t, p) = (topic, partition)
  · obtain ⟨rfl, rfl⟩ := Prod.mk.inj hown
    obtain ⟨L', hL', htrim⟩ := holds_enforceRetention env hnamed (ht'.key hp') hholds
    refine ⟨L, L', h, hb, hL', ⟨L₁, Or.inr ⟨r, hgrown⟩, htrim⟩, ?_⟩
    intro o ho
    simp only [Option.some.injEq, Prod.mk.injEq, true_and] at ho
    exact ⟨ho.symm, by rw [htrim.next, hgrown.next]⟩
  · obtain ⟨M, hM, hbM⟩ := hsound.logs t p ht' hp'
    have hM' := hM.frame hlocal hown (not_writes ht' hp' (ht.key hp) hown)
    obtain ⟨M', hM'', htrim⟩ := holds_enforceRetention env hnamed (ht'.key hp') hM'
    refine ⟨M, M', hM, hbM, hM'', ⟨M, Or.inl rfl, htrim⟩, ?_⟩
    intro o ho
    simp only [Option.some.injEq, Prod.mk.injEq] at ho
    exact absurd (by rw [ho.1, ho.2.1]) hown

theorem ensured_spec (env : Env) {topic : Str} {partition : Int} (ht : Plain topic)
    (hp : Natural partition) :
    StepSpec n s (ensurePartitionState env s topic partition) none := by
  have hlocal : Local topic partition IsIndex s (ensurePartitionState env s topic partition) :=
    setState_local s _
  refine ⟨hsound.named.keep (ht.key hp) hlocal, ?_⟩
  intro t p ht' hp'
  obtain ⟨M, hM, hbM⟩ := hsound.logs t p ht' hp'
  have hsame : Evolves M M := ⟨M, Or.inl rfl, Trimmed.refl M⟩
  by_cases hown : (t, p) = (topic, partition)
  · obtain ⟨rfl, rfl⟩ := Prod.mk.inj hown
    exact ⟨M, M, hM, hbM, holds_ensurePartitionState env hM, hsame, by simp⟩
  · exact ⟨M, M, hM, hbM, hM.frame hlocal hown (segmentName_not_isIndex t p), hsame, by simp⟩

theorem restarted_spec {env : Env} (hok : Succeeds env) (settings : Settings) :
    StepSpec n s (newStorage env settings s.disk) none := by
  have hnamed := wellNamed_loadData settings hok hsound.named.names
  refine ⟨wellNamed_enforceRetention env hnamed, ?_⟩
  intro t p ht hp
  obtain ⟨L, h, hb⟩ := hsound.logs t p ht hp
  have hload := holds_loadData settings hok hsound.named.names (ht.key hp) ht.no_slash h.stored
  obtain ⟨L', hL', htrim⟩ := holds_enforceRetention env hnamed (ht.key hp) hload
  exact ⟨L, L', h, hb, hL', ⟨L, Or.inl rfl, htrim⟩, by simp⟩

theorem produced_spec (hn : n + 1 < 2 ^ 63) {env : Env} {topic : Str} {partition : Int}
    {value : Str} (hadm : Admissible s (.produce env topic partition value)) :
    StepSpec n s (produceToPartition env s topic partition value).1
      (some (topic, (produceToPartition env s topic partition value).2)) := by
  obtain ⟨hok, ht, hp, hsafe, hfits⟩ := hadm
  obtain ⟨L, h, hb⟩ := hsound.logs topic partition ht hp
  rw [stateOf_next env h] at hfits
  obtain ⟨s', hcall, happ⟩ := produceToPartition_appends hok (ht.key hp) h (hb.room hn)
    (hb.loggable hn hsafe hfits)
  rw [hcall]
  exact appended_spec hsound env ht hp h hb happ

/-- What a replicated append does to a sound storage. -/
theorem replicated_spec (hn : n + 1 < 2 ^ 63) {env : Env} {topic : Str} {partition offset : Int}
    {value : Str} (hadm : Admissible s (.replicate env topic partition offset value)) :
    StepSpec n s (appendReplicated env s topic partition offset value).1
      (taken s (.replicate env topic partition offset value)) := by
  obtain ⟨hok, ht, hp, hsafe, hfits⟩ := hadm
  obtain ⟨L, h, hb⟩ := hsound.logs topic partition ht hp
  have hnext := stateOf_next env h
  have hensured : (stateOf env (ensurePartitionState env s topic partition) topic
      partition).nextOffset = L.next := stateOf_next env (holds_ensurePartitionState env h)
  rw [hnext] at hfits
  rcases Int.lt_trichotomy offset L.next with hlt | heq | hgt
  · have hcall : appendReplicated env s topic partition offset value =
        (ensurePartitionState env s topic partition, none) := by
      simp [appendReplicated, hensured, hlt]
    have htaken : taken s (.replicate env topic partition offset value) = none := by
      simp only [taken, hnext]
      rw [if_neg (by omega)]
    rw [hcall, htaken]
    exact ensured_spec hsound env ht hp
  · subst heq
    obtain ⟨s', hcall, happ⟩ := appendReplicated_appends hok (ht.key hp) h (hb.room hn)
      (hb.loggable hn hsafe (hfits rfl))
    have htaken : taken s (.replicate env topic partition L.next value) =
        some (topic, partition, L.next) := by
      simp [taken, hnext, hcall]
    rw [hcall, htaken]
    exact appended_spec hsound env ht hp h hb happ
  · have hcall : appendReplicated env s topic partition offset value =
        (ensurePartitionState env s topic partition, some (.nonContiguous L.next offset)) := by
      simp only [appendReplicated, hensured, hgt, ↓reduceIte]
      rw [if_neg (by omega)]
    have htaken : taken s (.replicate env topic partition offset value) = none := by
      simp [taken, hcall]
    rw [hcall, htaken]
    exact ensured_spec hsound env ht hp

/-- Every admissible call follows its specification. -/
theorem step_spec (hn : n + 1 < 2 ^ 63) (c : Call) (hadm : Admissible s c) :
    StepSpec n s (step s c) (taken s c) := by
  cases c with
  | produce env topic partition value => exact produced_spec hsound hn hadm
  | replicate env topic partition offset value => exact replicated_spec hsound hn hadm
  | retain env => exact retained_spec hsound env
  | restart env settings => exact restarted_spec hsound hadm settings

end Steps

theorem StepSpec.sound {n : ℕ} {s s' : Storage} {took : Option (Str × Int × Int)}
    (h : StepSpec n s s' took) : Sound (n + 1) s' where
  named := h.named
  logs t p ht hp := by
    obtain ⟨L, L', -, hb, hL', hevolves, -⟩ := h.logs t p ht hp
    exact ⟨L', hL', hevolves.bounded hb⟩

theorem StepSpec.next_le {n : ℕ} {s s' : Storage} {took : Option (Str × Int × Int)}
    (h : StepSpec n s s' took) {t : Str} {p : Int} (ht : Plain t) (hp : Natural p) :
    nextOffsetOf s t p ≤ nextOffsetOf s' t p := by
  obtain ⟨L, L', hL, -, hL', hevolves, -⟩ := h.logs t p ht hp
  rw [nextOffsetOf_eq hL, nextOffsetOf_eq hL']
  exact hevolves.next_le

/-- The offset a call takes was the next one and is below the next one after it. -/
theorem StepSpec.takes {n : ℕ} {s s' : Storage} {t : Str} {p o : Int}
    (h : StepSpec n s s' (some (t, p, o))) (ht : Plain t) (hp : Natural p) :
    nextOffsetOf s t p = o ∧ nextOffsetOf s' t p = o + 1 := by
  obtain ⟨L, L', hL, -, hL', -, htook⟩ := h.logs t p ht hp
  obtain ⟨rfl, hnext⟩ := htook o rfl
  exact ⟨nextOffsetOf_eq hL, by rw [nextOffsetOf_eq hL', hnext]⟩

end Flux.StorageCalls
