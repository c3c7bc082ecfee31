import Flux.ReplicationManager
import Flux.Runs
import Mathlib.Order.Bounds.Basic

/-!
What the calls to the replication manager do to a partition. A call leaves the
partition alone, or lets some of its offsets grow and computes the watermark
anew. So offsets never go back, no follower is ahead of the leader, and the
watermark is the least offset in sync, within the permitted lag of the leader.
-/
namespace Flux.ReplicaProgress

open GoRuntime GoStrings FiniteMap ReplicationManager Runs

variable {ps ps' : PartitionState} {replicaID top : Int} {r : ReplicaState} {now : Time}
  {cfg : ReplicationConfig}

/-- A call to the manager with the clock readings it makes. `WaitForAckAll` is a
sequence of polls. -/
inductive Operation
  | onLeaderAppend (now : Time) (topic : Str) (partition offset : Int)
  | ackReplica (seen now : Time) (topic : Str) (partition replicaID offset : Int)
  | pollAckAll (order : List Int → List Int) (now : Time) (topic : Str)
      (partition targetOffset : Int)
  | highWatermark (now : Time) (topic : Str) (partition : Int)
  | isLeader (topic : Str) (partition : Int)
  | setRole (now : Time) (topic : Str) (partition : Int) (role : Str)
  | bootstrapOffset (now : Time) (topic : Str) (partition offset : Int)
  | status (order : List Int → List Int) (now : Time) (topic : Str) (partition : Int)

def step (m : Manager) : Operation → Manager
  | .onLeaderAppend now topic partition offset => onLeaderAppend now m topic partition offset
  | .ackReplica seen now topic partition replicaID offset =>
      (ackReplica seen now m topic partition replicaID offset).1
  | .pollAckAll order now topic partition targetOffset =>
      (pollAckAll order now m topic partition targetOffset).1
  | .highWatermark now topic partition => (highWatermark now m topic partition).1
  | .isLeader topic partition => (isLeader m topic partition).1
  | .setRole now topic partition role => (setRole now m topic partition role).1
  | .bootstrapOffset now topic partition offset => bootstrapOffset now m topic partition offset
  | .status order now topic partition => (status order now m topic partition).1

def Operation.target : Operation → Int
  | .onLeaderAppend _ _ _ offset => offset
  | .bootstrapOffset _ _ _ offset => offset
  | _ => -1

/-- Offsets have not gone back. -/
structure Advanced (ps ps' : PartitionState) : Prop where
  leader : ps.leaderOffset ≤ ps'.leaderOffset
  follower : ∀ id r, ps.followers.get id = some r →
    ∃ r', ps'.followers.get id = some r' ∧ r.offset ≤ r'.offset

theorem Advanced.refl (ps : PartitionState) : Advanced ps ps :=
  ⟨Int.le_refl _, fun _ r h => ⟨r, h, Int.le_refl _⟩⟩

theorem Advanced.trans {ps'' : PartitionState} (h : Advanced ps ps') (h' : Advanced ps' ps'') :
    Advanced ps ps'' := by
  refine ⟨Int.le_trans h.leader h'.leader, fun id r hr => ?_⟩
  obtain ⟨r', hr', hle⟩ := h.follower id r hr
  obtain ⟨r'', hr'', hle'⟩ := h'.follower id r' hr'
  exact ⟨r'', hr'', Int.le_trans hle hle'⟩

structure Grown (top : Int) (ps ps' : PartitionState) : Prop extends Advanced ps ps' where
  top : ps'.leaderOffset ≤ max ps.leaderOffset top
  within : ∀ id r', ps'.followers.get id = some r' →
    ∃ r, ps.followers.get id = some r ∧ r.offset ≤ r'.offset ∧
      r'.offset ≤ max r.offset ps'.leaderOffset

inductive Moves (cfg : ReplicationConfig) (top : Int) (ps : PartitionState) :
    PartitionState → Prop
  | idle : Moves cfg top ps ps
  | grown (now : Time) {ps' : PartitionState} (h : Grown top ps ps') :
      Moves cfg top ps (recompute cfg now ps')

/-- A change that keeps the offsets. -/
theorem grown_of_offsets (top : Int) (hleader : ps'.leaderOffset = ps.leaderOffset)
    (hfollowers : ∀ id, (ps'.followers.get id).map ReplicaState.offset =
      (ps.followers.get id).map ReplicaState.offset) : Grown top ps ps' := by
  refine ⟨⟨by omega, fun id r hr => ?_⟩, by omega, fun id r' hr' => ?_⟩
  · have hid := hfollowers id
    rw [hr] at hid
    obtain ⟨r', hr', hoffset⟩ := Option.map_eq_some_iff.mp hid
    exact ⟨r', hr', by omega⟩
  · have hid := hfollowers id
    rw [hr'] at hid
    obtain ⟨r, hr, hoffset⟩ := Option.map_eq_some_iff.mp hid.symm
    exact ⟨r, hr, by omega, by omega⟩

theorem grown_raise (ps : PartitionState) (offset : Int) :
    Grown offset ps
      { ps with leaderOffset := if ps.leaderOffset < offset then offset else ps.leaderOffset } := by
  refine ⟨⟨?_, fun id r hr => ⟨r, hr, Int.le_refl _⟩⟩, ?_,
    fun id r hr => ⟨r, hr, by omega, by omega⟩⟩
  · dsimp only
    split <;> omega
  · dsimp only
    split <;> omega

theorem acked_offset (r : ReplicaState) (leaderOffset offset : Int) (seen : Time) :
    r.offset ≤ (r.acked leaderOffset offset seen).offset ∧
      (r.acked leaderOffset offset seen).offset ≤ max r.offset leaderOffset := by
  dsimp only [ReplicaState.acked]
  split <;> split <;> omega

theorem grown_acked (top : Int) (hr : ps.followers.get replicaID = some r) (offset : Int)
    (seen : Time) :
    Grown top ps
      { ps with
        followers := ps.followers.set replicaID (r.acked ps.leaderOffset offset seen) } := by
  obtain ⟨hlow, hhigh⟩ := acked_offset r ps.leaderOffset offset seen
  refine ⟨⟨Int.le_refl _, fun id q hq => ?_⟩, by dsimp only; omega, fun id q hq => ?_⟩
  · dsimp only
    rw [FMap.get_set]
    split
    · rename_i hid
      rw [hid, hr] at hq
      cases hq
      exact ⟨_, rfl, hlow⟩
    · exact ⟨q, hq, Int.le_refl _⟩
  · dsimp only at hq ⊢
    rw [FMap.get_set] at hq
    split at hq
    · rename_i hid
      cases hq
      exact ⟨r, by rw [hid, hr], hlow, hhigh⟩
    · exact ⟨q, hq, by omega, by omega⟩

theorem grown_turned (top : Int) (ps : PartitionState) (role : Role) :
    Grown top ps (ps.turned role) := by
  cases role with
  | leader => exact grown_of_offsets top rfl (fun _ => rfl)
  | follower =>
    refine grown_of_offsets top rfl (fun id => ?_)
    dsimp only [PartitionState.turned]
    rw [FMap.get_mapValues]
    cases ps.followers.get id with
    | none => rfl
    | some r => rfl

section Partitions

variable (m : Manager) (topic : Str) (partition : Int) (ps : PartitionState)

@[simp] theorem partitionOf_setPartition_self :
    partitionOf (setPartition m topic partition ps) topic partition = ps := by
  simp [partitionOf, setPartition]

theorem partitionOf_setPartition_ne {topic' : Str} {partition' : Int}
    (h : (topic', partition') ≠ (topic, partition)) :
    partitionOf (setPartition m topic partition ps) topic' partition' =
      partitionOf m topic' partition' := by
  simp [partitionOf, setPartition, get2_set2_ne _ _ h]

/-- To change one partition is a move of every partition. -/
theorem moves_setPartition (h : Moves m.cfg top (partitionOf m topic partition) ps) (topic' : Str)
    (partition' : Int) :
    Moves m.cfg top (partitionOf m topic' partition')
      (partitionOf (setPartition m topic partition ps) topic' partition') := by
  by_cases hkey : (topic', partition') = (topic, partition)
  · cases hkey
    rw [partitionOf_setPartition_self]
    exact h
  · rw [partitionOf_setPartition_ne m topic partition ps hkey]
    exact .idle

end Partitions

theorem moves_refresh (now : Time) (m : Manager) (topic : Str) (partition : Int) (top : Int)
    (topic' : Str) (partition' : Int) :
    Moves m.cfg top (partitionOf m topic' partition')
      (partitionOf (refresh now m topic partition).1 topic' partition') :=
  moves_setPartition m topic partition _
    (.grown now (grown_of_offsets top rfl (fun _ => rfl))) topic' partition'

theorem step_cfg (m : Manager) (op : Operation) : (step m op).cfg = m.cfg := by
  cases op with
  | onLeaderAppend now topic partition offset =>
    dsimp only [step, onLeaderAppend]
    cases (partitionOf m topic partition).role <;> rfl
  | ackReplica seen now topic partition replicaID offset =>
    dsimp only [step, ackReplica]
    split
    · rfl
    · cases (partitionOf m topic partition).role with
      | follower => rfl
      | leader => cases (partitionOf m topic partition).followers.get replicaID <;> rfl
  | pollAckAll order now topic partition targetOffset => rfl
  | highWatermark now topic partition => rfl
  | isLeader topic partition => rfl
  | setRole now topic partition role =>
    dsimp only [step, setRole]
    cases readRole role <;> rfl
  | bootstrapOffset now topic partition offset => rfl
  | status order now topic partition => rfl

/-- Every call moves every partition. -/
theorem step_moves (m : Manager) (op : Operation) (topic : Str) (partition : Int) :
    Moves m.cfg op.target (partitionOf m topic partition)
      (partitionOf (step m op) topic partition) := by
  cases op with
  | onLeaderAppend now topic' partition' offset =>
    dsimp only [step, onLeaderAppend]
    split
    · exact moves_setPartition m topic' partition' _ .idle topic partition
    · exact moves_setPartition m topic' partition' _ (.grown now (grown_raise _ offset))
        topic partition
  | ackReplica seen now topic' partition' replicaID offset =>
    dsimp only [step, ackReplica]
    split
    · exact .idle
    · split
      · exact moves_setPartition m topic' partition' _ .idle topic partition
      · split
        · exact moves_setPartition m topic' partition' _ .idle topic partition
        · rename_i r hr
          exact moves_setPartition m topic' partition' _ (.grown now (grown_acked _ hr offset seen))
            topic partition
  | pollAckAll order now topic' partition' targetOffset =>
    exact moves_refresh now m topic' partition' _ topic partition
  | highWatermark now topic' partition' =>
    exact moves_refresh now m topic' partition' _ topic partition
  | isLeader topic' partition' =>
    exact moves_setPartition m topic' partition' _ .idle topic partition
  | setRole now topic' partition' role =>
    dsimp only [step, setRole]
    cases readRole role with
    | none => exact .idle
    | some role =>
      exact moves_setPartition m topic' partition' _ (.grown now (grown_turned _ _ role))
        topic partition
  | bootstrapOffset now topic' partition' offset =>
    refine moves_setPartition m topic' partition' _ (.grown now ?_) topic partition
    have hraise := grown_raise (partitionOf m topic' partition') offset
    dsimp only
    split
    · exact hraise
    · exact ⟨⟨hraise.leader, hraise.follower⟩, hraise.top, hraise.within⟩
  | status order now topic' partition' =>
    exact moves_refresh now m topic' partition' _ topic partition

/-- A leader takes the acknowledgement of a follower that it knows. -/
theorem ackReplica_ok {m : Manager} {topic : Str} {partition : Int}
    (hid : 0 < replicaID ∧ replicaID < m.cfg.replicationFactor)
    (hrole : (partitionOf m topic partition).role = .leader)
    (hr : (partitionOf m topic partition).followers.get replicaID = some r) (seen now : Time)
    (offset : Int) :
    ackReplica seen now m topic partition replicaID offset =
      (setPartition m topic partition (recompute m.cfg now
        { partitionOf m topic partition with
          followers := (partitionOf m topic partition).followers.set replicaID
            (r.acked (partitionOf m topic partition).leaderOffset offset seen) }), .ok ()) := by
  have hrange : ¬ (replicaID ≤ 0 ∨ m.cfg.replicationFactor ≤ replicaID) := by omega
  simp only [ackReplica, hrange, ↓reduceIte, hrole, hr]

theorem ackReplica_role (seen now : Time) (m : Manager) (topic : Str)
    (partition replicaID offset : Int) :
    (partitionOf (ackReplica seen now m topic partition replicaID offset).1 topic partition).role =
      (partitionOf m topic partition).role := by
  dsimp only [ackReplica]
  split
  · rfl
  · split
    · rw [partitionOf_setPartition_self]
    · split
      · rw [partitionOf_setPartition_self]
      · rw [partitionOf_setPartition_self]
        rfl

def CountedOffsets (ps : PartitionState) : Set Int :=
  {o | o = ps.leaderOffset ∨ ∃ id r, ps.followers.get id = some r ∧ r.inSync = true ∧ o = r.offset}

/-- A follower that was heard of just now counts if it does not lag too far. -/
theorem ack_counted {m : Manager} {topic : Str} {partition : Int}
    (hid : 0 < replicaID ∧ replicaID < m.cfg.replicationFactor)
    (hrole : (partitionOf m topic partition).role = .leader)
    (hr : (partitionOf m topic partition).followers.get replicaID = some r)
    (hnow : now ≠ zeroTime) (htimeout : 0 ≤ m.cfg.replicaLagTimeout) (offset : Int)
    (hlag : wrap64 ((partitionOf m topic partition).leaderOffset -
      (r.acked (partitionOf m topic partition).leaderOffset offset now).offset) ≤
        m.cfg.maxReplicaLag) :
    (r.acked (partitionOf m topic partition).leaderOffset offset now).offset ∈
      CountedOffsets (partitionOf (ackReplica now now m topic partition replicaID offset).1
        topic partition) := by
  rw [ackReplica_ok hid hrole hr, partitionOf_setPartition_self]
  have hfresh : fresh m.cfg now
      (r.acked (partitionOf m topic partition).leaderOffset offset now) := by
    simp [fresh, ReplicaState.acked, hnow, timeSub, htimeout]
  refine .inr ⟨replicaID, { r.acked (partitionOf m topic partition).leaderOffset offset now with
    inSync := true }, ?_, rfl, rfl⟩
  dsimp only [recompute]
  rw [FMap.get_mapValues, FMap.get_set_self, Option.map_some, inSyncNow, hfresh,
    decide_eq_true hlag, Bool.and_self]

/-- A partition whose offsets are in order and whose watermark is the least of
those that count. -/
structure Sound (ps : PartitionState) : Prop where
  lower : ∀ id r, ps.followers.get id = some r → -1 ≤ r.offset
  upper : ∀ id r, ps.followers.get id = some r → r.offset ≤ ps.leaderOffset
  watermark : IsLeast (CountedOffsets ps) ps.highWatermark
  natural : -1 ≤ ps.highWatermark

theorem Sound.le_leader (h : Sound ps) : ps.highWatermark ≤ ps.leaderOffset :=
  h.watermark.2 (.inl rfl)

/-- The watermark of a sane partition is within the permitted lag, too. -/
structure Sane (cfg : ReplicationConfig) (ps : PartitionState) : Prop extends Sound ps where
  lag : ps.leaderOffset - cfg.maxReplicaLag ≤ ps.highWatermark

theorem isLeast_foldl_min (offsets : List Int) (first : Int) :
    IsLeast {o | o = first ∨ o ∈ offsets} (offsets.foldl min first) := by
  induction offsets generalizing first with
  | nil =>
    refine ⟨.inl rfl, fun o ho => ?_⟩
    rcases ho with rfl | hin
    · exact Int.le_refl _
    · exact absurd hin List.not_mem_nil
  | cons x rest ih =>
    obtain ⟨hmem, hlow⟩ := ih (min first x)
    rw [List.foldl_cons]
    refine ⟨?_, fun o ho => ?_⟩
    · rcases hmem with heq | hin
      · rcases min_choice first x with hfirst | hx
        · exact .inl (heq.trans hfirst)
        · exact .inr (by rw [heq, hx]; exact List.mem_cons_self ..)
      · exact .inr (List.mem_cons_of_mem _ hin)
    · have hmin := hlow (.inl rfl)
      rcases ho with rfl | hin
      · exact Int.le_trans hmin (Int.min_le_left _ _)
      · rcases List.mem_cons.mp hin with rfl | hrest
        · exact Int.le_trans hmin (Int.min_le_right _ _)
        · exact hlow (.inr hrest)

theorem mem_inSyncOffsets (followers : FMap Int ReplicaState) (o : Int) :
    o ∈ inSyncOffsets followers ↔
      ∃ id r, followers.get id = some r ∧ r.inSync = true ∧ o = r.offset := by
  unfold inSyncOffsets
  rw [List.mem_filterMap]
  constructor
  · rintro ⟨id, -, hid⟩
    obtain ⟨r, hr, hsync⟩ := Option.bind_eq_some_iff.mp hid
    split at hsync
    · cases hsync
      exact ⟨id, r, hr, ‹_›, rfl⟩
    · cases hsync
  · rintro ⟨id, r, hr, hsync, rfl⟩
    refine ⟨id, (FMap.mem_keys_iff _ _).mpr ⟨r, hr⟩, ?_⟩
    rw [hr, Option.bind_some, if_pos hsync]

theorem get_recompute {id : Int} {r' : ReplicaState}
    (h : (recompute cfg now ps).followers.get id = some r') :
    ∃ r, ps.followers.get id = some r ∧ r'.offset = r.offset ∧
      r'.inSync = inSyncNow cfg now ps.leaderOffset r := by
  dsimp only [recompute] at h
  rw [FMap.get_mapValues] at h
  obtain ⟨r, hr, rfl⟩ := Option.map_eq_some_iff.mp h
  exact ⟨r, hr, rfl, rfl⟩

/-- To compute the watermark of offsets in order makes the partition sound. -/
theorem sound_recompute (cfg : ReplicationConfig) (now : Time) (hnatural : -1 ≤ ps.leaderOffset)
    (hlower : ∀ id r, ps.followers.get id = some r → -1 ≤ r.offset)
    (hupper : ∀ id r, ps.followers.get id = some r → r.offset ≤ ps.leaderOffset) :
    Sound (recompute cfg now ps) := by
  have hlower' : ∀ id r, (recompute cfg now ps).followers.get id = some r → -1 ≤ r.offset := by
    intro id r' hr'
    obtain ⟨r, hr, hoffset, -⟩ := get_recompute hr'
    exact hoffset ▸ hlower id r hr
  have hleast := isLeast_foldl_min (inSyncOffsets (recompute cfg now ps).followers) ps.leaderOffset
  have hcounted : {o | o = ps.leaderOffset ∨
      o ∈ inSyncOffsets (recompute cfg now ps).followers} =
        CountedOffsets (recompute cfg now ps) := by
    ext o
    exact or_congr_right (mem_inSyncOffsets _ o)
  rw [hcounted] at hleast
  have hlow : -1 ≤ (inSyncOffsets (recompute cfg now ps).followers).foldl min ps.leaderOffset := by
    rcases hleast.1 with heq | ⟨id, r, hr, -, heq⟩
    · rw [heq]
      exact hnatural
    · rw [heq]
      exact hlower' id r hr
  have hmark : (recompute cfg now ps).highWatermark =
      (inSyncOffsets (recompute cfg now ps).followers).foldl min ps.leaderOffset :=
    max_eq_right hlow
  refine ⟨hlower', fun id r' hr' => ?_, hmark ▸ hleast, hmark ▸ hlow⟩
  obtain ⟨r, hr, hoffset, -⟩ := get_recompute hr'
  exact hoffset ▸ hupper id r hr

/-- A difference of offsets that does not wrap around is the lag. -/
theorem lag_recompute (hcfg : 0 ≤ cfg.maxReplicaLag) (h : Sound (recompute cfg now ps))
    (hleader : ps.leaderOffset < 2 ^ 63 - 1) :
    ps.leaderOffset - cfg.maxReplicaLag ≤ (recompute cfg now ps).highWatermark := by
  rcases h.watermark.1 with heq | ⟨id, r', hr', hsync, heq⟩
  · rw [heq]
    dsimp only [recompute]
    omega
  · obtain ⟨r, hr, hoffset, hnow⟩ := get_recompute hr'
    have hlag : wrap64 (ps.leaderOffset - r.offset) ≤ cfg.maxReplicaLag := by
      rw [hsync, inSyncNow] at hnow
      simpa using (Bool.and_eq_true_iff.mp hnow.symm).2
    have hle : r'.offset ≤ ps.leaderOffset := h.upper id r' hr'
    have hge := h.lower id r' hr'
    rw [wrap64_of_inInt64 ⟨by omega, by omega⟩] at hlag
    omega

theorem get_newFollowers (replicationFactor id : Int) :
    (newFollowers replicationFactor).get id =
      if 0 < id ∧ id < replicationFactor then some ⟨-1, zeroTime, false⟩ else none := by
  have hloop := FMap.get_foldl_set (fun n : ℕ => (n : Int))
    (fun _ => (⟨-1, zeroTime, false⟩ : ReplicaState))
    (List.range' 1 (replicationFactor - 1).toNat) FMap.empty id
  rw [FMap.get_empty] at hloop
  refine hloop.trans (if_congr ?_ rfl rfl)
  rw [List.mem_map]
  constructor
  · rintro ⟨n, hn, rfl⟩
    rw [List.mem_range'_1] at hn
    omega
  · rintro ⟨hpos, hlt⟩
    refine ⟨id.toNat, List.mem_range'_1.mpr ?_, ?_⟩
    · omega
    · omega

theorem sound_newPartition (cfg : ReplicationConfig) : Sound (newPartition cfg) := by
  have hnew : ∀ id r, (newPartition cfg).followers.get id = some r →
      r.offset = -1 ∧ r.inSync = false := by
    intro id r hr
    dsimp only [newPartition] at hr
    rw [get_newFollowers] at hr
    split at hr
    · cases hr
      exact ⟨rfl, rfl⟩
    · cases hr
  refine ⟨fun id r hr => (hnew id r hr).1.ge, fun id r hr => (hnew id r hr).1.le,
    ⟨.inl rfl, fun o ho => ?_⟩, Int.le_refl _⟩
  rcases ho with rfl | ⟨id, r, hr, hsync, rfl⟩
  · exact Int.le_refl _
  · rw [(hnew id r hr).2] at hsync
    cases hsync

theorem Moves.advanced (h : Moves cfg top ps ps') : Advanced ps ps' := by
  cases h with
  | idle => exact Advanced.refl ps
  | @grown now grown h =>
    refine h.toAdvanced.trans ⟨Int.le_refl _, fun id r hr => ?_⟩
    refine ⟨{ r with inSync := inSyncNow cfg now grown.leaderOffset r }, ?_, Int.le_refl _⟩
    dsimp only [recompute]
    rw [FMap.get_mapValues, hr, Option.map_some]

/-- No call adds or removes a follower. -/
theorem Moves.followers (h : Moves cfg top ps ps') (id : Int) :
    (ps'.followers.get id).isSome = (ps.followers.get id).isSome := by
  rw [Bool.eq_iff_iff, Option.isSome_iff_exists, Option.isSome_iff_exists]
  constructor
  · rintro ⟨r', hr'⟩
    cases h with
    | idle => exact ⟨r', hr'⟩
    | grown now h =>
      obtain ⟨r, hr, -⟩ := get_recompute hr'
      obtain ⟨q, hq, -⟩ := h.within id r hr
      exact ⟨q, hq⟩
  · rintro ⟨r, hr⟩
    obtain ⟨r', hr', -⟩ := h.advanced.follower id r hr
    exact ⟨r', hr'⟩

theorem Moves.sound (h : Moves cfg top ps ps') (hps : Sound ps) : Sound ps' := by
  cases h with
  | idle => exact hps
  | grown now h =>
    have hnatural : -1 ≤ ps.leaderOffset := Int.le_trans hps.natural hps.le_leader
    have hleader := h.leader
    refine sound_recompute cfg now (by omega) (fun id r' hr' => ?_) (fun id r' hr' => ?_)
    · obtain ⟨r, hr, hle, -⟩ := h.within id r' hr'
      have := hps.lower id r hr
      omega
    · obtain ⟨r, hr, -, hle⟩ := h.within id r' hr'
      have := hps.upper id r hr
      omega

structure Bounded (cfg : ReplicationConfig) (ps : PartitionState) : Prop extends Sane cfg ps where
  bounded : ps.leaderOffset < 2 ^ 63 - 1

theorem Moves.bounded (hcfg : 0 ≤ cfg.maxReplicaLag) (htop : top < 2 ^ 63 - 1)
    (h : Moves cfg top ps ps') (hps : Bounded cfg ps) : Bounded cfg ps' := by
  have hsound := h.sound hps.toSound
  cases h with
  | idle => exact hps
  | @grown now grown h =>
    have hbound : grown.leaderOffset < 2 ^ 63 - 1 := by
      have := h.top
      have := hps.bounded
      omega
    have hlag := lag_recompute hcfg hsound hbound
    exact { toSound := hsound, lag := hlag, bounded := hbound }

section Runs

variable (cfg : ReplicationConfig)

theorem newManager_lag : 0 ≤ (newManager cfg).cfg.maxReplicaLag := by
  dsimp only [newManager]
  split <;> omega

theorem run_cfg (m : Manager) (ops : List Operation) : (run step m ops).cfg = m.cfg := by
  induction ops generalizing m with
  | nil => rfl
  | cons op rest ih => rw [run_cons, ih, step_cfg]

theorem run_advanced (m : Manager) (ops : List Operation) (topic : Str) (partition : Int) :
    Advanced (partitionOf m topic partition) (partitionOf (run step m ops) topic partition) := by
  induction ops generalizing m with
  | nil => exact Advanced.refl _
  | cons op rest ih => exact (step_moves m op topic partition).advanced.trans (ih (step m op))

theorem partitionOf_newManager (topic : Str) (partition : Int) :
    partitionOf (newManager cfg) topic partition = newPartition (newManager cfg).cfg := by
  simp [partitionOf, newManager]

/-- The followers are the replica numbers from 1 up, whatever is called. -/
theorem run_followers (ops : List Operation) (topic : Str) (partition id : Int) :
    ((partitionOf (run step (newManager cfg) ops) topic partition).followers.get id).isSome ↔
      0 < id ∧ id < (newManager cfg).cfg.replicationFactor := by
  have hstart : ((partitionOf (newManager cfg) topic partition).followers.get id).isSome ↔
      0 < id ∧ id < (newManager cfg).cfg.replicationFactor := by
    rw [partitionOf_newManager, newPartition, get_newFollowers]
    split
    · exact iff_of_true rfl ‹_›
    · exact iff_of_false Bool.false_ne_true ‹_›
  have hstep : ∀ (m : Manager), ((partitionOf (run step m ops) topic partition).followers.get
      id).isSome = ((partitionOf m topic partition).followers.get id).isSome := by
    induction ops with
    | nil => exact fun m => rfl
    | cons op rest ih =>
      intro m
      rw [run_cons, ih, (step_moves m op topic partition).followers id]
  rw [hstep, hstart]

theorem run_sound (ops : List Operation) (topic : Str) (partition : Int) :
    Sound (partitionOf (run step (newManager cfg) ops) topic partition) := by
  have hstart : Sound (partitionOf (newManager cfg) topic partition) := by
    rw [partitionOf_newManager]
    exact sound_newPartition _
  have hvalid : Valid step (fun _ _ => True) (newManager cfg) ops :=
    valid_of_forall (fun _ _ _ => trivial)
  have hstep : ∀ (m : Manager) (op : Operation), Sound (partitionOf m topic partition) → True →
      Sound (partitionOf (step m op) topic partition) :=
    fun m op hm _ => (step_moves m op topic partition).sound hm
  exact run_invariant hstep hstart hvalid

/-- The offsets that a run is given stay below the largest 64-bit integer. -/
def SmallOffsets (ops : List Operation) : Prop := ∀ op ∈ ops, op.target < 2 ^ 63 - 1

def trio : ReplicationConfig := ⟨3, 2, 0, 0, 0⟩

variable {cfg} {ops : List Operation} (hops : SmallOffsets ops) (topic : Str) (partition : Int)

include hops

theorem run_bounded :
    Bounded (newManager cfg).cfg (partitionOf (run step (newManager cfg) ops) topic partition) := by
  have hstart : Bounded (newManager cfg).cfg (partitionOf (newManager cfg) topic partition) := by
    have hlag := newManager_lag cfg
    rw [partitionOf_newManager]
    refine ⟨⟨sound_newPartition _, ?_⟩, ?_⟩
    · dsimp only [newPartition]
      omega
    · dsimp only [newPartition]
      omega
  have hstep : ∀ (m : Manager) (op : Operation),
      m.cfg = (newManager cfg).cfg ∧ Bounded m.cfg (partitionOf m topic partition) →
        op.target < 2 ^ 63 - 1 →
          (step m op).cfg = (newManager cfg).cfg ∧
            Bounded (step m op).cfg (partitionOf (step m op) topic partition) := by
    rintro m op ⟨hcfg, hm⟩ hop
    have hlag : 0 ≤ m.cfg.maxReplicaLag := hcfg ▸ newManager_lag cfg
    refine ⟨(step_cfg m op).trans hcfg, ?_⟩
    rw [step_cfg]
    exact (step_moves m op topic partition).bounded hlag hop hm
  have hvalid : Valid step (fun _ op => op.target < 2 ^ 63 - 1) (newManager cfg) ops :=
    valid_of_forall (fun op hop _ => hops op hop)
  have hrun := run_invariant hstep ⟨rfl, hstart⟩ hvalid
  exact hrun.1 ▸ hrun.2

end Runs

end Flux.ReplicaProgress
