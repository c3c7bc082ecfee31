import Flux.ReplicaProgress

/-!
The high watermark along whole runs of calls to the replication manager. It is
always the least offset in sync, but a follower that comes into sync behind the
leader pulls it back. It never goes back if and only if no follower may lag, or
there is none.
-/
namespace Flux.Watermarks

open GoRuntime GoStrings FiniteMap BrokerConfig ReplicationManager Runs ReplicaProgress

/-- After every run the partition is sound, and its offsets have only grown. Its watermark
is within the permitted lag if no offset of the run is the largest integer. -/
theorem manager_runs_sane (cfg : ReplicationConfig) (ops : List Operation) (topic : Str)
    (partition : Int) :
    Sound (partitionOf (run step (newManager cfg) ops) topic partition) ∧
      (∀ front back, ops = front ++ back →
        Advanced (partitionOf (run step (newManager cfg) front) topic partition)
          (partitionOf (run step (newManager cfg) ops) topic partition)) ∧
      (SmallOffsets ops →
        Sane (newManager cfg).cfg
          (partitionOf (run step (newManager cfg) ops) topic partition)) := by
  refine ⟨run_sound cfg ops topic partition, ?_,
    fun hops => (run_bounded hops topic partition).toSane⟩
  rintro front back rfl
  rw [run_append]
  exact run_advanced _ back topic partition

def pair : ReplicationConfig := ⟨2, 1, 0, 0, 0⟩

/-- An append and an acknowledgement ahead of it. -/
theorem manager_runs_sane_pair :
    Sane (newManager pair).cfg (partitionOf (run step (newManager pair)
      [.onLeaderAppend 0 (lit "orders") 0 4, .ackReplica 0 0 (lit "orders") 0 1 7])
        (lit "orders") 0) := by
  refine (manager_runs_sane pair _ (lit "orders") 0).2.2 ?_
  unfold SmallOffsets
  decide

/-- The difference to the largest offset wraps around: a follower that holds
nothing counts as in sync. -/
theorem largest_offset_breaks_lag :
    let ps := partitionOf (run step (newManager pair)
      [.ackReplica 0 0 (lit "orders") 0 1 0, .onLeaderAppend 0 (lit "orders") 0 (2 ^ 63 - 1)])
      (lit "orders") 0
    ¬ (ps.leaderOffset - (newManager pair).cfg.maxReplicaLag ≤ ps.highWatermark) := by
  decide

def Operation.clocks : Operation → List Time
  | .onLeaderAppend now _ _ _ => [now]
  | .ackReplica seen now _ _ _ _ => [seen, now]
  | .pollAckAll _ now _ _ _ => [now]
  | .highWatermark now _ _ => [now]
  | .isLeader _ _ => []
  | .setRole now _ _ _ => [now]
  | .bootstrapOffset now _ _ _ => [now]
  | .status _ now _ _ => [now]

/-- The clock does not go back. -/
def Timely (ops : List Operation) : Prop := (ops.flatMap Operation.clocks).Pairwise (· ≤ ·)

section Monotone

variable (cfg : ReplicationConfig) (topic : Str) (partition : Int)

def after (ops : List Operation) : PartitionState :=
  partitionOf (run step (newManager cfg) ops) topic partition

/-- While the partition is led, its watermark does not go back. -/
def NeverFalls : Prop :=
  ∀ before during, SmallOffsets (before ++ during) → Timely (before ++ during) →
    (∀ front back, during = front ++ back →
      (after cfg topic partition (before ++ front)).role = .leader) →
    (after cfg topic partition before).highWatermark ≤
      (after cfg topic partition (before ++ during)).highWatermark

variable {cfg topic partition}

theorem SmallOffsets.left {front back : List Operation} (h : SmallOffsets (front ++ back)) :
    SmallOffsets front :=
  fun op hop => h op (List.mem_append_left _ hop)

/-- Where no follower may lag, the watermark is the leader's offset. -/
theorem watermark_eq_leader (h : cfg.maxReplicaLag ≤ 0 ∨ cfg.replicationFactor ≤ 1)
    {ops : List Operation} (hops : SmallOffsets ops) :
    (after cfg topic partition ops).highWatermark =
      (after cfg topic partition ops).leaderOffset := by
  have hsane : Sane (newManager cfg).cfg (after cfg topic partition ops) :=
    (run_bounded hops topic partition).toSane
  have hle := hsane.le_leader
  rcases h with hlag | hfactor
  · have hzero : (newManager cfg).cfg.maxReplicaLag = 0 := by
      dsimp only [newManager]
      split <;> omega
    have hlow := hsane.lag
    rw [hzero] at hlow
    omega
  · have hone : (newManager cfg).cfg.replicationFactor = 1 := by
      dsimp only [newManager]
      split <;> omega
    rcases hsane.watermark.1 with heq | ⟨id, r, hr, -⟩
    · exact heq
    · have hsome : ((after cfg topic partition ops).followers.get id).isSome := by
        rw [hr]
        rfl
      have hid := (run_followers cfg ops topic partition id).mp hsome
      omega

def fall (topic : Str) (partition : Int) : List Operation × List Operation :=
  ([.onLeaderAppend 0 topic partition 0], [.ackReplica 0 0 topic partition 1 (-1)])

theorem fall_small (topic : Str) (partition : Int) :
    SmallOffsets ((fall topic partition).1 ++ (fall topic partition).2) := by
  intro op hop
  simp only [fall, List.singleton_append, List.mem_cons, List.not_mem_nil, or_false] at hop
  rcases hop with rfl | rfl
  · simp [Operation.target]
  · simp [Operation.target]

theorem after_append :
    after cfg topic partition [.onLeaderAppend 0 topic partition 0] =
      recompute (newManager cfg).cfg 0
        { newPartition (newManager cfg).cfg with leaderOffset := 0 } := by
  dsimp only [after, run_cons, run_nil, step, onLeaderAppend]
  rw [partitionOf_newManager]
  dsimp only [newPartition]
  rw [partitionOf_setPartition_self]
  rfl

/-- Followers that were never heard of do not count. -/
theorem fall_before : (after cfg topic partition (fall topic partition).1).highWatermark = 0 := by
  have hsane : Sane (newManager cfg).cfg (after cfg topic partition (fall topic partition).1) :=
    (run_bounded (SmallOffsets.left (fall_small topic partition)) topic partition).toSane
  dsimp only [fall] at hsane ⊢
  rw [after_append] at hsane ⊢
  rcases hsane.watermark.1 with heq | ⟨id, r', hr', hsync, -⟩
  · exact heq
  · obtain ⟨r, hr, -, hnow⟩ := get_recompute hr'
    dsimp only [newPartition] at hr
    rw [get_newFollowers] at hr
    split at hr
    · cases hr
      rw [hsync] at hnow
      simp [inSyncNow, fresh] at hnow
    · cases hr

/-- The follower is one record behind, which counts as in sync. -/
theorem fall_after (hlag : 0 < cfg.maxReplicaLag) (hfactor : 1 < cfg.replicationFactor) :
    (after cfg topic partition
      ((fall topic partition).1 ++ (fall topic partition).2)).highWatermark ≤ -1 := by
  have hsane : Sane (newManager cfg).cfg
      (after cfg topic partition ((fall topic partition).1 ++ (fall topic partition).2)) :=
    (run_bounded (fall_small topic partition) topic partition).toSane
  have hfactor' : 1 < (newManager cfg).cfg.replicationFactor := by
    dsimp only [newManager]
    split <;> omega
  have hr : (after cfg topic partition (fall topic partition).1).followers.get 1 =
      some ⟨-1, zeroTime, false⟩ := by
    dsimp only [fall]
    rw [after_append]
    dsimp only [recompute, newPartition]
    rw [FMap.get_mapValues, get_newFollowers, if_pos ⟨by omega, hfactor'⟩]
    rfl
  have hrole : (after cfg topic partition (fall topic partition).1).role = .leader := by
    dsimp only [fall]
    rw [after_append]
    rfl
  have hcfg := run_cfg (newManager cfg) (fall topic partition).1
  have hleader : (after cfg topic partition (fall topic partition).1).leaderOffset = 0 := by
    dsimp only [fall]
    rw [after_append]
    rfl
  have hlag' : 1 ≤ (newManager cfg).cfg.maxReplicaLag := by
    dsimp only [newManager]
    split <;> omega
  have htimeout : 0 ≤ (newManager cfg).cfg.replicaLagTimeout := by
    dsimp only [newManager, valueOrDefault, second]
    split <;> omega
  have hacked : ((⟨-1, zeroTime, false⟩ : ReplicaState).acked
      (after cfg topic partition (fall topic partition).1).leaderOffset (-1) 0).offset = -1 := by
    rw [hleader]
    rfl
  have hwithin : wrap64 ((after cfg topic partition (fall topic partition).1).leaderOffset -
      ((⟨-1, zeroTime, false⟩ : ReplicaState).acked
        (after cfg topic partition (fall topic partition).1).leaderOffset (-1) 0).offset) ≤
          (run step (newManager cfg) (fall topic partition).1).cfg.maxReplicaLag := by
    rw [hacked, hleader, hcfg]
    exact hlag'
  have hcounted := ack_counted (hcfg ▸ ⟨by omega, hfactor'⟩) hrole hr
    (show (0 : Time) ≠ zeroTime by decide) (hcfg ▸ htimeout) (-1) hwithin
  exact (hsane.watermark.2 hcounted).trans_eq hacked

theorem fall_role {front back : List Operation} (h : (fall topic partition).2 = front ++ back) :
    (after cfg topic partition ((fall topic partition).1 ++ front)).role = .leader := by
  have hrole : (after cfg topic partition (fall topic partition).1).role = .leader := by
    dsimp only [fall]
    rw [after_append]
    rfl
  rcases List.append_eq_singleton_iff.mp h.symm with ⟨rfl, -⟩ | ⟨rfl, -⟩
  · rwa [List.append_nil]
  · exact (ackReplica_role _ _ _ _ _ _ _).trans hrole

/-- The watermark never falls if and only if no follower may lag or there is none. -/
theorem neverFalls_iff (cfg : ReplicationConfig) (topic : Str) (partition : Int) :
    NeverFalls cfg topic partition ↔ cfg.maxReplicaLag ≤ 0 ∨ cfg.replicationFactor ≤ 1 := by
  constructor
  · intro h
    by_contra hnot
    push Not at hnot
    have hfell := h (fall topic partition).1 (fall topic partition).2 (fall_small topic partition)
      (by simp [Timely, fall, Operation.clocks]) ?_
    · rw [fall_before] at hfell
      have hafter : (after cfg topic partition
          ((fall topic partition).1 ++ (fall topic partition).2)).highWatermark ≤ -1 :=
        fall_after hnot.1 hnot.2
      omega
    · exact fun front back hsplit => fall_role hsplit
  · intro h before during hsmall _ _
    rw [watermark_eq_leader h (SmallOffsets.left hsmall), watermark_eq_leader h hsmall]
    unfold after
    rw [run_append]
    exact (run_advanced _ during topic partition).leader

end Monotone

def lagging : ReplicationConfig := ⟨2, 1, 1, 10 * second, 2 * second⟩

/-- A record that was exposed is hidden again when the follower reports in. -/
theorem late_follower_lowers_watermark :
    (after lagging (lit "orders") 0 [.onLeaderAppend 0 (lit "orders") 0 5]).highWatermark = 5 ∧
    (after lagging (lit "orders") 0 [.onLeaderAppend 0 (lit "orders") 0 5,
      .ackReplica 1 1 (lit "orders") 0 1 4]).highWatermark = 4 := by
  decide

end Flux.Watermarks
