import Flux.ClusterCalls
import Flux.ClusterLogs

/-!
What the managers of a cluster know of the followers. A recorded offset comes from
an acknowledgement of the follower's worker, so in an orderly run the follower has
the leader's records up to it, and since logs only grow it keeps them.
-/
namespace Flux.ClusterProgress

open GoRuntime GoStrings FiniteMap ReplicationManager BrokerNode Runs
open ReplicaCluster ClusterCalls ClusterLogs
open PartitionStorage (Message)
open ReplicaProgress (Operation Sound partitionOf_setPartition_self partitionOf_setPartition_ne
  partitionOf_newManager get_newFollowers run_sound ackReplica_ok get_recompute)

variable {ps : PartitionState} {f leader offset : Int} {state : ReplicaWorkerState}

section Offsets

def SameOffsets (ps ps' : PartitionState) : Prop :=
  ∀ id, (ps'.followers.get id).map ReplicaState.offset =
    (ps.followers.get id).map ReplicaState.offset

theorem sameOffsets_recompute (cfg : ReplicationConfig) (now : Time) (ps : PartitionState) :
    SameOffsets ps (recompute cfg now ps) := by
  intro id
  dsimp only [recompute]
  rw [FMap.get_mapValues, Option.map_map]
  rfl

theorem sameOffsets_setPartition {m : Manager} {t : Str} {p : Int}
    (h : SameOffsets (partitionOf m t p) ps) (topic : Str) (partition : Int) :
    SameOffsets (partitionOf m topic partition)
      (partitionOf (setPartition m t p ps) topic partition) := by
  by_cases hkey : (topic, partition) = (t, p)
  · cases hkey
    rw [partitionOf_setPartition_self]
    exact h
  · rw [partitionOf_setPartition_ne m t p ps hkey]
    exact fun _ => rfl

theorem sameOffsets_refresh (now : Time) (m : Manager) (t : Str) (p : Int) (topic : Str)
    (partition : Int) :
    SameOffsets (partitionOf m topic partition)
      (partitionOf (refresh now m t p).1 topic partition) :=
  sameOffsets_setPartition (sameOffsets_recompute _ _ _) topic partition

/-- Only an acknowledgement that a leader takes moves a recorded offset. -/
theorem offsets_step (m : Manager) (op : Operation) (topic : Str) (partition : Int) :
    SameOffsets (partitionOf m topic partition)
        (partitionOf (ReplicaProgress.step m op) topic partition) ∨
      ∃ seen now replicaID offset r, op = .ackReplica seen now topic partition replicaID offset ∧
        (0 < replicaID ∧ replicaID < m.cfg.replicationFactor) ∧
        (partitionOf m topic partition).role = .leader ∧
        (partitionOf m topic partition).followers.get replicaID = some r := by
  cases op with
  | onLeaderAppend now t p offset =>
    left
    dsimp only [ReplicaProgress.step, onLeaderAppend]
    split
    · exact sameOffsets_setPartition (fun _ => rfl) topic partition
    · exact sameOffsets_setPartition (sameOffsets_recompute m.cfg now
        { partitionOf m t p with
          leaderOffset := if (partitionOf m t p).leaderOffset < offset then offset
            else (partitionOf m t p).leaderOffset }) topic partition
  | ackReplica seen now t p replicaID offset =>
    by_cases hkey : (topic, partition) = (t, p)
    · cases hkey
      by_cases hid : replicaID ≤ 0 ∨ m.cfg.replicationFactor ≤ replicaID
      · left
        simp only [ReplicaProgress.step, ackReplica, hid, ↓reduceIte]
        exact fun _ => rfl
      · cases hrole : (partitionOf m topic partition).role with
        | follower =>
          left
          simp only [ReplicaProgress.step, ackReplica, hid, ↓reduceIte, hrole]
          exact sameOffsets_setPartition (fun _ => rfl) topic partition
        | leader =>
          cases hr : (partitionOf m topic partition).followers.get replicaID with
          | none =>
            left
            simp only [ReplicaProgress.step, ackReplica, hid, ↓reduceIte, hrole, hr]
            exact sameOffsets_setPartition (fun _ => rfl) topic partition
          | some r =>
            exact .inr ⟨seen, now, replicaID, offset, r, rfl, by omega, rfl, hr⟩
    · left
      dsimp only [ReplicaProgress.step, ackReplica]
      split
      · exact fun _ => rfl
      · split
        · rw [partitionOf_setPartition_ne _ _ _ _ hkey]
          exact fun _ => rfl
        · split
          · rw [partitionOf_setPartition_ne _ _ _ _ hkey]
            exact fun _ => rfl
          · rw [partitionOf_setPartition_ne _ _ _ _ hkey]
            exact fun _ => rfl
  | pollAckAll order now t p targetOffset =>
    exact .inl (sameOffsets_refresh now m t p topic partition)
  | highWatermark now t p => exact .inl (sameOffsets_refresh now m t p topic partition)
  | isLeader t p => exact .inl (sameOffsets_setPartition (fun _ => rfl) topic partition)
  | setRole now t p role =>
    left
    dsimp only [ReplicaProgress.step, setRole]
    cases readRole role with
    | none => exact fun _ => rfl
    | some role =>
      refine sameOffsets_setPartition (fun id => ?_) topic partition
      rw [sameOffsets_recompute m.cfg now ((partitionOf m t p).turned role) id]
      cases role with
      | leader => rfl
      | follower =>
        dsimp only [PartitionState.turned]
        rw [FMap.get_mapValues, Option.map_map]
        rfl
  | bootstrapOffset now t p offset =>
    left
    refine sameOffsets_setPartition (fun id => ?_) topic partition
    dsimp only
    rw [sameOffsets_recompute m.cfg now _ id]
    split <;> rfl
  | status order now t p => exact .inl (sameOffsets_refresh now m t p topic partition)

theorem SameOffsets.get {ps' : PartitionState} (h : SameOffsets ps ps') {id : Int}
    {r' : ReplicaState} (hr' : ps'.followers.get id = some r') :
    ∃ r, ps.followers.get id = some r ∧ r.offset = r'.offset := by
  have hid := h id
  rw [hr'] at hid
  exact Option.map_eq_some_iff.mp hid.symm

theorem acked_cases (r : ReplicaState) (leaderOffset offset : Int) (seen : Time) :
    (r.acked leaderOffset offset seen).offset = r.offset ∨
      (r.acked leaderOffset offset seen).offset ≤ offset := by
  dsimp only [ReplicaState.acked]
  split
  · split
    · exact .inr (by omega)
    · exact .inl rfl
  · split
    · exact .inr (by omega)
    · exact .inl rfl

end Offsets

section Partition

variable (topic : Str) (partition : Int)

structure Agreed (c : Cluster) (leader f offset : Int) : Prop where
  within : offset < ((c leader).log topic partition).length
  behind : ((c leader).log topic partition).take (offset + 1).toNat <+:
    (c f).log topic partition

def Recorded (c : Cluster) : Prop :=
  ∀ leader f r, ((c leader).progress topic partition).followers.get f = some r →
    Agreed topic partition c leader f r.offset

variable {topic partition} {c : Cluster} {e : Event}

theorem Agreed.extends {c' : Cluster} (h : Agreed topic partition c leader f offset)
    (hlogs : ∀ b, (c b).log topic partition <+: (c' b).log topic partition) :
    Agreed topic partition c' leader f offset := by
  have hwithin := h.within
  have hlength := (hlogs leader).length_le
  refine ⟨by omega, ?_⟩
  obtain ⟨later, hlater⟩ := hlogs leader
  rw [← hlater, List.take_append_of_le_length (by omega)]
  exact h.behind.trans (hlogs f)

theorem Agreed.mono {offset' : Int} (h : Agreed topic partition c leader f offset)
    (hle : offset' ≤ offset) : Agreed topic partition c leader f offset' := by
  have hwithin := h.within
  refine ⟨by omega, List.IsPrefix.trans ?_ h.behind⟩
  exact List.take_prefix_take_left (by omega)

/-- A follower in step has all it has of its leader's log. -/
theorem Linked.agreed
    (h : Linked topic partition (fun b => (c b).log topic partition) (c f) state)
    (hoffset : offset < ((c f).log topic partition).length) :
    Agreed topic partition c state.leaderID f offset := by
  have hbehind := h.inStep.behind
  rw [h.topic_eq, h.partition_eq] at hbehind
  obtain ⟨later, hlater⟩ := hbehind
  have hlog : (c f).log topic partition ++ later = (c state.leaderID).log topic partition := hlater
  refine ⟨?_, ?_⟩
  · rw [← hlog, List.length_append]
    omega
  · rw [← hlog, List.take_append_of_le_length (by omega)]
    exact List.take_prefix _ _

theorem Linked.acking {logs : Int → List Message} {n : Node}
    (h : Linked topic partition logs n state) (hacking : n.runtime = .stepping (.acking offset)) :
    0 ≤ offset ∧ offset + 1 = (n.log topic partition).length := by
  have hfits := h.inStep.fits
  rw [hacking, h.topic_eq, h.partition_eq] at hfits
  exact hfits

theorem recorded_started (hstart : Started topic partition c) : Recorded topic partition c := by
  intro leader f r hr
  obtain ⟨cfg, hcfg⟩ := hstart.replication leader
  rw [Node.progress, hcfg, partitionOf_newManager] at hr
  dsimp only [newPartition] at hr
  rw [get_newFollowers] at hr
  split at hr
  · cases hr
    exact ⟨by dsimp only; omega, List.nil_prefix⟩
  · cases hr

/-- An orderly step keeps what is recorded true. -/
theorem Recorded.step (h : Recorded topic partition c) (hsteady : Steady topic partition c)
    (hid : ∀ b, (c b).broker.localBrokerID = b) (horderly : Orderly topic partition c e) :
    Recorded topic partition (step topic partition c e) := by
  intro leader f r hr
  have hlogs : ∀ b, (c b).log topic partition <+:
      (ReplicaCluster.step topic partition c e b).log topic partition :=
    fun b => (hsteady.extends horderly.retains b).2
  unfold Node.progress at hr
  rcases managed_step topic partition c e leader with ⟨hsame, -⟩ | ⟨op, hcalled, hop, -⟩
  · rw [hsame] at hr
    exact (h leader f r hr).extends hlogs
  · rw [hop] at hr
    rcases offsets_step (c leader).broker.replication op topic partition with
      hoffsets | ⟨seen, now, replicaID, offset, r₀, rfl, hrange, hrole, hr₀⟩
    · obtain ⟨r', hr', hoffset⟩ := hoffsets.get hr
      rw [← hoffset]
      exact (h leader f r' hr').extends hlogs
    · cases hcalled with
      | ack g _ _ state _ hacking hstate hleader =>
        have hlinked := hsteady.linked g state hstate
        obtain ⟨-, hlast⟩ := Linked.acking hlinked hacking
        have hfollower : state.worker.followerID = g := hlinked.follower.trans (hid g)
        dsimp only [ReplicaProgress.step] at hr
        rw [ackReplica_ok hrange hrole hr₀, partitionOf_setPartition_self] at hr
        obtain ⟨r₁, hr₁, hoffset, -⟩ := get_recompute hr
        rw [hoffset]
        dsimp only at hr₁
        rw [FMap.get_set] at hr₁
        split at hr₁
        · rename_i hf
          cases hr₁
          rw [hf]
          rcases acked_cases r₀ (partitionOf (c leader).broker.replication topic
            partition).leaderOffset offset seen with hkept | hle
          · rw [hkept]
            exact (h leader _ r₀ hr₀).extends hlogs
          · have hagreed := Linked.agreed hlinked (show offset < _ by omega)
            rw [hleader, ← hfollower] at hagreed
            exact (hagreed.mono hle).extends hlogs
        · exact (h leader f r₁ hr₁).extends hlogs

variable (topic partition e) in
/-- The managers have only been called. -/
theorem reached_step {cfg : ReplicationConfig} {b : Int}
    (h : ∃ ops, (c b).broker.replication = run ReplicaProgress.step (newManager cfg) ops) :
    ∃ ops, (step topic partition c e b).broker.replication =
      run ReplicaProgress.step (newManager cfg) ops := by
  obtain ⟨ops, hops⟩ := h
  rcases managed_step topic partition c e b with
    ⟨hsame, -⟩ | ⟨op, -, hop, -⟩
  · exact ⟨ops, hsame.trans hops⟩
  · refine ⟨ops ++ [op], ?_⟩
    rw [hop, hops, run_append]
    rfl

end Partition

end Flux.ClusterProgress
