import Flux.BrokerNode
import Flux.ReplicaProgress

/-!
The numbers of the replicas. The control plane lets any broker of a partition
lead it, the replication manager counts the leader as replica 0 and the others
from 1 up, and a worker refuses the number 0. The three agree if and only if
broker 0 leads.
-/
namespace Flux.ReplicaIdentity

open GoRuntime GoStrings FiniteMap ReplicationManager ClusterMetadata Runs ReplicaProgress
open BrokerNode

structure Apart (follower : Int) (ps ps' : PartitionState) : Prop where
  leader : ps'.leaderOffset = ps.leaderOffset
  others : ∀ id, id ≠ follower → (ps'.followers.get id).map ReplicaState.offset =
    (ps.followers.get id).map ReplicaState.offset

/-- Every broker of a partition other than the leader can follow it under its own
number, and the leader goes by its own. -/
structure Identified (cfg : ReplicationConfig) (replicas : List Int) (leader : Int) : Prop where
  follows : ∀ f ∈ replicas, f ≠ leader → ∀ topic partition startOffset maxBatch, topic ≠ [] →
    0 ≤ partition → 0 ≤ startOffset →
      ∃ worker, newFollowerWorker f topic partition startOffset maxBatch = .ok worker ∧
        worker.followerID = f
  acked : ∀ f ∈ replicas, f ≠ leader → ∀ ops topic partition seen now offset,
    (partitionOf (run step (newManager cfg) ops) topic partition).role = .leader →
      (ackReplica seen now (run step (newManager cfg) ops) topic partition f offset).2 = .ok () ∧
      Apart f (partitionOf (run step (newManager cfg) ops) topic partition)
        (partitionOf (ackReplica seen now (run step (newManager cfg) ops) topic partition f
          offset).1 topic partition)
  refused : ∀ ops topic partition seen now offset,
    (ackReplica seen now (run step (newManager cfg) ops) topic partition leader offset).2 ≠ .ok ()
  named : ∀ order : List Int → List Int, (∀ keys, (order keys).Perm keys) →
    ∀ ops now topic partition,
      let isr := (status order now (run step (newManager cfg) ops) topic partition).2.inSyncReplicas
      leader ∈ isr ∧ ∀ id ∈ isr, id ∈ replicas

/-- The replicas of a new partition are the first broker numbers. -/
theorem mem_replicas_newTopic {name : Str} {partitions replicationFactor p : Int}
    {pm : PartitionMetadata}
    (h : (newTopic name partitions replicationFactor).partitions.get p = some pm) (id : Int) :
    id ∈ pm.replicas ↔ 0 ≤ id ∧ id < replicationFactor := by
  rw [get_newTopic] at h
  split at h
  · cases h
    rw [List.mem_map]
    constructor
    · rintro ⟨i, hi, rfl⟩
      rw [List.mem_range] at hi
      omega
    · rintro ⟨hlow, hhigh⟩
      refine ⟨id.toNat, List.mem_range.mpr ?_, ?_⟩
      · omega
      · omega
  · cases h

section Acks

variable (cfg : ReplicationConfig) (ops : List Operation) (topic : Str) (partition : Int)

/-- A leader takes acknowledgements of all numbers from 1 up to the number of replicas. -/
theorem ack_accepted {f : Int}
    (hf : 0 < f ∧ f < (newManager cfg).cfg.replicationFactor) (seen now : Time) (offset : Int)
    (hrole : (partitionOf (run step (newManager cfg) ops) topic partition).role = .leader) :
    (ackReplica seen now (run step (newManager cfg) ops) topic partition f offset).2 = .ok () ∧
      Apart f (partitionOf (run step (newManager cfg) ops) topic partition)
        (partitionOf (ackReplica seen now (run step (newManager cfg) ops) topic partition f
          offset).1 topic partition) := by
  obtain ⟨r, hr⟩ := Option.isSome_iff_exists.mp
    ((run_followers cfg ops topic partition f).mpr hf)
  have hcfg := run_cfg (newManager cfg) ops
  rw [ackReplica_ok (hcfg ▸ hf) hrole hr, partitionOf_setPartition_self]
  refine ⟨rfl, rfl, fun id hid => ?_⟩
  dsimp only [recompute]
  rw [FMap.get_mapValues, FMap.get_set_ne _ _ hid, Option.map_map]
  rfl

theorem ack_zero_refused (seen now : Time) (offset : Int) :
    (ackReplica seen now (run step (newManager cfg) ops) topic partition 0 offset).2 ≠ .ok () := by
  simp [ackReplica]

/-- The replicas in sync are number 0 and numbers of followers. -/
theorem mem_inSyncReplicas {order : List Int → List Int}
    (horder : ∀ keys, (order keys).Perm keys) (now : Time) {id : Int}
    (hid : id ∈ (status order now (run step (newManager cfg) ops) topic
      partition).2.inSyncReplicas) :
    id = 0 ∨ 0 < id ∧ id < (newManager cfg).cfg.replicationFactor := by
  rcases List.mem_cons.mp hid with hzero | hfollower
  · exact .inl hzero
  · have hkey := ((horder _).mem_iff).mp (List.mem_filter.mp hfollower).1
    have hsome := Option.isSome_iff_exists.mpr ((FMap.mem_keys_iff _ _).mp hkey)
    have hstep := run_followers cfg (ops ++ [.status order now topic partition]) topic partition id
    rw [run_append, run_cons, run_nil] at hstep
    dsimp only [step, status, refresh] at hstep
    rw [partitionOf_setPartition_self] at hstep
    exact .inr (hstep.mp hsome)

end Acks

/-- The numberings agree if and only if broker 0 leads. -/
theorem identified_iff (cfg : ReplicationConfig) {name : Str} {partitions p leader : Int}
    {pm : PartitionMetadata}
    (hpm : (newTopic name partitions (newManager cfg).cfg.replicationFactor).partitions.get p =
      some pm) (hleader : leader ∈ pm.replicas) :
    Identified cfg pm.replicas leader ↔ leader = 0 := by
  have hreplicas := mem_replicas_newTopic hpm
  obtain ⟨hlow, hhigh⟩ := (hreplicas leader).mp hleader
  constructor
  · intro h
    by_contra hne
    have hrole : (partitionOf (run step (newManager cfg) []) name p).role = .leader := by
      rw [run_nil, partitionOf_newManager]
      rfl
    have haccepted := ack_accepted cfg [] name p ⟨by omega, hhigh⟩ 0 0 0 hrole
    exact h.refused [] name p 0 0 0 haccepted.1
  · rintro rfl
    refine ⟨fun f hf hne topic partition startOffset maxBatch htopic hpartition hstart => ?_,
      fun f hf hne ops topic partition seen now offset hrole => ?_,
      fun ops topic partition seen now offset =>
        ack_zero_refused cfg ops topic partition seen now offset,
      fun order horder ops now topic partition => ⟨List.mem_cons_self .., fun id hid => ?_⟩⟩
    · have hpos : ¬ f ≤ 0 := by
        have := ((hreplicas f).mp hf).1
        omega
      refine ⟨⟨f, topic, partition, startOffset, if maxBatch ≤ 0 then 100 else maxBatch⟩, ?_, rfl⟩
      simp only [newFollowerWorker, hpos, htopic, not_lt.mpr hpartition, not_lt.mpr hstart,
        ↓reduceIte]
    · have hrange := (hreplicas f).mp hf
      exact ack_accepted cfg ops topic partition ⟨by omega, hrange.2⟩ seen now offset hrole
    · refine (hreplicas id).mpr ?_
      rcases mem_inSyncReplicas cfg ops topic partition horder now hid with rfl | ⟨hpos, hlt⟩
      · exact ⟨Int.le_refl _, hhigh⟩
      · exact ⟨by omega, hlt⟩

theorem identified_of_zero : Identified trio [0, 1, 2] 0 := by
  have hpm : (newTopic (lit "orders") 1 (newManager trio).cfg.replicationFactor).partitions.get 0 =
      some ⟨0, -1, [0, 1, 2], [0, 1, 2]⟩ := by decide
  exact (identified_iff trio hpm (by decide)).mpr rfl

/-- Where broker 1 leads, broker 0 cannot follow, an acknowledgement under number 1
is taken for a follower's, and the leader is not named as in sync. -/
theorem second_leader_unidentified :
    newFollowerWorker 0 (lit "orders") 0 0 256 = .error (lit "follower id must be > 0") ∧
    (ackReplica 0 0 (newManager trio) (lit "orders") 0 1 5).2 = .ok () ∧
    (status id 0 (newManager trio) (lit "orders") 0).2.inSyncReplicas = [0] ∧
    ¬ Identified trio [0, 1, 2] 1 := by
  refine ⟨by decide, by decide, by decide, fun h => ?_⟩
  have haccepted : (ackReplica 0 0 (newManager trio) (lit "orders") 0 1 5).2 = .ok () := by
    decide
  exact h.refused [] (lit "orders") 0 0 0 5 haccepted

end Flux.ReplicaIdentity
