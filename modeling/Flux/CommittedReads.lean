import Flux.ClusterProgress
import Flux.FixedLeader
import Flux.LogMatching

/-!
Reads of committed records from any broker. A follower takes its own last offset for
the high watermark, not the one that the leader sends it. So what it serves is
committed only where everything that the leader's manager knows of is: where no
replica may lag, or there is only one, and workers are answered only while the
manager knows of every stored record.
-/
namespace Flux.CommittedReads

open GoRuntime GoStrings BrokerConfig ReplicationManager RecordReads ReplicaCluster ClusterCalls
open ClusterProgress FixedLeader LogMatching Runs
open PartitionStorage (Message Storage consume messagesOf)
open ReplicaProgress (Sound lag_recompute newManager_lag partitionOf_setPartition_self run_cfg
  run_followers run_sound step_cfg step_moves)

section Partition

variable (topic : Str) (partition leader : Int)

/-- Whatever a CONSUME request returns that has read its watermark, no offset in it is
above the watermark of the leader. -/
def Committed (c : Cluster) : Prop :=
  ∀ b highWatermark offset records now, highWatermark ∈ (c b).watermarks →
    consumeRecords (c b).broker.storage topic partition offset highWatermark = .ok records →
    ∀ m ∈ records, m.offset ≤
      (ReplicationManager.highWatermark now (c leader).broker.replication topic partition).2

def Small (c : Cluster) (e : Event) : Prop :=
  ((step topic partition c e leader).progress topic partition).leaderOffset < 2 ^ 63 - 1

/-- A faithful step with small offsets. -/
structure Tame (c : Cluster) (e : Event) : Prop where
  faithful : Faithful topic partition leader c e
  small : Small topic partition leader c e

section Decidable

variable (c : Cluster) (e : Event)

instance : Decidable (Small topic partition leader c e) := inferInstanceAs (Decidable (_ < _))

instance : Decidable (Tame topic partition leader c e) :=
  decidable_of_iff (Faithful topic partition leader c e ∧ Small topic partition leader c e)
    ⟨fun h => ⟨h.1, h.2⟩, fun h => ⟨h.faithful, h.small⟩⟩

end Decidable

/-- No replica may lag behind the leader, or there is no other. -/
def Tight (cfg : ReplicationConfig) : Prop :=
  cfg.maxReplicaLag ≤ 0 ∨ cfg.replicationFactor ≤ 1

instance (cfg : ReplicationConfig) : Decidable (Tight cfg) := inferInstanceAs (Decidable (_ ∨ _))

structure Served (c : Cluster) : Prop where
  led : Led topic partition leader c
  manager : ∃ cfg ops,
    (c leader).broker.replication = run ReplicaProgress.step (newManager cfg) ops
  tight : Tight (c leader).broker.replication.cfg
  small : ((c leader).progress topic partition).leaderOffset < 2 ^ 63 - 1
  marked : ∀ highWatermark ∈ (c leader).watermarks,
    highWatermark ≤ ((c leader).progress topic partition).leaderOffset

variable {topic partition leader} {c : Cluster} {e : Event}

/-- Where no replica may lag, the watermark is the offset of the leader. -/
theorem highWatermark_eq {m : Manager}
    (hreached : ∃ cfg ops, m = run ReplicaProgress.step (newManager cfg) ops) (htight : Tight m.cfg)
    (hsmall : (partitionOf m topic partition).leaderOffset < 2 ^ 63 - 1) (now : Time) :
    (highWatermark now m topic partition).2 = (partitionOf m topic partition).leaderOffset := by
  obtain ⟨cfg, ops, hops⟩ := hreached
  have hnext : run ReplicaProgress.step (newManager cfg)
      (ops ++ [.highWatermark now topic partition]) = (highWatermark now m topic partition).1 := by
    rw [run_append, ← hops]
    rfl
  have hstate : partitionOf (highWatermark now m topic partition).1 topic partition =
      recompute m.cfg now (partitionOf m topic partition) := partitionOf_setPartition_self ..
  have hsound := run_sound cfg (ops ++ [.highWatermark now topic partition]) topic partition
  have hfollowers := run_followers cfg (ops ++ [.highWatermark now topic partition]) topic partition
  rw [hnext, hstate] at hsound hfollowers
  have hcfg : m.cfg = (newManager cfg).cfg := by rw [hops, run_cfg]
  have hle : (recompute m.cfg now (partitionOf m topic partition)).highWatermark ≤
      (partitionOf m topic partition).leaderOffset := hsound.le_leader
  show (recompute m.cfg now (partitionOf m topic partition)).highWatermark = _
  rcases htight with hlag | hfactor
  · have hnatural : 0 ≤ m.cfg.maxReplicaLag := by
      rw [hcfg]
      exact newManager_lag cfg
    have hlow := lag_recompute hnatural hsound hsmall
    omega
  · rcases hsound.watermark.1 with heq | ⟨id, r, hr, -⟩
    · exact heq
    · have hid := (hfollowers id).mp (by rw [hr]; rfl)
      rw [← hcfg] at hid
      omega

theorem Served.manager_step (h : Served topic partition leader c) :
    (∃ cfg ops, (step topic partition c e leader).broker.replication =
        run ReplicaProgress.step (newManager cfg) ops) ∧
      Tight (step topic partition c e leader).broker.replication.cfg := by
  obtain ⟨cfg, hops⟩ := h.manager
  refine ⟨⟨cfg, reached_step topic partition e hops⟩, ?_⟩
  rcases managed_step topic partition c e leader with ⟨hsame, -⟩ | ⟨op, -, hop, -⟩
  · rw [hsame]
    exact h.tight
  · rw [hop, step_cfg]
    exact h.tight

/-- A watermark that is read is the leader's offset at that time. -/
theorem Served.marked_step (h : Served topic partition leader c) {highWatermark : Int}
    (hmem : highWatermark ∈ (step topic partition c e leader).watermarks) :
    highWatermark ≤ ((step topic partition c e leader).progress topic partition).leaderOffset := by
  have hgrow := leaderOffset_step topic partition c e leader
  rcases managed_step topic partition c e leader with ⟨-, hsame⟩ | ⟨op, hcalled, -, hmarks⟩
  · rw [hsame] at hmem
    exact Int.le_trans (h.marked _ hmem) hgrow
  · rw [hmarks] at hmem
    rcases List.mem_append.mp hmem with hold | hnew
    · exact Int.le_trans (h.marked _ hold) hgrow
    · cases hcalled with
      | mark now =>
        rw [List.mem_singleton.mp hnew, highWatermark_eq h.manager h.tight h.small now]
        exact hgrow
      | _ => cases hnew

theorem Served.step (h : Served topic partition leader c)
    (htame : Tame topic partition leader c e) :
    Served topic partition leader (step topic partition c e) where
  led := h.led.step htame.faithful
  manager := h.manager_step.1
  tight := h.manager_step.2
  small := htame.small
  marked _ hmem := h.marked_step hmem

theorem Started.served (hstart : Started topic partition c)
    (htight : Tight (c leader).broker.replication.cfg) : Served topic partition leader c := by
  obtain ⟨cfg, hcfg⟩ := hstart.replication leader
  refine ⟨FixedLeader.Started.led hstart, ⟨cfg, [], hcfg⟩, htight, ?_, ?_⟩
  · unfold Node.progress
    rw [hcfg, ReplicaProgress.partitionOf_newManager]
    dsimp only [newPartition]
    omega
  · intro highWatermark hmem
    rw [hstart.watermarks leader] at hmem
    cases hmem

theorem mem_of_consume {s : Storage} {offset : Int} {messages : List Message}
    (h : consume s topic partition offset = .ok messages) {m : Message} (hm : m ∈ messages) :
    m ∈ messagesOf s topic partition := by
  unfold consume at h
  unfold messagesOf
  split at h
  · cases h
    cases hm
  · rename_i stored hstored
    rw [hstored]
    split at h
    · cases h
      cases hm
    · unfold sliceFrom at h
      split at h
      · cases h
      · cases h
        exact List.mem_of_mem_drop hm

/-- A record that a CONSUME request returns is in the log and not above the watermark. -/
theorem mem_of_consumeRecords {s : Storage} {offset highWatermark : Int} {records : List Message}
    (h : consumeRecords s topic partition offset highWatermark = .ok records) {m : Message}
    (hm : m ∈ records) : m ∈ messagesOf s topic partition ∧ m.offset ≤ highWatermark := by
  unfold consumeRecords at h
  split at h
  · cases h
    cases hm
  · cases hconsume : consume s topic partition offset with
    | error e =>
      rw [hconsume] at h
      cases h
    | ok messages =>
      rw [hconsume] at h
      cases h
      refine ⟨mem_of_consume hconsume (List.takeWhile_prefix _ |>.subset hm), ?_⟩
      simpa using List.mem_takeWhile_imp hm

/-- What such a cluster serves is committed. -/
theorem Served.committed (h : Served topic partition leader c) :
    Committed topic partition leader c := by
  intro b hw offset records now hmem hrecords m hm
  obtain ⟨hlog, hle⟩ := mem_of_consumeRecords hrecords hm
  rw [highWatermark_eq h.manager h.tight h.small now]
  by_cases hb : b = leader
  · rw [hb] at hmem
    exact Int.le_trans hle (h.marked hw hmem)
  · obtain ⟨i, hi⟩ := List.mem_iff_getElem?.mp hlog
    have hoffset := (h.led.whole b).positional i m hi
    have hlength := (List.getElem?_eq_some_iff.mp hi).1
    have hbehind : (messagesOf (c b).broker.storage topic partition).length ≤
        (known topic partition (c leader)).length := (h.led.behind b hb).length_le
    have hknown := List.length_take_le
      (((c leader).progress topic partition).leaderOffset + 1).toNat
      ((c leader).log topic partition)
    unfold known at hbehind
    unfold Node.progress at hknown hbehind
    omega

variable (leader) in
/-- Where no replica may lag, every record that a CONSUME request returns is committed,
whichever broker it is sent to. -/
theorem committed_reads {start : Cluster} (hstart : Started topic partition start)
    (htight : Tight (start leader).broker.replication.cfg) (events : List Event)
    (hvalid : Valid (step topic partition) (Tame topic partition leader) start events) :
    Committed topic partition leader (run (step topic partition) start events) := by
  have hstep : ∀ (c : Cluster) (e : Event), Served topic partition leader c →
      Tame topic partition leader c e →
        Served topic partition leader (step topic partition c e) :=
    fun _ _ hc he => hc.step he
  exact (run_invariant hstep (Started.served hstart htight) hvalid).committed

end Partition

def ahead : List Event :=
  appoint 0 0 ++ appoint 1 0 ++ appoint 2 0 ++ reconcile 1 ++ reconcile 2 ++
    produce 0 0 "a" ++ cycle 1 1 ++ cycle 2 1 ++ produce 0 1 "b" ++ cycle 1 1 ++ reconcile 1 ++
    [.mark 1 3]

/-- Where replicas may lag by one, a follower serves a record that is not committed. -/
theorem follower_reads_ahead :
    ¬ Committed (lit "orders") 0 0 (run (step (lit "orders") 0)
      (assemble { defaults with replicaMaxLag := 1 }) ahead) := by
  intro h
  have hread := h 1 1 0 [⟨0, lit "a"⟩, ⟨1, lit "b"⟩] 3 (by decide +kernel) (by decide +kernel)
    ⟨1, lit "b"⟩ (by decide)
  exact absurd hread (by decide +kernel)

/-- Without a permitted lag the same run serves committed records. -/
theorem committed_reads_tight :
    Committed (lit "orders") 0 0 (run (step (lit "orders") 0) (assemble defaults) ahead) :=
  committed_reads 0 (assemble_started defaults (lit "orders") 0) (by decide) ahead
    (by decide +kernel)

end Flux.CommittedReads
