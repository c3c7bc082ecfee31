import Flux.BrokerRuns
import Flux.ClusterLogs

/-!
Log matching. Under the conditions of `Orderly` a follower that is caught up with
its leader has a prefix of the leader's log. A broker that led before and has
records that were never replicated breaks them when it starts to follow: its
worker starts behind those records and never compares them.
-/
namespace Flux.LogMatching

open GoStrings FiniteMap BrokerConfig StorageAppends
open ClusterMetadata BrokerNode TCPTransport ReplicaCluster ClusterLogs Runs

section Partition

variable (topic : Str) (partition : Int)

def caughtUp (c : Cluster) (f : Int) (seq : ℕ) : Bool :=
  match (c f).runtime, (c f).following topic partition with
  | .asked st, some state =>
      match served topic partition c state st with
      | .error _ => false
      | .ok records =>
          match fetchResult (answerText topic partition seq state st records) with
          | .error _ => false
          | .ok result => result.records = []
  | _, _ => false

def Matching (c : Cluster) (f : Int) : Prop :=
  ∀ state ∈ (c f).following topic partition,
    (c f).log topic partition <+: (c state.leaderID).log topic partition

instance (c : Cluster) (f : Int) : Decidable (Matching topic partition c f) :=
  inferInstanceAs (Decidable (∀ _ ∈ _, _))

/-- Whoever is caught up has a prefix of its leader's log. -/
def LogsMatch (c : Cluster) : Prop :=
  ∀ f seq, caughtUp topic partition c f seq → Matching topic partition c f

variable {topic partition}

theorem Steady.matching {c : Cluster} (h : Steady topic partition c) (f : Int) :
    Matching topic partition c f := by
  intro state hstate
  obtain ⟨htopic, hpartition, -, -, -, hin⟩ := h.linked f state hstate
  have hbehind := hin.behind
  rwa [htopic, hpartition] at hbehind

/-- In every state of an orderly run a follower that is caught up with its leader
has a prefix of the leader's log. -/
theorem logs_match {start : Cluster} (hstart : Started topic partition start)
    (events : List Event)
    (hvalid : Valid (step topic partition) (Orderly topic partition) start events) :
    LogsMatch topic partition (run (step topic partition) start events) := by
  have hstep : ∀ (c : Cluster) (e : Event), Steady topic partition c →
      Orderly topic partition c e → Steady topic partition (step topic partition c e) :=
    fun _ _ hc he => hc.step he
  have hsteady := run_invariant hstep (ClusterLogs.Started.steady hstart) hvalid
  exact fun f _ _ => Steady.matching hsteady f

end Partition

def assemble (cfg : Config) : Cluster := fun b =>
  ⟨newBroker BrokerRuns.quiet
    { cfg with brokerID := b, clusterPeers := [lit "0@a:1", lit "1@b:1", lit "2@c:1"] } [] 0
    FMap.empty (.holds FMap.empty) ⟨FMap.empty⟩, [], [], .idle⟩

theorem assemble_started (cfg : Config) (topic : Str) (partition : Int) :
    Started topic partition (assemble cfg) where
  id _ := rfl
  data _ := rfl
  state _ := rfl
  replication _ := ⟨_, rfl⟩
  workers _ := rfl
  produces _ := rfl
  watermarks _ := rfl
  runtime _ := rfl

def appoint (b leaderID : Int) : List Event :=
  [.control b 0 (.upsertTopic (newTopic (lit "orders") 1 3)),
    .control b 0 (.setPartitionLeader (lit "orders") 0 leaderID [])]

def produce (b : Int) (i : ℕ) (value : String) : List Event :=
  [.route b (lit value), .checkLeader b i, .append b i (calm 1), .report b i 1]

/-- One turn of `reconcileRoles`. -/
def reconcile (b : Int) : List Event := [.reconcile b, .look b, .turn b 1, .boot b 1, .settle b]

def takeover : List Event :=
  appoint 1 1 ++ produce 1 0 "x" ++ appoint 0 0 ++ produce 0 0 "y" ++ appoint 1 0 ++
    reconcile 1 ++ [.ask 1, .status 1 2]

/-- The log of the old leader differs after a takeover. -/
theorem old_leader_diverges :
    ¬ LogsMatch (lit "orders") 0
      (run (step (lit "orders") 0) (assemble defaults) takeover) := by
  intro h
  have hcaught : caughtUp (lit "orders") 0
      (run (step (lit "orders") 0) (assemble defaults) takeover) 1 1 := by decide
  exact absurd (h 1 1 hcaught) (by decide)

def cycle (f : Int) (records : ℕ) : List Event :=
  [.ask f, .status f 2, .reply f 1] ++ List.replicate records (.apply f (calm 2)) ++ [.ack f 2 2]

def handover : List Event :=
  appoint 0 0 ++ appoint 1 0 ++ reconcile 1 ++ produce 0 0 "x" ++ cycle 1 1 ++ appoint 1 1 ++
    reconcile 1 ++ produce 1 0 "y" ++ appoint 2 1 ++ reconcile 2 ++ cycle 2 2 ++
    [.ask 2, .status 2 3]

/-- The logs match after leadership was handed over. -/
theorem logs_match_handover :
    caughtUp (lit "orders") 0
        (run (step (lit "orders") 0) (assemble defaults) handover) 2 1 ∧
      LogsMatch (lit "orders") 0
        (run (step (lit "orders") 0) (assemble defaults) handover) :=
  ⟨by decide +kernel,
    logs_match (assemble_started defaults (lit "orders") 0) handover (by decide +kernel)⟩

end Flux.LogMatching
