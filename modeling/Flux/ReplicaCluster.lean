import Flux.ClusterRuntime
import Flux.FollowerWorkers
import Flux.ReplicaProgress

/-!
The brokers of a cluster as far as one partition is concerned. Every call to a
component of a broker is one step: those of the PRODUCE and CONSUME requests, of
the runtime's ticks, and of the requests that a follower's worker sends to its
leader. Steps of different brokers and requests interleave in any order; the ticks
of one broker do not overlap. Each broker has metadata of its own.
-/
namespace Flux.ReplicaCluster

open GoRuntime GoStrings FiniteMap PartitionStorage RecordReads ReplicationManager
open ReplicaProgress ClusterMetadata Protocol BrokerNode ClusterRuntime TCPTransport
open FollowerWorkers (Cycle received applyRecord)

inductive Produce
  | routed (value : Str)
  | admitted (value : Str)
  | stored (offset : Int) (value : Str)
  | awaiting (offset : Int) (value : Str)
  deriving DecidableEq, Repr

/-- What the runtime of a broker is doing: a turn of `reconcileRoles`, a failover,
or a cycle of the worker. -/
inductive Activity
  | idle
  | snapped (pm : PartitionMetadata)
  | looked (pm : PartitionMetadata) (lastOffset : Int)
  | turned (pm : PartitionMetadata) (lastOffset : Int)
  | booted (pm : PartitionMetadata) (lastOffset : Int)
  | failing (pm : PartitionMetadata)
  | granted
  | asked (st : Status)
  | stepping (cycle : Cycle)
  deriving DecidableEq, Repr

def Activity.ofCycle : Cycle → Activity
  | .idle => .idle
  | cycle => .stepping cycle

def Activity.cycle : Activity → Cycle
  | .stepping cycle => cycle
  | _ => .idle

@[simp] theorem cycle_ofCycle (cycle : Cycle) : (Activity.ofCycle cycle).cycle = cycle := by
  cases cycle <;> rfl

structure Node where
  broker : Broker
  produces : List Produce
  watermarks : List Int
  runtime : Activity

abbrev Cluster := Int → Node

def Cluster.modify (c : Cluster) (b : Int) (change : Node → Node) : Cluster :=
  Function.update c b (change (c b))

def Node.call (op : Operation) (n : Node) : Node :=
  { n with broker := { n.broker with replication := step n.broker.replication op } }

section Partition

variable (topic : Str) (partition : Int)

def Node.view (n : Node) : Option PartitionMetadata :=
  (topicOf n.broker.controller.metadata topic).partitions.get partition

def Node.log (n : Node) : List Message := messagesOf n.broker.storage topic partition

def Node.progress (n : Node) : ReplicationManager.PartitionState :=
  partitionOf n.broker.replication topic partition

def Node.following (n : Node) : Option ReplicaWorkerState :=
  n.broker.workers.get (workerKey topic partition)

/-- `handleProduce` finds this broker named as the leader. -/
def Node.route (value : Str) (n : Node) : Node :=
  match n.view topic partition with
  | none => n
  | some pm =>
      if pm.leaderID = n.broker.localBrokerID then
        { n with produces := n.produces ++ [.routed value] }
      else n

def Node.checkLeader (i : ℕ) (n : Node) : Node :=
  match n.produces[i]? with
  | some (.routed value) =>
      let produces :=
        if (isLeader n.broker.replication topic partition).2 then
          n.produces.set i (.admitted value)
        else n.produces.eraseIdx i
      { n.call (.isLeader topic partition) with produces := produces }
  | _ => n

/-- The offset is the one that `ProduceToPartition` returns. -/
def Node.append (i : ℕ) (env : Env) (n : Node) : Node :=
  match n.produces[i]? with
  | some (.admitted value) =>
      let produced := produceToPartition env n.broker.storage topic partition value
      { n with
        broker := { n.broker with storage := produced.1 }
        produces := n.produces.set i (.stored produced.2.2 value) }
  | _ => n

def Node.report (i : ℕ) (now : Time) (n : Node) : Node :=
  match n.produces[i]? with
  | some (.stored offset value) =>
      { n.call (.onLeaderAppend now topic partition offset) with
        produces := n.produces.set i (.awaiting offset value) }
  | _ => n

/-- One poll of `WaitForAckAll`; the request is answered if its record is committed. -/
def Node.poll (i : ℕ) (now : Time) (n : Node) : Node :=
  match n.produces[i]? with
  | some (.awaiting offset _) =>
      let produces :=
        if (pollAckAll id now n.broker.replication topic partition offset).2 then
          n.produces.eraseIdx i
        else n.produces
      { n.call (.pollAckAll id now topic partition offset) with produces := produces }
  | _ => n

/-- A CONSUME request reads the watermark that it will cut its answer at. -/
def Node.mark (now : Time) (n : Node) : Node :=
  { n.call (.highWatermark now topic partition) with
    watermarks :=
      n.watermarks ++ [(highWatermark now n.broker.replication topic partition).2] }

def Node.control (now : Time) (cmd : Command) (n : Node) : Node :=
  { n with broker := { n.broker with controller := (n.broker.controller.apply now cmd).1 } }

def Node.reconcile (n : Node) : Node :=
  match n.runtime, n.view topic partition with
  | .idle, some pm => { n with runtime := .snapped pm }
  | _, _ => n

def Node.look (n : Node) : Node :=
  match n.runtime with
  | .snapped pm =>
      { n with runtime := .looked pm (lastOffset n.broker.storage topic partition) }
  | _ => n

def Node.stopWorker (n : Node) : Node :=
  { n with
    broker := { n.broker with workers := n.broker.workers.del (workerKey topic partition) } }

/-- `reconcileRoles` sets the role, or stops the worker of a partition that this
broker has no part in. -/
def Node.turn (now : Time) (n : Node) : Node :=
  match n.runtime with
  | .looked pm lastOffset =>
      if pm.leaderID = n.broker.localBrokerID then
        { n.call (.setRole now topic partition Role.leader.text) with
          runtime := .turned pm lastOffset }
      else if n.broker.localBrokerID ∉ pm.replicas ∨ pm.leaderID < 0 then
        { n.stopWorker topic partition with runtime := .idle }
      else
        { n.call (.setRole now topic partition Role.follower.text) with
          runtime := .turned pm lastOffset }
  | _ => n

def Node.boot (now : Time) (n : Node) : Node :=
  match n.runtime with
  | .turned pm lastOffset =>
      { n.call (.bootstrapOffset now topic partition lastOffset) with
        runtime := .booted pm lastOffset }
  | _ => n

/-- The end of a turn of `reconcileRoles`. -/
def Node.settle (n : Node) : Node :=
  match n.runtime with
  | .booted pm lastOffset =>
      if pm.leaderID = n.broker.localBrokerID then
        { n.stopWorker topic partition with runtime := .idle }
      else
        match n.broker.peers.get pm.leaderID with
        | none => { n with runtime := .idle }
        | some leaderAddr =>
            { n with
              broker :=
                { n.broker with
                  workers := ensureWorker n.broker.localBrokerID topic partition pm.leaderID
                    leaderAddr (lastOffset + 1) n.broker.workers }
              runtime := .idle }
  | _ => n

/-- `tryFailoverForWorker` takes its snapshot. A failover can follow any cycle: the
failures of cycles are not counted here. -/
def Node.failover (n : Node) : Node :=
  match n.runtime, n.view topic partition with
  | .idle, some pm => { n with runtime := .failing pm }
  | _, _ => n

def Node.lead (now : Time) (n : Node) : Node :=
  match n.runtime with
  | .failing pm =>
      if pm.leaderID = n.broker.localBrokerID then
        { n.call (.setRole now topic partition Role.leader.text) with runtime := .idle }
      else { n with runtime := .idle }
  | _ => n

def Node.lose (n : Node) : Node :=
  match n.runtime with
  | .granted => { n with runtime := .idle }
  | .asked _ => { n with runtime := .idle }
  | .stepping _ => { n with runtime := .idle }
  | _ => n

def Node.apply (env : Env) (n : Node) : Node :=
  match n.runtime, n.following topic partition with
  | .stepping (.applying record rest), some state =>
      let applied := applyRecord env n.broker.storage state.worker record rest
      { n with
        broker :=
          { n.broker with
            storage := applied.1
            workers := n.broker.workers.set (workerKey topic partition)
              { state with worker := applied.2.1 } }
        runtime := .ofCycle applied.2.2 }
  | _, _ => n

inductive Event
  | route (b : Int) (value : Str)
  | checkLeader (b : Int) (i : ℕ)
  | append (b : Int) (i : ℕ) (env : Env)
  | report (b : Int) (i : ℕ) (now : Time)
  | poll (b : Int) (i : ℕ) (now : Time)
  | mark (b : Int) (now : Time)
  | control (b : Int) (now : Time) (cmd : Command)
  | reconcile (b : Int)
  | look (b : Int)
  | turn (b : Int) (now : Time)
  | boot (b : Int) (now : Time)
  | settle (b : Int)
  | failover (b : Int)
  | lead (b : Int) (now : Time)
  | ask (f : Int)
  | status (f : Int) (now : Time)
  | reply (f : Int) (seq : ℕ)
  | lose (f : Int)
  | apply (f : Int) (env : Env)
  | ack (f : Int) (seen now : Time)

/-- The worker sends BROKER_FETCH, and the leader's manager says whether it leads. -/
def ask (c : Cluster) (f : Int) : Cluster :=
  match (c f).runtime, (c f).following topic partition with
  | .idle, some state =>
      let leads := (isLeader (c state.leaderID).broker.replication topic partition).2
      (c.modify state.leaderID (Node.call (.isLeader topic partition))).modify f
        (fun n => { n with runtime := if leads then .granted else .idle })
  | _, _ => c

def status (c : Cluster) (f : Int) (now : Time) : Cluster :=
  match (c f).runtime, (c f).following topic partition with
  | .granted, some state =>
      let st :=
        (ReplicationManager.status id now (c state.leaderID).broker.replication topic partition).2
      (c.modify state.leaderID (Node.call (.status id now topic partition))).modify f
        (fun n => { n with runtime := .asked st })
  | _, _ => c

def served (c : Cluster) (state : ReplicaWorkerState) (st : Status) :
    Except Panic (List Message) :=
  fetchRecords (c state.leaderID).broker.storage topic partition state.worker.nextOffset
    st.leaderOffset state.worker.maxBatch

/-- The text of the answer to BROKER_FETCH. -/
def answerText (seq : ℕ) (state : ReplicaWorkerState) (st : Status) (records : List Message) :
    Str :=
  ok (itoa seq) (fetchPayload topic partition state.worker.followerID st.highWatermark records)

def fetched (c : Cluster) (seq : ℕ) (state : ReplicaWorkerState) (st : Status) :
    List ReplicationRecord :=
  match served topic partition c state st with
  | .error _ => []
  | .ok records =>
      match fetchResult (answerText topic partition seq state st records) with
      | .error _ => []
      | .ok result => result.records

def reply (c : Cluster) (f : Int) (seq : ℕ) : Cluster :=
  match (c f).runtime, (c f).following topic partition with
  | .asked st, some state =>
      c.modify f (fun n =>
        { n with runtime := .ofCycle (received (fetched topic partition c seq state st)) })
  | _, _ => c

def ack (c : Cluster) (f : Int) (seen now : Time) : Cluster :=
  match (c f).runtime, (c f).following topic partition with
  | .stepping (.acking offset), some state =>
      (c.modify state.leaderID (Node.call
        (.ackReplica seen now topic partition state.worker.followerID offset))).modify f
          (fun n => { n with runtime := .idle })
  | _, _ => c

def step (c : Cluster) : Event → Cluster
  | .route b value => c.modify b (Node.route topic partition value)
  | .checkLeader b i => c.modify b (Node.checkLeader topic partition i)
  | .append b i env => c.modify b (Node.append topic partition i env)
  | .report b i now => c.modify b (Node.report topic partition i now)
  | .poll b i now => c.modify b (Node.poll topic partition i now)
  | .mark b now => c.modify b (Node.mark topic partition now)
  | .control b now cmd => c.modify b (Node.control now cmd)
  | .reconcile b => c.modify b (Node.reconcile topic partition)
  | .look b => c.modify b (Node.look topic partition)
  | .turn b now => c.modify b (Node.turn topic partition now)
  | .boot b now => c.modify b (Node.boot topic partition now)
  | .settle b => c.modify b (Node.settle topic partition)
  | .failover b => c.modify b (Node.failover topic partition)
  | .lead b now => c.modify b (Node.lead topic partition now)
  | .ask f => ask topic partition c f
  | .status f now => status topic partition c f now
  | .reply f seq => reply topic partition c f seq
  | .lose f => c.modify f Node.lose
  | .apply f env => c.modify f (Node.apply topic partition env)
  | .ack f seen now => ack topic partition c f seen now

/-- Fresh brokers, none of which has anything of the partition. -/
structure Started (c : Cluster) : Prop where
  id : ∀ b, (c b).broker.localBrokerID = b
  data : ∀ b, get2 (c b).broker.storage.data topic partition = none
  state : ∀ b, get2 (c b).broker.storage.partitionState topic partition = none
  replication : ∀ b, ∃ cfg, (c b).broker.replication = newManager cfg
  workers : ∀ b, (c b).following topic partition = none
  produces : ∀ b, (c b).produces = []
  watermarks : ∀ b, (c b).watermarks = []
  runtime : ∀ b, (c b).runtime = .idle

end Partition

end Flux.ReplicaCluster
