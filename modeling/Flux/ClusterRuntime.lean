import Flux.BrokerNode
import Flux.TCPTransport

/-!
The background runtime of a broker. One tick takes on the roles that the
metadata gives this broker, and starts or stops the workers that replicate the
partitions it follows; another makes every worker fetch, apply and acknowledge
once. Only the runtime touches the workers, and its ticks do not overlap.
-/
namespace Flux.ClusterRuntime

open GoStrings FiniteMap PartitionStorage ReplicationManager ClusterMetadata
open Interleavings BrokerNode TCPTransport

structure Tick where
  env : Surroundings
  names : List Str → List Str
  names_perm : ∀ keys, (names keys).Perm keys
  fetch : Str → Except TransportError FetchResult
  ack : Str → Except TransportError Unit

def workerKey (topic : Str) (partition : Int) : Str := topic ++ (47 :: itoa partition)

def maxFailureBeforeFailover : ℕ := 10

def workerBatch : Int := 256

def onWorkers (op : FMap Str ReplicaWorkerState → FMap Str ReplicaWorkerState) : Handler Unit :=
  Program.modify (fun b => ({ b with workers := op b.workers }, ()))

def stopWorker (topic : Str) (partition : Int) : Handler Unit :=
  onWorkers (fun workers => workers.del (workerKey topic partition))

def ensureWorker (localBrokerID : Int) (topic : Str) (partition leaderID : Int) (leaderAddr : Str)
    (startOffset : Int) (workers : FMap Str ReplicaWorkerState) : FMap Str ReplicaWorkerState :=
  let key := workerKey topic partition
  let kept : Bool :=
    match workers.get key with
    | none => false
    | some existing => existing.leaderID = leaderID ∧ existing.leaderAddr = leaderAddr
  if kept then workers
  else
    match newFollowerWorker localBrokerID topic partition startOffset workerBatch with
    | .error _ => workers
    | .ok worker => workers.set key ⟨worker, leaderID, leaderAddr, 0⟩

def takeRole (tick : Tick) (topic : Str) (partition lastOffset : Int) (role : Role) :
    Handler Unit := do
  let _ ← onReplication (fun m => setRole (tick.env.clock 1) m topic partition role.text)
  onReplication (fun m => (bootstrapOffset (tick.env.clock 2) m topic partition lastOffset, ()))

/-- One turn of the loop of `reconcileRoles`. -/
def reconcilePartition (tick : Tick) (topic : Str) (partition : Int) (pm : PartitionMetadata) :
    Handler Unit := do
  let b ← Program.read id
  let lastOffset ← Program.read (fun b => lastOffset b.storage topic partition)
  if pm.leaderID = b.localBrokerID then
    takeRole tick topic partition lastOffset .leader
    stopWorker topic partition
  else if b.localBrokerID ∉ pm.replicas ∨ pm.leaderID < 0 then stopWorker topic partition
  else
    takeRole tick topic partition lastOffset .follower
    match b.peers.get pm.leaderID with
    | none => pure ()
    | some leaderAddr =>
        onWorkers (ensureWorker b.localBrokerID topic partition pm.leaderID leaderAddr
          (lastOffset + 1))

def visited (tick : Tick) (metadata : MetadataSnapshot) : List (Str × Int × PartitionMetadata) :=
  (tick.names metadata.topics.keys).flatMap (fun topic =>
    let md := topicOf metadata topic
    (tick.env.order md.partitions.keys).filterMap (fun partition =>
      (md.partitions.get partition).map (fun pm => (topic, partition, pm))))

def forEach {α : Type} (body : α → Handler Unit) : List α → Handler Unit
  | [] => pure ()
  | a :: rest => do
      body a
      forEach body rest

def splitHostPort (addr : Str) : Option (Str × Int) :=
  match addr.splitOn 58 with
  | [hostText, portText] =>
      match atoi portText with
      | none => none
      | some port =>
          if port ≤ 0 ∨ trimSpace hostText = [] then none else some (trimSpace hostText, port)
  | _ => none

/-- `bootstrapPeers`: the runtime starts by registering every peer. -/
def bootstrapPeers (tick : Tick) : Handler Unit := do
  let b ← Program.read id
  forEach
    (fun id =>
      match (b.peers.get id).bind splitHostPort with
      | none => pure ()
      | some address => do
          let _ ← onController (fun store =>
            registerBroker (tick.env.clock 1) store id address.1 address.2 (tick.env.clock 0))
          pure ())
    (tick.env.order b.peers.keys)

def reconcileRoles (tick : Tick) : Handler Unit := do
  let b ← Program.read id
  let _ ← onController (fun store => heartbeatBroker (tick.env.clock 0) store b.localBrokerID)
  let metadata ← snapshot
  forEach (fun p => reconcilePartition tick p.1 p.2.1 p.2.2) (visited tick metadata)

inductive StepError
  | transport (e : TransportError)
  | gap (expected got : Int)
  | append (e : AppendError)
  deriving DecidableEq, Repr

def setNextOffset (key : Str) (nextOffset : Int) : Handler Unit :=
  onWorkers (fun workers => workers.alter key
    (fun state => { state with worker := { state.worker with nextOffset := nextOffset } }))

def applyRecords (tick : Tick) (key topic : Str) (partition : Int) :
    List ReplicationRecord → Int → Handler (Except StepError Unit)
  | [], _ => pure (.ok ())
  | record :: rest, nextOffset =>
      if record.offset ≠ nextOffset then pure (.error (.gap nextOffset record.offset))
      else do
        match ← onStorage (fun s =>
            appendReplicated tick.env.storage s topic partition record.offset record.value) with
        | some e => pure (.error (.append e))
        | none => do
            setNextOffset key (nextOffset + 1)
            applyRecords tick key topic partition rest (nextOffset + 1)

/-- `StepOnce`: fetch, apply, acknowledge. The result counts the records. -/
def stepOnce (tick : Tick) (key : Str) (worker : FollowerWorker) :
    Handler (Except StepError ℕ) :=
  match tick.fetch key with
  | .error e => pure (.error (.transport e))
  | .ok result =>
      if result.records = [] then pure (.ok 0)
      else do
        match ← applyRecords tick key worker.topic worker.partition result.records
            worker.nextOffset with
        | .error e => pure (.error e)
        | .ok () =>
            match tick.ack key with
            | .error e => pure (.error (.transport e))
            | .ok () => pure (.ok result.records.length)

def setFailureCount (key : Str) (failureCount : ℕ) : Handler Unit :=
  onWorkers (fun workers => workers.alter key
    (fun state => { state with failureCount := failureCount }))

def tryFailoverForWorker (tick : Tick) (leaderID : Int) : Handler Unit := do
  let _ ← callSetBrokerFence (tick.env.clock 0) leaderID true
  let metadata ← snapshot
  let b ← Program.read id
  forEach
    (fun topic => do
      match ← electTopicLeaders tick.env topic with
      | .error _ => pure ()
      | .ok _ =>
          let md := topicOf metadata topic
          forEach
            (fun partition => do
              let _ ← onReplication (fun m =>
                setRole (tick.env.clock 1) m topic partition Role.leader.text)
              pure ())
            ((tick.env.order md.partitions.keys).filter (fun partition =>
              (md.partitions.get partition).any (fun pm => pm.leaderID = b.localBrokerID))))
    (tick.names metadata.topics.keys)

/-- One turn of the loop of `stepWorkers`, with the failover it calls. -/
def stepWorkerWith (failover : Tick → Int → Handler Unit) (tick : Tick) (key : Str) :
    Handler Unit := do
  let b ← Program.read id
  match b.workers.get key with
  | none => pure ()
  | some state =>
      match ← stepOnce tick key state.worker with
      | .error _ =>
          if maxFailureBeforeFailover ≤ state.failureCount + 1 then
            failover tick state.leaderID
            setFailureCount key 0
          else setFailureCount key (state.failureCount + 1)
      | .ok applied => if 0 < applied then setFailureCount key 0 else pure ()

def stepWorker : Tick → Str → Handler Unit := stepWorkerWith tryFailoverForWorker

def stepWorkers (tick : Tick) : Handler Unit := do
  let b ← Program.read id
  forEach (stepWorker tick) (tick.names b.workers.keys)

end Flux.ClusterRuntime
