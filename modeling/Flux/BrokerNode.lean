import Flux.ClusterMetadata
import Flux.Interleavings
import Flux.OffsetCommits
import Flux.PartitionStorage
import Flux.ReplicationManager

/-!
The broker: its components side by side, each behind a lock of its own. Whatever
the broker does is a program of calls to single components, and between two
calls of one program the programs of other connections and of the background
runtime may run.
-/
namespace Flux.BrokerNode

open GoRuntime GoStrings Cuts FiniteMap BrokerConfig PartitionStorage Groups OffsetCommits
open ReplicationManager ClusterMetadata Interleavings

structure FollowerWorker where
  followerID : Int
  topic : Str
  partition : Int
  nextOffset : Int
  maxBatch : Int
  deriving DecidableEq, Repr

structure ReplicaWorkerState where
  worker : FollowerWorker
  leaderID : Int
  leaderAddr : Str
  failureCount : ℕ
  deriving DecidableEq, Repr

structure Broker where
  storage : Storage
  coordinator : Coordinator
  replication : Manager
  controller : RaftMetadataStore
  localBrokerID : Int
  defaultPartitions : Int
  defaultReplicationFactor : Int
  peers : FMap Int Str
  workers : FMap Str ReplicaWorkerState

abbrev Handler := Program Broker Panic

/-- What one program meets outside the broker: its clock readings, the clock at
the polls of `WaitForAckAll` before its deadline, what the calls to the storage
and to the groups meet, and the order in which maps are visited. -/
structure Surroundings where
  clock : ℕ → Time
  polls : List Time
  storage : Env
  visit : Visit
  order : List Int → List Int
  order_perm : ∀ keys, (order keys).Perm keys

section Calls

variable {α : Type}

def compute (result : Except Panic α) : Handler α :=
  Program.atomically (fun b => result.map (fun a => (b, a)))

def onStorage (op : Storage → Storage × α) : Handler α :=
  Program.modify (fun b => ({ b with storage := (op b.storage).1 }, (op b.storage).2))

def onReplication (op : Manager → Manager × α) : Handler α :=
  Program.modify (fun b => ({ b with replication := (op b.replication).1 }, (op b.replication).2))

def onController (op : RaftMetadataStore → RaftMetadataStore × α) : Handler α :=
  Program.modify (fun b => ({ b with controller := (op b.controller).1 }, (op b.controller).2))

def onGroups (allocs : GroupManager → Except Panic Unit) (op : GroupManager → GroupManager × α) :
    Handler α :=
  Program.atomically (fun b =>
    (allocs b.coordinator.groupManager).map (fun _ =>
      ({ b with
        coordinator :=
          { b.coordinator with groupManager := (op b.coordinator.groupManager).1 } },
        (op b.coordinator.groupManager).2)))

def onOffsets (op : OffsetManager → OffsetManager × α) : Handler α :=
  Program.modify (fun b =>
    ({ b with
      coordinator :=
        { b.coordinator with offsetManager := (op b.coordinator.offsetManager).1 } },
      (op b.coordinator.offsetManager).2))

end Calls

def snapshot : Handler MetadataSnapshot := Program.read (fun b => b.controller.metadata)

def attemptAll {α β : Type} (call : α → Handler (Except Str β)) :
    List α → ℕ → Handler (Except Str ℕ)
  | [], count => pure (.ok count)
  | a :: rest, count => do
      match ← call a with
      | .error e => pure (.error e)
      | .ok _ => attemptAll call rest (count + 1)

def callCreateTopic (now : Time) (name : Str) (partitions replicationFactor : Int) :
    Handler (Except Str ApplyResult) :=
  Program.atomically (fun b =>
    (createTopic now b.controller name partitions replicationFactor).map (fun r =>
      ({ b with controller := r.1 }, r.2)))

def callSetPartitionLeader (now : Time) (topic : Str) (partition leaderID : Int)
    (isr : List Int) : Handler (Except Str ApplyResult) :=
  onController (fun store => setPartitionLeader now store topic partition leaderID isr)

def callSetBrokerFence (now : Time) (brokerID : Int) (fenced : Bool) :
    Handler (Except Str ApplyResult) :=
  onController (fun store => setBrokerFence now store brokerID fenced)

/-- `ElectTopicLeaders` decides from one snapshot and then updates each partition. -/
def electTopicLeaders (env : Surroundings) (topic : Str) : Handler (Except Str ℕ) := do
  let metadata ← snapshot
  match electionUpdates metadata topic with
  | .error e => pure (.error e)
  | .ok updates =>
      attemptAll (fun u => callSetPartitionLeader (env.clock 0) topic u.partition u.leaderID u.isr)
        updates 0

def reconcileBrokerHealth (env : Surroundings) (timeout : Int) : Handler (Except Str ℕ) :=
  if timeout ≤ 0 then pure (.error (lit "timeout must be > 0"))
  else do
    let metadata ← snapshot
    attemptAll (fun u => callSetBrokerFence (env.clock 1) u.1 u.2)
      (healthUpdates (env.clock 0) timeout metadata) 0

def assignInitialLeaders (topic : TopicMetadata) (brokers : List Int) :
    Except Panic (FMap Int Int) :=
  if brokers = [] then .ok FMap.empty
  else topic.partitions.keys.foldlM
    (fun out partitionID =>
      (goMod partitionID brokers.length).bind (fun i =>
        (index brokers i).map (fun leaderID => out.set partitionID leaderID))) FMap.empty

def topicOf (metadata : MetadataSnapshot) (topic : Str) : TopicMetadata :=
  (metadata.topics.get topic).getD ⟨[], FMap.empty⟩

def unfenced (metadata : MetadataSnapshot) (ids : List Int) : List Int :=
  ids.filter (fun id =>
    match metadata.brokers.get id with
    | none => false
    | some broker => !broker.fenced)

def ensureTopicMetadata (env : Surroundings) (topic : Str) :
    Handler (Except Str TopicMetadata) :=
  if topic = [] then pure (.error (lit "topic is required"))
  else do
    let metadata ← snapshot
    match metadata.topics.get topic with
    | some md => pure (.ok md)
    | none => do
        let b ← Program.read id
        match ← callCreateTopic (env.clock 0) topic b.defaultPartitions
            b.defaultReplicationFactor with
        | .error e => pure (.error e)
        | .ok _ => do
            let updated ← snapshot
            let alive := unfenced updated (env.order updated.brokers.keys)
            let brokerIDs := if alive = [] then [b.localBrokerID] else alive
            let leaders ← compute (assignInitialLeaders (topicOf updated topic) brokerIDs)
            let leaderOf : ℕ → Int := fun p => (leaders.get (p : Int)).getD b.localBrokerID
            match ← attemptAll
                (fun p : ℕ =>
                  callSetPartitionLeader (env.clock 0) topic p (leaderOf p) [leaderOf p])
                (List.range b.defaultPartitions.toNat) 0 with
            | .error e => pure (.error e)
            | .ok _ => do
                let final ← snapshot
                pure (.ok (topicOf final topic))

/-- `WaitForAckAll`: after the polls before the deadline there is a last one,
and if the offset is not committed then either, the wait times out. -/
def waitForAckAll (env : Surroundings) (topic : Str) (partition targetOffset : Int) :
    List Time → Handler (Except Str Unit)
  | [] => do
      if ← onReplication (fun m =>
          pollAckAll env.order (env.clock 9) m topic partition targetOffset) then
        pure (.ok ())
      else pure (.error (lit "acks=all timeout"))
  | now :: rest => do
      if ← onReplication (fun m => pollAckAll env.order now m topic partition targetOffset) then
        pure (.ok ())
      else waitForAckAll env topic partition targetOffset rest

def newFollowerWorker (followerID : Int) (topic : Str) (partition startOffset maxBatch : Int) :
    Except Str FollowerWorker :=
  if followerID ≤ 0 then .error (lit "follower id must be > 0")
  else if topic = [] then .error (lit "topic is required")
  else if partition < 0 then .error (lit "partition must be >= 0")
  else if startOffset < 0 then .error (lit "start offset must be >= 0")
  else .ok ⟨followerID, topic, partition, startOffset, if maxBatch ≤ 0 then 100 else maxBatch⟩

/-- `parsePeers`: entries of the form `id@address`; any other is skipped. -/
def parsePeers (raw : List Str) : FMap Int Str :=
  raw.foldl
    (fun out entry =>
      match splitN [64] 2 (trimSpace entry) with
      | [idText, addrText] =>
          match atoi idText with
          | none => out
          | some id =>
              if id < 0 ∨ trimSpace addrText = [] then out else out.set id (trimSpace addrText)
      | _ => out)
    FMap.empty

def bootstrapAddress (cfg : Config) (fallbackHost : Str) (fallbackPort : Int) : Str × Int :=
  let host := trimSpace cfg.advertisedHost
  (if host = [] then fallbackHost else host,
    if cfg.advertisedPort ≤ 0 then fallbackPort else cfg.advertisedPort)

def newBroker (env : Surroundings) (cfg : Config) (fallbackHost : Str) (fallbackPort : Int)
    (disk : Disk) (file : GroupsFile) (offsets : OffsetManager) : Broker where
  storage := newStorage env.storage (newSettings cfg) disk
  coordinator := ⟨newGroupManager cfg.numPartitions.toNat file, offsets⟩
  replication := newManager
    { replicationFactor := cfg.replicationFactor
      minInSyncReplicas := cfg.minInSyncReplicas
      maxReplicaLag := cfg.replicaMaxLag
      replicaLagTimeout := duration cfg.replicaLagTimeoutMs millisecond
      ackAllTimeout := duration cfg.ackAllTimeoutMs millisecond }
  controller :=
    let address := bootstrapAddress cfg fallbackHost fallbackPort
    (registerBroker (env.clock 1) newRaftMetadataStore cfg.brokerID address.1 address.2
      (env.clock 0)).1
  localBrokerID := cfg.brokerID
  defaultPartitions := cfg.numPartitions
  defaultReplicationFactor := cfg.replicationFactor
  peers := (parsePeers cfg.clusterPeers).set cfg.brokerID
    (cfg.advertisedHost ++ (58 :: itoa cfg.advertisedPort))
  workers := FMap.empty

end Flux.BrokerNode
