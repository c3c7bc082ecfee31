import Flux.FiniteMap
import Flux.GoStrings

/-!
The cluster metadata of the control plane: topics with their partitions and
registered brokers, changed by one command at a time. A command that fails a
check leaves the metadata and the index as they are. Topic configurations are
left out: they are always empty and nothing reads them.
-/
namespace Flux.ClusterMetadata

open GoRuntime GoStrings FiniteMap

structure PartitionMetadata where
  id : Int
  leaderID : Int
  replicas : List Int
  isr : List Int
  deriving DecidableEq, Repr

structure TopicMetadata where
  name : Str
  partitions : FMap Int PartitionMetadata
  deriving DecidableEq

structure BrokerMetadata where
  id : Int
  host : Str
  port : Int
  epoch : Int
  lastHeartbeat : Time
  fenced : Bool
  deriving DecidableEq, Repr

structure MetadataSnapshot where
  topics : FMap Str TopicMetadata
  brokers : FMap Int BrokerMetadata
  deriving DecidableEq

inductive Command
  | upsertTopic (topic : TopicMetadata)
  | registerBroker (broker : BrokerMetadata)
  | brokerHeartbeat (brokerID : Int)
  | setPartitionLeader (topic : Str) (partition leaderID : Int) (isr : List Int)
  | setBrokerFence (brokerID : Int) (fenced : Bool)
  deriving DecidableEq

structure ApplyResult where
  term : ℕ
  index : ℕ
  deriving DecidableEq, Repr

/-- `term` and `index` are 64-bit counters. -/
structure RaftMetadataStore where
  term : ℕ
  index : ℕ
  metadata : MetadataSnapshot
  deriving DecidableEq

variable {store : RaftMetadataStore}

def newRaftMetadataStore : RaftMetadataStore := ⟨1, 0, ⟨FMap.empty, FMap.empty⟩⟩

def validateCommand : Command → Except Str Unit
  | .upsertTopic topic =>
      if topic.name = [] then .error (lit "invalid upsert topic command") else .ok ()
  | .registerBroker broker =>
      if broker.id < 0 then .error (lit "invalid register broker command") else .ok ()
  | .brokerHeartbeat brokerID =>
      if brokerID < 0 then .error (lit "invalid broker heartbeat command") else .ok ()
  | .setPartitionLeader topic partition _ _ =>
      if topic = [] ∨ partition < 0 then .error (lit "invalid set partition leader command")
      else .ok ()
  | .setBrokerFence brokerID _ =>
      if brokerID < 0 then .error (lit "invalid set broker fence command") else .ok ()

def PartitionMetadata.led (p : PartitionMetadata) (leaderID : Int) (isr : List Int) :
    PartitionMetadata :=
  { p with leaderID := leaderID, isr := if isr = [] then p.isr else isr }

def MetadataSnapshot.change (now : Time) (s : MetadataSnapshot) :
    Command → Except Str MetadataSnapshot
  | .upsertTopic topic => .ok { s with topics := s.topics.set topic.name topic }
  | .registerBroker broker =>
      let broker :=
        if broker.lastHeartbeat = zeroTime then { broker with lastHeartbeat := now } else broker
      .ok { s with brokers := s.brokers.set broker.id broker }
  | .brokerHeartbeat brokerID =>
      match s.brokers.get brokerID with
      | none => .error (lit "broker not found: " ++ itoa brokerID)
      | some b =>
          .ok { s with
            brokers := s.brokers.set b.id { b with lastHeartbeat := now, fenced := false } }
  | .setPartitionLeader topic partition leaderID isr =>
      match s.topics.get topic with
      | none => .error (lit "topic not found: " ++ topic)
      | some md =>
          match md.partitions.get partition with
          | none =>
              .error (lit "partition not found: topic=" ++ (topic ++ (lit " partition=" ++
                itoa partition)))
          | some p =>
              .ok { s with
                topics := s.topics.set topic
                  { md with partitions := md.partitions.set partition (p.led leaderID isr) } }
  | .setBrokerFence brokerID fenced =>
      match s.brokers.get brokerID with
      | none => .error (lit "broker not found: " ++ itoa brokerID)
      | some b => .ok { s with brokers := s.brokers.set b.id { b with fenced := fenced } }

/-- `Apply` -/
def RaftMetadataStore.apply (now : Time) (store : RaftMetadataStore) (cmd : Command) :
    RaftMetadataStore × Except Str ApplyResult :=
  match validateCommand cmd with
  | .error e => (store, .error e)
  | .ok () =>
      match store.metadata.change now cmd with
      | .error e => (store, .error e)
      | .ok metadata =>
          let index := (store.index + 1) % 2 ^ 64
          (⟨store.term, index, metadata⟩, .ok ⟨store.term, index⟩)

def newTopic (name : Str) (partitions replicationFactor : Int) : TopicMetadata :=
  let replicas := (List.range replicationFactor.toNat).map (fun i : ℕ => (i : Int))
  ⟨name, (List.range partitions.toNat).foldl
    (fun m (i : ℕ) => m.set (i : Int) ⟨(i : Int), -1, replicas, replicas⟩) FMap.empty⟩

/-- The partitions of a new topic. -/
theorem get_newTopic (name : Str) (partitions replicationFactor p : Int) :
    (newTopic name partitions replicationFactor).partitions.get p =
      if 0 ≤ p ∧ p < partitions then
        some ⟨p, -1, (List.range replicationFactor.toNat).map (fun i : ℕ => (i : Int)),
          (List.range replicationFactor.toNat).map (fun i : ℕ => (i : Int))⟩
      else none := by
  have hloop := FMap.get_foldl_set (fun i : ℕ => (i : Int))
    (fun p => (⟨p, -1, (List.range replicationFactor.toNat).map (fun i : ℕ => (i : Int)),
      (List.range replicationFactor.toNat).map (fun i : ℕ => (i : Int))⟩ : PartitionMetadata))
    (List.range partitions.toNat) FMap.empty p
  rw [FMap.get_empty] at hloop
  refine hloop.trans (if_congr ?_ rfl rfl)
  rw [List.mem_map]
  constructor
  · rintro ⟨i, hi, rfl⟩
    rw [List.mem_range] at hi
    omega
  · rintro ⟨hlow, hhigh⟩
    refine ⟨p.toNat, List.mem_range.mpr ?_, ?_⟩
    · omega
    · omega

def createTopic (now : Time) (store : RaftMetadataStore) (name : Str)
    (partitions replicationFactor : Int) :
    Except Panic (RaftMetadataStore × Except Str ApplyResult) :=
  if name = [] then .ok (store, .error (lit "topic name is required"))
  else if partitions ≤ 0 then .ok (store, .error (lit "partitions must be > 0"))
  else if replicationFactor ≤ 0 then
    .ok (store, .error (lit "replication factor must be > 0"))
  else (makeCap intSize replicationFactor).map (fun _ =>
    store.apply now (.upsertTopic (newTopic name partitions replicationFactor)))

def registerBroker (now : Time) (store : RaftMetadataStore) (id : Int) (host : Str)
    (port epoch : Int) : RaftMetadataStore × Except Str ApplyResult :=
  if id < 0 then (store, .error (lit "broker id must be >= 0"))
  else if host = [] then (store, .error (lit "broker host is required"))
  else if port ≤ 0 then (store, .error (lit "broker port must be > 0"))
  else store.apply now
    (.registerBroker ⟨id, host, port, if epoch ≤ 0 then now else epoch, now, false⟩)

def heartbeatBroker (now : Time) (store : RaftMetadataStore) (id : Int) :
    RaftMetadataStore × Except Str ApplyResult :=
  store.apply now (.brokerHeartbeat id)

def setPartitionLeader (now : Time) (store : RaftMetadataStore) (topic : Str)
    (partition leaderID : Int) (isr : List Int) : RaftMetadataStore × Except Str ApplyResult :=
  if topic = [] then (store, .error (lit "topic is required"))
  else if partition < 0 then (store, .error (lit "partition must be >= 0"))
  else if leaderID < -1 then (store, .error (lit "leader id must be >= -1"))
  else store.apply now (.setPartitionLeader topic partition leaderID isr)

def setBrokerFence (now : Time) (store : RaftMetadataStore) (brokerID : Int) (fenced : Bool) :
    RaftMetadataStore × Except Str ApplyResult :=
  if brokerID < 0 then (store, .error (lit "broker id must be >= 0"))
  else store.apply now (.setBrokerFence brokerID fenced)

section Topics

structure LeaderFree (Q : TopicMetadata → Prop) : Prop where
  led : ∀ (md : TopicMetadata) (partition : Int) (p p' : PartitionMetadata),
    md.partitions.get partition = some p → Q md →
      Q { md with partitions := md.partitions.set partition p' }

def Everywhere (Q : TopicMetadata → Prop) (metadata : MetadataSnapshot) : Prop :=
  ∀ topic md, metadata.topics.get topic = some md → Q md

variable {Q : TopicMetadata → Prop}

theorem Everywhere.set {metadata : MetadataSnapshot} (h : Everywhere Q metadata) (name : Str)
    {md : TopicMetadata} (hmd : Q md) :
    Everywhere Q { metadata with topics := metadata.topics.set name md } := by
  intro topic md' hget
  dsimp only at hget
  rw [FMap.get_set] at hget
  split at hget
  · cases hget
    exact hmd
  · exact h topic md' hget

variable (hfree : LeaderFree Q)

include hfree

/-- A command changes the set of partitions only by creating a topic. -/
theorem Everywhere.change {metadata metadata' : MetadataSnapshot} (h : Everywhere Q metadata)
    (now : Time) {cmd : Command} (hcmd : ∀ md, cmd = .upsertTopic md → Q md)
    (hchange : metadata.change now cmd = .ok metadata') : Everywhere Q metadata' := by
  cases cmd with
  | upsertTopic md =>
    cases hchange
    exact h.set md.name (hcmd md rfl)
  | registerBroker broker =>
    cases hchange
    exact h
  | brokerHeartbeat id =>
    simp only [MetadataSnapshot.change] at hchange
    split at hchange
    · contradiction
    · cases hchange
      exact h
  | setPartitionLeader topic partition leaderID isr =>
    simp only [MetadataSnapshot.change] at hchange
    split at hchange
    · contradiction
    · rename_i md hmd
      split at hchange
      · contradiction
      · rename_i p hp
        cases hchange
        exact h.set topic (hfree.led md partition p _ hp (h topic md hmd))
  | setBrokerFence id fenced =>
    simp only [MetadataSnapshot.change] at hchange
    split at hchange
    · contradiction
    · cases hchange
      exact h

section Everywhere

variable (h : Everywhere Q store.metadata)

include h

theorem Everywhere.apply (now : Time) {cmd : Command} (hcmd : ∀ md, cmd = .upsertTopic md → Q md) :
    Everywhere Q (store.apply now cmd).1.metadata := by
  unfold RaftMetadataStore.apply
  split
  · exact h
  · split
    · exact h
    · exact h.change hfree now hcmd ‹_›

/-- A topic is created unless its replicas cannot be listed. -/
theorem Everywhere.createTopic (now : Time) (name : Str) {partitions : Int}
    {replicationFactor : Int} (hnew : Q (newTopic name partitions replicationFactor))
    {r : RaftMetadataStore × Except Str ApplyResult}
    (hr : createTopic now store name partitions replicationFactor = .ok r) :
    Everywhere Q r.1.metadata := by
  unfold ClusterMetadata.createTopic at hr
  split at hr
  · cases hr
    exact h
  · split at hr
    · cases hr
      exact h
    · split at hr
      · cases hr
        exact h
      · cases hcap : makeCap intSize replicationFactor with
        | error e =>
          rw [hcap] at hr
          cases hr
        | ok u =>
          rw [hcap] at hr
          cases hr
          refine h.apply hfree now (fun md hmd => ?_)
          cases hmd
          exact hnew

theorem Everywhere.setPartitionLeader (now : Time) (topic : Str) (partition leaderID : Int)
    (isr : List Int) :
    Everywhere Q (setPartitionLeader now store topic partition leaderID isr).1.metadata := by
  unfold ClusterMetadata.setPartitionLeader
  split
  · exact h
  · split
    · exact h
    · split
      · exact h
      · exact h.apply hfree now (fun md hmd => by contradiction)

theorem Everywhere.setBrokerFence (now : Time) (brokerID : Int) (fenced : Bool) :
    Everywhere Q (setBrokerFence now store brokerID fenced).1.metadata := by
  unfold ClusterMetadata.setBrokerFence
  split
  · exact h
  · exact h.apply hfree now (fun md hmd => by contradiction)

theorem Everywhere.registerBroker (now : Time) (id : Int) (host : Str) (port epoch : Int) :
    Everywhere Q (registerBroker now store id host port epoch).1.metadata := by
  unfold ClusterMetadata.registerBroker
  split
  · exact h
  · split
    · exact h
    · split
      · exact h
      · exact h.apply hfree now (fun md hmd => by contradiction)

end Everywhere

end Topics

def isBrokerEligible (brokers : FMap Int BrokerMetadata) (brokerID : Int) : Bool :=
  match brokers.get brokerID with
  | none => false
  | some broker => !broker.fenced

def electFromReplicas (brokers : FMap Int BrokerMetadata) (replicas : List Int) : Int :=
  (replicas.find? (isBrokerEligible brokers)).getD (-1)

def selectEligibleReplicas (brokers : FMap Int BrokerMetadata) (replicas : List Int) : List Int :=
  replicas.filter (isBrokerEligible brokers)

structure LeaderUpdate where
  partition : Int
  leaderID : Int
  isr : List Int
  deriving DecidableEq, Repr

/-- The leader update of one partition in `ElectTopicLeaders`, if it needs one. -/
def electPartition (brokers : FMap Int BrokerMetadata) (pid : Int) (p : PartitionMetadata) :
    Option LeaderUpdate :=
  let targetLeader :=
    if isBrokerEligible brokers p.leaderID then p.leaderID
    else electFromReplicas brokers p.replicas
  if targetLeader = p.leaderID then none
  else
    let isr := selectEligibleReplicas brokers p.replicas
    some ⟨pid, targetLeader, if isr = [] ∧ 0 ≤ targetLeader then [targetLeader] else isr⟩

/-- The leader updates that `ElectTopicLeaders` makes from one snapshot. -/
def electionUpdates (snapshot : MetadataSnapshot) (topic : Str) : Except Str (List LeaderUpdate) :=
  if topic = [] then .error (lit "topic is required")
  else
    match snapshot.topics.get topic with
    | none => .error (lit "topic not found: " ++ topic)
    | some md =>
        .ok ((sortInts md.partitions.keys).filterMap (fun pid =>
          (md.partitions.get pid).bind (electPartition snapshot.brokers pid)))

/-- The fence that `ReconcileBrokerHealth` gives one broker, if it changes. -/
def reconcileBroker (now : Time) (timeout : Int) (b : BrokerMetadata) : Option Bool :=
  let stale : Bool := b.lastHeartbeat = zeroTime ∨ timeout < timeSub now b.lastHeartbeat
  if b.fenced = stale then none else some stale

/-- The fences that `ReconcileBrokerHealth` sets from one snapshot. -/
def healthUpdates (now : Time) (timeout : Int) (snapshot : MetadataSnapshot) : List (Int × Bool) :=
  (sortInts snapshot.brokers.keys).filterMap (fun id =>
    ((snapshot.brokers.get id).bind (reconcileBroker now timeout)).map (fun fenced => (id, fenced)))

end Flux.ClusterMetadata
