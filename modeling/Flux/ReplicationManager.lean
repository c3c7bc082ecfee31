import Flux.BrokerConfig
import Flux.FiniteMap

/-!
The replication manager of one broker: for every partition its role, the offset
of the leader, the progress of the followers and the high watermark. Followers
are the replica numbers from 1 up, whichever broker leads. Each call is given
the clock readings it makes; a list that the code builds by ranging over a map
is given the order it is visited in.
-/
namespace Flux.ReplicationManager

open GoRuntime GoStrings FiniteMap BrokerConfig

structure ReplicationConfig where
  replicationFactor : Int
  minInSyncReplicas : Int
  maxReplicaLag : Int
  replicaLagTimeout : Int
  ackAllTimeout : Int
  deriving DecidableEq, Repr

structure ReplicaState where
  offset : Int
  lastSeen : Time
  inSync : Bool
  deriving DecidableEq, Repr

inductive Role
  | leader
  | follower
  deriving DecidableEq, Repr

def Role.text : Role → Str
  | .leader => lit "leader"
  | .follower => lit "follower"

structure PartitionState where
  role : Role
  leaderOffset : Int
  highWatermark : Int
  followers : FMap Int ReplicaState
  deriving DecidableEq

structure Manager where
  cfg : ReplicationConfig
  partitions : FMap Str (FMap Int PartitionState)
  deriving DecidableEq

structure Status where
  topic : Str
  partition : Int
  role : Role
  leaderOffset : Int
  highWatermark : Int
  inSyncReplicas : List Int
  underReplicated : Bool
  replicationFactor : Int
  deriving DecidableEq, Repr

def newManager (cfg : ReplicationConfig) : Manager :=
  let replicationFactor := if cfg.replicationFactor < 1 then 1 else cfg.replicationFactor
  let minInSyncReplicas := if cfg.minInSyncReplicas < 1 then 1 else cfg.minInSyncReplicas
  { cfg :=
      { replicationFactor := replicationFactor
        minInSyncReplicas :=
          if replicationFactor < minInSyncReplicas then replicationFactor else minInSyncReplicas
        maxReplicaLag := if cfg.maxReplicaLag < 0 then 0 else cfg.maxReplicaLag
        replicaLagTimeout := valueOrDefault cfg.replicaLagTimeout (10 * second)
        ackAllTimeout := valueOrDefault cfg.ackAllTimeout (2 * second) }
    partitions := FMap.empty }

def newFollowers (replicationFactor : Int) : FMap Int ReplicaState :=
  (List.range' 1 (replicationFactor - 1).toNat).foldl
    (fun followers (id : ℕ) => followers.set (id : Int) ⟨-1, zeroTime, false⟩) FMap.empty

def newPartition (cfg : ReplicationConfig) : PartitionState :=
  ⟨.leader, -1, -1, newFollowers cfg.replicationFactor⟩

/-- The state `ensurePartition` returns a pointer to. -/
def partitionOf (m : Manager) (topic : Str) (partition : Int) : PartitionState :=
  (get2 m.partitions topic partition).getD (newPartition m.cfg)

def setPartition (m : Manager) (topic : Str) (partition : Int) (ps : PartitionState) : Manager :=
  { m with partitions := set2 m.partitions topic partition ps }

/-- The freshness test of `recomputeLocked`: the replica was heard of lately. -/
def fresh (cfg : ReplicationConfig) (now : Time) (r : ReplicaState) : Bool :=
  r.lastSeen ≠ zeroTime ∧ timeSub now r.lastSeen ≤ cfg.replicaLagTimeout

def inSyncNow (cfg : ReplicationConfig) (now : Time) (leaderOffset : Int) (r : ReplicaState) :
    Bool :=
  fresh cfg now r && decide (wrap64 (leaderOffset - r.offset) ≤ cfg.maxReplicaLag)

def inSyncOffsets (followers : FMap Int ReplicaState) : List Int :=
  followers.keys.filterMap (fun id =>
    (followers.get id).bind (fun r => if r.inSync then some r.offset else none))

/-- `recomputeLocked`, without the alert hook, which only logs. -/
def recompute (cfg : ReplicationConfig) (now : Time) (ps : PartitionState) : PartitionState :=
  let followers := ps.followers.mapValues
    (fun _ r => { r with inSync := inSyncNow cfg now ps.leaderOffset r })
  { ps with
    followers := followers
    highWatermark := max (-1) ((inSyncOffsets followers).foldl min ps.leaderOffset) }

/-- `statusLocked`: the leader is replica 0, the others in the order of the map. -/
def statusOf (order : List Int → List Int) (m : Manager) (topic : Str) (partition : Int)
    (ps : PartitionState) (now : Time) : Status :=
  let isr := 0 :: (order ps.followers.keys).filter (fun id =>
    match ps.followers.get id with
    | none => false
    | some r => r.inSync && decide (timeSub now r.lastSeen ≤ m.cfg.replicaLagTimeout))
  { topic := topic
    partition := partition
    role := ps.role
    leaderOffset := ps.leaderOffset
    highWatermark := ps.highWatermark
    inSyncReplicas := isr
    underReplicated := (isr.length : Int) < m.cfg.minInSyncReplicas
    replicationFactor := m.cfg.replicationFactor }

def onLeaderAppend (now : Time) (m : Manager) (topic : Str) (partition offset : Int) : Manager :=
  let ps := partitionOf m topic partition
  match ps.role with
  | .follower => setPartition m topic partition ps
  | .leader =>
      setPartition m topic partition
        (recompute m.cfg now
          { ps with leaderOffset := if ps.leaderOffset < offset then offset else ps.leaderOffset })

def ReplicaState.acked (r : ReplicaState) (leaderOffset offset : Int) (seen : Time) :
    ReplicaState :=
  let offset := if leaderOffset < offset then leaderOffset else offset
  { r with offset := if r.offset < offset then offset else r.offset, lastSeen := seen }

def ackReplica (seen now : Time) (m : Manager) (topic : Str) (partition replicaID offset : Int) :
    Manager × Except Str Unit :=
  if replicaID ≤ 0 ∨ m.cfg.replicationFactor ≤ replicaID then
    (m, .error (lit "invalid replica id"))
  else
    let ps := partitionOf m topic partition
    match ps.role with
    | .follower => (setPartition m topic partition ps, .error (lit "partition is not leader"))
    | .leader =>
        match ps.followers.get replicaID with
        | none => (setPartition m topic partition ps, .error (lit "replica id not configured"))
        | some r =>
            (setPartition m topic partition (recompute m.cfg now
              { ps with
                followers := ps.followers.set replicaID (r.acked ps.leaderOffset offset seen) }),
              .ok ())

def refresh (now : Time) (m : Manager) (topic : Str) (partition : Int) :
    Manager × PartitionState :=
  let ps := recompute m.cfg now (partitionOf m topic partition)
  (setPartition m topic partition ps, ps)

/-- One turn of the loop of `WaitForAckAll`: whether the offset is committed. -/
def pollAckAll (order : List Int → List Int) (now : Time) (m : Manager) (topic : Str)
    (partition targetOffset : Int) : Manager × Bool :=
  let refreshed := refresh now m topic partition
  let status := statusOf order m topic partition refreshed.2 now
  (refreshed.1, decide (targetOffset ≤ status.highWatermark) &&
    decide (m.cfg.minInSyncReplicas ≤ (status.inSyncReplicas.length : Int)))

def highWatermark (now : Time) (m : Manager) (topic : Str) (partition : Int) : Manager × Int :=
  let refreshed := refresh now m topic partition
  (refreshed.1, refreshed.2.highWatermark)

def isLeader (m : Manager) (topic : Str) (partition : Int) : Manager × Bool :=
  let ps := partitionOf m topic partition
  (setPartition m topic partition ps, ps.role = .leader)

def PartitionState.turned (ps : PartitionState) (role : Role) : PartitionState :=
  match role with
  | .leader => { ps with role := .leader }
  | .follower =>
      { ps with
        role := .follower
        highWatermark := -1
        followers := ps.followers.mapValues (fun _ r => { r with inSync := false }) }

def readRole (role : Str) : Option Role :=
  if role = lit "leader" then some .leader
  else if role = lit "follower" then some .follower
  else none

def setRole (now : Time) (m : Manager) (topic : Str) (partition : Int) (role : Str) :
    Manager × Except Str Unit :=
  match readRole role with
  | none => (m, .error (lit "invalid role"))
  | some role =>
      (setPartition m topic partition
        (recompute m.cfg now ((partitionOf m topic partition).turned role)), .ok ())

def bootstrapOffset (now : Time) (m : Manager) (topic : Str) (partition offset : Int) : Manager :=
  let ps := partitionOf m topic partition
  let ps := { ps with leaderOffset := if ps.leaderOffset < offset then offset else ps.leaderOffset }
  let ps := match ps.role with
    | .leader => ps
    | .follower => { ps with highWatermark := offset }
  setPartition m topic partition (recompute m.cfg now ps)

def status (order : List Int → List Int) (now : Time) (m : Manager) (topic : Str)
    (partition : Int) : Manager × Status :=
  let refreshed := refresh now m topic partition
  (refreshed.1, statusOf order m topic partition refreshed.2 now)

end Flux.ReplicationManager
