import Flux.BrokerNode
import Flux.GroupAllocations
import Flux.Protocol
import Flux.RecordReads

/-!
The handlers of the client and broker requests. A handler checks its arguments
from left to right, calls the components of the broker and answers with one
line.
-/
namespace Flux.RequestHandlers

open GoStrings Cuts BrokerConfig PartitionStorage RecordReads Groups GroupAllocations
open ReplicationManager ClusterMetadata Protocol Interleavings BrokerNode

def badRequest (req : Request) (message : Str) : Str :=
  err req.correlationID (lit "BAD_REQUEST") message

def notLeader (req : Request) : Str :=
  err req.correlationID (lit "NOT_LEADER") (lit "partition leader unavailable on this broker")

def withInt (req : Request) (value : Str) (field : String) (next : Int → Handler Str) :
    Handler Str :=
  match parseInt value (lit field) with
  | .error e => pure (badRequest req e)
  | .ok n => next n

def answer {α : Type} (req : Request) (code : String) (render : α → Str) :
    Except Str α → Handler Str
  | .error e => pure (err req.correlationID (lit code) e)
  | .ok a => pure (ok req.correlationID (render a))

def field (name : String) (value : Str) : Str := lit name ++ value

def ints (l : List Int) : Str := bracketed (l.map itoa)

def printBool (v : Bool) : Str := if v then lit "true" else lit "false"

inductive AckMode
  | none
  | leader
  | all
  deriving DecidableEq, Repr

def readAckMode : List Str → Option AckMode
  | [] => some .leader
  | arg :: _ =>
      match splitN [61] 2 arg with
      | [name, mode] =>
          if toLower name ≠ lit "acks" then .none
          else if toLower mode = lit "0" then some .none
          else if toLower mode = lit "1" then some .leader
          else if toLower mode = lit "all" then some .all
          else .none
      | _ => .none

/-- What follows the append of a record; only `acks=all` waits. -/
def awaitAcks (env : Surroundings) (mode : AckMode) (topic : Str) (partition offset : Int) :
    Handler (Except Str Unit) :=
  match mode with
  | .all => waitForAckAll env topic partition offset env.polls
  | _ => pure (.ok ())

def appendAsLeader (env : Surroundings) (req : Request) (mode : AckMode) (topic : Str)
    (partition : Int) (value : Str) : Handler Str := do
  let produced ← onStorage (fun s => produceToPartition env.storage s topic partition value)
  onReplication (fun m => (onLeaderAppend (env.clock 1) m topic produced.1 produced.2, ()))
  match ← awaitAcks env mode topic produced.1 produced.2 with
  | .error e => pure (err req.correlationID (lit "REPLICATION_TIMEOUT") e)
  | .ok () => do
      let hw ← onReplication (fun m => highWatermark (env.clock 2) m topic produced.1)
      pure (ok req.correlationID (field "partition=" (itoa produced.1 ++
        field " offset=" (itoa produced.2 ++ field " hw=" (itoa hw)))))

def produceTo (env : Surroundings) (req : Request) (mode : AckMode) (topic key value : Str)
    (md : TopicMetadata) : Handler Str := do
  let partition ← compute (getPartition key md.partitions.keys.length)
  match md.partitions.get partition with
  | none => pure (badRequest req (lit "partition metadata missing"))
  | some pm => do
      let b ← Program.read id
      if pm.leaderID ≠ b.localBrokerID then pure (notLeader req)
      else do
        let leads ← onReplication (fun m => isLeader m topic partition)
        if leads then appendAsLeader env req mode topic partition value
        else pure (notLeader req)

def handleProduce (env : Surroundings) (req : Request) : Handler Str :=
  match req.args with
  | topic :: message :: rest =>
      if 1 < rest.length then
        pure (badRequest req (lit "PRODUCE requires: <topic> <key>:<value> [acks=0|1|all]"))
      else
        match splitN [58] 2 message with
        | [key, value] => do
            match ← ensureTopicMetadata env topic with
            | .error e => pure (badRequest req e)
            | .ok md =>
                if md.partitions.keys = [] then
                  pure (badRequest req (lit "topic has no partitions"))
                else
                  match readAckMode rest with
                  | none =>
                      pure (badRequest req (lit "invalid ack mode; expected acks=0|1|all"))
                  | some mode => produceTo env req mode topic key value md
        | _ => pure (badRequest req (lit "message must be key:value"))
  | _ => pure (badRequest req (lit "PRODUCE requires: <topic> <key>:<value> [acks=0|1|all]"))

def handleSetPartitionRole (env : Surroundings) (req : Request) : Handler Str :=
  match req.args with
  | [topic, partitionText, roleText] =>
      withInt req partitionText "partition" fun partition => do
        match ← ensureTopicMetadata env topic with
        | .error e => pure (badRequest req e)
        | .ok _ => do
            match ← onReplication (fun m =>
                setRole (env.clock 1) m topic partition (toLower roleText)) with
            | .error e => pure (badRequest req e)
            | .ok () => do
                let b ← Program.read id
                match ← callSetPartitionLeader (env.clock 2) topic partition b.localBrokerID
                    [b.localBrokerID] with
                | .error e => pure (badRequest req e)
                | .ok _ => do
                    let st ← onReplication (fun m =>
                      status env.order (env.clock 3) m topic partition)
                    pure (ok req.correlationID (field "topic=" (topic ++ field " partition="
                      (itoa partition ++ field " role=" (st.role.text ++ field " hw="
                        (itoa st.highWatermark))))))
  | _ =>
      pure (badRequest req
        (lit "SET_PARTITION_ROLE requires: <topic> <partition> <leader|follower>"))

def handleConsume (env : Surroundings) (req : Request) : Handler Str :=
  match req.args with
  | [topic, partitionText, offsetText] =>
      withInt req partitionText "partition" fun partition =>
        withInt req offsetText "offset" fun offset => do
          match ← ensureTopicMetadata env topic with
          | .error e => pure (badRequest req e)
          | .ok md =>
              match md.partitions.get partition with
              | none => pure (badRequest req (lit "invalid partition"))
              | some _ => do
                  let hw ← onReplication (fun m => highWatermark (env.clock 1) m topic partition)
                  let records ← Program.atomically (fun b =>
                    (consumeRecords b.storage topic partition offset hw).map (fun r => (b, r)))
                  pure (ok req.correlationID (consumePayload records hw))
  | _ => pure (badRequest req (lit "CONSUME requires: <topic> <partition> <offset>"))

def readAssignor : List Str → Option Str
  | [] => some []
  | arg :: _ =>
      match splitN [61] 2 arg with
      | [name, assignor] =>
          if toLower name ≠ lit "assignor" then none
          else if toLower assignor = assignorRoundRobin ∨ toLower assignor = assignorRange then
            some (toLower assignor)
          else none
      | _ => none

def renderJoin (result : JoinResult) : Str :=
  field "generation=" (itoa result.generation ++ field " assigned=" (ints result.assigned))

def handleJoin (env : Surroundings) (req : Request) : Handler Str :=
  match req.args with
  | groupName :: topic :: consumerID :: rest =>
      if 1 < rest.length then
        pure (badRequest req
          (lit "JOIN requires: <group> <topic> <consumer_id> [assignor=round_robin|range]"))
      else
        match readAssignor rest with
        | none =>
            pure (badRequest req
              (lit "invalid assignor; expected assignor=round_robin|range"))
        | some assignor => do
            let result ← onGroups
              (fun gm => joinAllocs env.visit gm groupName topic consumerID assignor)
              (fun gm => joinGroup env.visit gm groupName topic consumerID assignor)
            pure (ok req.correlationID (renderJoin result))
  | _ =>
      pure (badRequest req
        (lit "JOIN requires: <group> <topic> <consumer_id> [assignor=round_robin|range]"))

def groupAnswer {α : Type} (req : Request) (render : α → Str) (r : Except GroupError α) :
    Handler Str :=
  answer req "GENERATION_MISMATCH" render (r.mapError GroupError.text)

/-- SYNC, HEARTBEAT and LEAVE read the same arguments. -/
def memberRequest (req : Request) (usage : String)
    (next : Str → Str → Str → Int → Handler Str) : Handler Str :=
  match req.args with
  | [groupName, topic, consumerID, generationText] =>
      withInt req generationText "generation" (next groupName topic consumerID)
  | _ => pure (badRequest req (lit usage))

def handleSync (env : Surroundings) (req : Request) : Handler Str :=
  memberRequest req "SYNC requires: <group> <topic> <consumer_id> <generation>"
    fun groupName topic consumerID generation => do
      let result ← onGroups (fun gm => checkAllocs env.visit gm groupName topic)
        (fun gm => syncGroup env.visit gm groupName topic consumerID generation)
      groupAnswer req renderJoin result

def handleHeartbeat (env : Surroundings) (req : Request) : Handler Str :=
  memberRequest req "HEARTBEAT requires: <group> <topic> <consumer_id> <generation>"
    fun groupName topic consumerID generation => do
      let result ← onGroups (fun gm => checkAllocs env.visit gm groupName topic)
        (fun gm => heartbeat env.visit gm groupName topic consumerID generation)
      groupAnswer req (fun _ => lit "heartbeat=ok") result

def handleLeave (env : Surroundings) (req : Request) : Handler Str :=
  memberRequest req "LEAVE requires: <group> <topic> <consumer_id> <generation>"
    fun groupName topic consumerID generation => do
      let result ← onGroups
        (fun gm => leaveAllocs env.visit gm groupName topic consumerID generation)
        (fun gm => leaveGroup env.visit gm groupName topic consumerID generation)
      groupAnswer req (fun _ => lit "left=true") result

def handleCommit (env : Surroundings) (req : Request) : Handler Str :=
  match req.args with
  | [groupName, topic, consumerID, generationText, partitionText, offsetText] =>
      withInt req generationText "generation" fun generation =>
        withInt req partitionText "partition" fun partition =>
          withInt req offsetText "offset" fun offset => do
            match ← onGroups (fun gm => checkAllocs env.visit gm groupName topic)
                (fun gm =>
                  validateCommit env.visit gm groupName topic consumerID generation partition) with
            | .error e => pure (err req.correlationID (lit "GENERATION_MISMATCH") e.text)
            | .ok () => do
                onOffsets (fun om => (om.commit groupName topic partition offset, ()))
                pure (ok req.correlationID (lit "committed=true"))
  | _ =>
      pure (badRequest req
        (lit "COMMIT requires: <group> <topic> <consumer_id> <generation> <partition> <offset>"))

def handleOffset (req : Request) : Handler Str :=
  match req.args with
  | [groupName, topic, partitionText] =>
      withInt req partitionText "partition" fun partition => do
        let offset ← onOffsets (fun om => (om, om.getOffset groupName topic partition))
        pure (ok req.correlationID (field "offset=" (itoa offset)))
  | _ => pure (badRequest req (lit "OFFSET requires: <group> <topic> <partition>"))

def renderInSync (st : Status) : Str :=
  field " hw=" (itoa st.highWatermark ++ field " isr=" (ints st.inSyncReplicas ++
    field " under_replicated=" (printBool st.underReplicated)))

def ackRequest (env : Surroundings) (req : Request) (usage idField offsetField : String)
    (render : Str → Int → Int → Int → Str) : Handler Str :=
  match req.args with
  | [topic, partitionText, idText, offsetText] =>
      withInt req partitionText "partition" fun partition =>
        withInt req idText idField fun replicaID =>
          withInt req offsetText offsetField fun offset => do
            match ← onReplication (fun m =>
                ackReplica (env.clock 0) (env.clock 1) m topic partition replicaID offset) with
            | .error e => pure (badRequest req e)
            | .ok () => do
                let st ← onReplication (fun m => status env.order (env.clock 2) m topic partition)
                pure (ok req.correlationID
                  (render topic partition replicaID offset ++ renderInSync st))
  | _ => pure (badRequest req (lit usage))

def handleReplicaFetch (env : Surroundings) (req : Request) : Handler Str :=
  ackRequest env req "REPLICA_FETCH requires: <topic> <partition> <replica_id> <offset>"
    "replica_id" "offset" fun _ _ replicaID offset =>
      field "replica=" (itoa replicaID ++ field " acked_offset=" (itoa offset))

def handleBrokerReplicaAck (env : Surroundings) (req : Request) : Handler Str :=
  ackRequest env req
    "BROKER_REPLICA_ACK requires: <topic> <partition> <follower_id> <acked_offset>"
    "follower_id" "acked_offset" fun topic partition followerID ackedOffset =>
      field "topic=" (topic ++ field " partition=" (itoa partition ++ field " follower="
        (itoa followerID ++ field " acked_offset=" (itoa ackedOffset))))

def fetchFrom (env : Surroundings) (req : Request) (topic : Str)
    (partition followerID offset maxMessages : Int) : Handler Str := do
  let leads ← onReplication (fun m => isLeader m topic partition)
  if leads then do
    let st ← onReplication (fun m => status env.order (env.clock 0) m topic partition)
    let records ← Program.atomically (fun b =>
      (fetchRecords b.storage topic partition offset st.leaderOffset maxMessages).map
        (fun r => (b, r)))
    pure (ok req.correlationID (fetchPayload topic partition followerID st.highWatermark records))
  else pure (notLeader req)

def handleBrokerFetch (env : Surroundings) (req : Request) : Handler Str :=
  match req.args with
  | topic :: partitionText :: followerText :: offsetText :: rest =>
      if 1 < rest.length then
        pure (badRequest req
          (lit "BROKER_FETCH requires: <topic> <partition> <follower_id> <offset> [max_messages]"))
      else
        withInt req partitionText "partition" fun partition =>
          withInt req followerText "follower_id" fun followerID =>
            withInt req offsetText "offset" fun offset =>
              match rest with
              | [] => fetchFrom env req topic partition followerID offset 100
              | maxText :: _ =>
                  withInt req maxText "max_messages" fun maxMessages =>
                    if maxMessages ≤ 0 then
                      pure (badRequest req (lit "max_messages must be > 0"))
                    else fetchFrom env req topic partition followerID offset maxMessages
  | _ =>
      pure (badRequest req
        (lit "BROKER_FETCH requires: <topic> <partition> <follower_id> <offset> [max_messages]"))

def renderApplied (result : ApplyResult) : Str :=
  field " term=" (itoa result.term ++ field " index=" (itoa result.index))

def handleAdminCreateTopic (env : Surroundings) (req : Request) : Handler Str :=
  match req.args with
  | [topic, partitionsText, factorText] =>
      withInt req partitionsText "partitions" fun partitions =>
        withInt req factorText "replication_factor" fun replicationFactor => do
          let result ← callCreateTopic (env.clock 0) topic partitions replicationFactor
          answer req "BAD_REQUEST" (fun r => field "topic=" (topic ++ field " partitions="
            (itoa partitions ++ field " replication_factor=" (itoa replicationFactor ++
              renderApplied r)))) result
  | _ =>
      pure (badRequest req
        (lit "ADMIN_CREATE_TOPIC requires: <topic> <partitions> <replication_factor>"))

/-- The optional epoch of ADMIN_REGISTER_BROKER. -/
def readEpoch : List Str → Option Int
  | [] => some 0
  | arg :: _ => atoi arg

def handleAdminRegisterBroker (env : Surroundings) (req : Request) : Handler Str :=
  match req.args with
  | idText :: host :: portText :: rest =>
      if 1 < rest.length then
        pure (badRequest req
          (lit "ADMIN_REGISTER_BROKER requires: <broker_id> <host> <port> [epoch]"))
      else
        withInt req idText "broker_id" fun brokerID =>
          withInt req portText "port" fun port =>
            match readEpoch rest with
            | none => pure (badRequest req (lit "invalid epoch"))
            | some epoch => do
                let result ← onController (fun store =>
                  registerBroker (env.clock 0) store brokerID host port epoch)
                answer req "BAD_REQUEST" (fun r => field "broker_id=" (itoa brokerID ++
                  field " host=" (host ++ field " port=" (itoa port ++ renderApplied r)))) result
  | _ =>
      pure (badRequest req
        (lit "ADMIN_REGISTER_BROKER requires: <broker_id> <host> <port> [epoch]"))

def brokerRequest (req : Request) (usage : String) (label : String)
    (change : Int → RaftMetadataStore → RaftMetadataStore × Except Str ApplyResult) :
    Handler Str :=
  match req.args with
  | [idText] =>
      withInt req idText "broker_id" fun brokerID => do
        let result ← onController (change brokerID)
        answer req "BAD_REQUEST"
          (fun r => field "broker_id=" (itoa brokerID ++ (lit label ++ renderApplied r))) result
  | _ => pure (badRequest req (lit usage))

def handleAdminBrokerHeartbeat (env : Surroundings) (req : Request) : Handler Str :=
  brokerRequest req "ADMIN_BROKER_HEARTBEAT requires: <broker_id>" " heartbeat=ok"
    fun brokerID store => heartbeatBroker (env.clock 0) store brokerID

def handleAdminFenceBroker (env : Surroundings) (req : Request) : Handler Str :=
  brokerRequest req "ADMIN_FENCE_BROKER requires: <broker_id>" " fenced=true"
    fun brokerID store => setBrokerFence (env.clock 0) store brokerID true

def handleAdminUnfenceBroker (env : Surroundings) (req : Request) : Handler Str :=
  brokerRequest req "ADMIN_UNFENCE_BROKER requires: <broker_id>" " fenced=false"
    fun brokerID store => setBrokerFence (env.clock 0) store brokerID false

def handleAdminReconcileBrokerHealth (env : Surroundings) (req : Request) : Handler Str :=
  match req.args with
  | [timeoutText] =>
      withInt req timeoutText "timeout_ms" fun timeoutMs => do
        let changes ← reconcileBrokerHealth env (duration timeoutMs millisecond)
        answer req "BAD_REQUEST" (fun n : ℕ => field "reconciled=" (itoa n)) changes
  | _ => pure (badRequest req (lit "ADMIN_RECONCILE_BROKER_HEALTH requires: <timeout_ms>"))

def parseCSVInts (raw : Str) : Except Str (List Int) :=
  ((raw.splitOn 44).map trimSpace |>.filter (fun p => p ≠ [])).mapM (fun p =>
    match atoi p with
    | none => .error (lit "invalid integer list")
    | some n => .ok n)

def handleAdminSetPartitionLeader (env : Surroundings) (req : Request) : Handler Str :=
  match req.args with
  | [topic, partitionText, leaderText, isrText] =>
      withInt req partitionText "partition" fun partition =>
        withInt req leaderText "leader_id" fun leaderID =>
          match parseCSVInts isrText with
          | .error e => pure (badRequest req e)
          | .ok isr => do
              let result ← callSetPartitionLeader (env.clock 0) topic partition leaderID isr
              answer req "BAD_REQUEST" (fun r => field "topic=" (topic ++ field " partition="
                (itoa partition ++ field " leader=" (itoa leaderID ++ field " isr=" (ints isr ++
                  renderApplied r))))) result
  | _ =>
      pure (badRequest req
        (lit "ADMIN_SET_PARTITION_LEADER requires: <topic> <partition> <leader_id> <isr_csv>"))

def handleAdminElectTopicLeaders (env : Surroundings) (req : Request) : Handler Str :=
  match req.args with
  | [topic] => do
      let changes ← electTopicLeaders env topic
      answer req "BAD_REQUEST"
        (fun n : ℕ => field "topic=" (topic ++ field " elected_changes=" (itoa n))) changes
  | _ => pure (badRequest req (lit "ADMIN_ELECT_TOPIC_LEADERS requires: <topic>"))

def renderMetadata (s : MetadataSnapshot) : Str :=
  let brokerIDs := sortInts s.brokers.keys
  let fenced := brokerIDs.filter (fun id => (s.brokers.get id).any BrokerMetadata.fenced)
  field "topics=" (bracketed (sortStrings s.topics.keys) ++ field " brokers=" (ints brokerIDs ++
    field " fenced=" (ints fenced)))

def handleAdminGetMetadata (req : Request) : Handler Str :=
  if req.args ≠ [] then pure (badRequest req (lit "ADMIN_GET_METADATA requires no args"))
  else do
    let s ← snapshot
    pure (ok req.correlationID (renderMetadata s))

/-- `handleRequest` routes a request by its command. -/
def handleRequest (env : Surroundings) (req : Request) : Handler Str :=
  if req.command = lit "PRODUCE" then handleProduce env req
  else if req.command = lit "CONSUME" then handleConsume env req
  else if req.command = lit "JOIN" then handleJoin env req
  else if req.command = lit "SYNC" then handleSync env req
  else if req.command = lit "HEARTBEAT" then handleHeartbeat env req
  else if req.command = lit "LEAVE" then handleLeave env req
  else if req.command = lit "COMMIT" then handleCommit env req
  else if req.command = lit "OFFSET" then handleOffset req
  else if req.command = lit "REPLICA_FETCH" then handleReplicaFetch env req
  else if req.command = lit "BROKER_FETCH" then handleBrokerFetch env req
  else if req.command = lit "BROKER_REPLICA_ACK" then handleBrokerReplicaAck env req
  else if req.command = lit "SET_PARTITION_ROLE" then handleSetPartitionRole env req
  else if req.command = lit "ADMIN_CREATE_TOPIC" then handleAdminCreateTopic env req
  else if req.command = lit "ADMIN_REGISTER_BROKER" then handleAdminRegisterBroker env req
  else if req.command = lit "ADMIN_BROKER_HEARTBEAT" then handleAdminBrokerHeartbeat env req
  else if req.command = lit "ADMIN_RECONCILE_BROKER_HEALTH" then
    handleAdminReconcileBrokerHealth env req
  else if req.command = lit "ADMIN_FENCE_BROKER" then handleAdminFenceBroker env req
  else if req.command = lit "ADMIN_UNFENCE_BROKER" then handleAdminUnfenceBroker env req
  else if req.command = lit "ADMIN_SET_PARTITION_LEADER" then
    handleAdminSetPartitionLeader env req
  else if req.command = lit "ADMIN_ELECT_TOPIC_LEADERS" then handleAdminElectTopicLeaders env req
  else if req.command = lit "ADMIN_GET_METADATA" then handleAdminGetMetadata req
  else pure (err req.correlationID (lit "UNKNOWN_COMMAND") (lit "unsupported command"))

end Flux.RequestHandlers
