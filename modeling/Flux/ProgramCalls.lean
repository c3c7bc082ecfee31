import Flux.BrokerSafety
import Flux.ClusterRuntime
import Flux.ReplyTexts
import Flux.StoredText

/-!
What the broker's programs are made of. Every program of the broker and every tick
of its runtime is put together from calls to single components, and the control
plane is changed by its commands only. What all these calls obey the programs obey:
that a call touches one component at most, that on a modest broker none panics, and
that what the broker holds and tells stays on one line.
-/
namespace Flux.ProgramCalls

open GoRuntime GoStrings FiniteMap PartitionStorage Groups OffsetCommits ReplicationManager
open ClusterMetadata Interleavings BrokerNode ClusterRuntime TCPTransport BrokerSafety
open ResponseFrames ReplyTexts StoredText
open Program (Obeys obeys_bind obeys_ite)

inductive Commanded (store : RaftMetadataStore) : RaftMetadataStore → Prop
  | same : Commanded store store
  | create {now : Time} {name : Str} {partitions replicationFactor : Int}
      {r : RaftMetadataStore × Except Str ApplyResult}
      (h : createTopic now store name partitions replicationFactor = .ok r) : Commanded store r.1
  | register (now : Time) (id : Int) (host : Str) (port epoch : Int) :
      Commanded store (registerBroker now store id host port epoch).1
  | heartbeat (now : Time) (id : Int) : Commanded store (heartbeatBroker now store id).1
  | leader (now : Time) (topic : Str) (partition leaderID : Int) (isr : List Int) :
      Commanded store (setPartitionLeader now store topic partition leaderID isr).1
  | fence (now : Time) (id : Int) (fenced : Bool) :
      Commanded store (setBrokerFence now store id fenced).1

theorem natural_commanded {store store' : RaftMetadataStore} (h : Natural store.metadata)
    (hstep : Commanded store store') : Natural store'.metadata := by
  cases hstep with
  | same => exact h
  | create hr => exact Everywhere.createTopic natural_leaderFree h _ _ (newTopic_keys _ _ _) hr
  | register => exact Everywhere.registerBroker natural_leaderFree h _ _ _ _ _
  | heartbeat => exact Everywhere.apply natural_leaderFree h _ (fun md hmd => by contradiction)
  | leader => exact Everywhere.setPartitionLeader natural_leaderFree h _ _ _ _ _
  | fence => exact Everywhere.setBrokerFence natural_leaderFree h _ _ _

structure Printable (b : Broker) : Prop where
  stored : Lined b.storage
  topics : Names b.controller

/-- Within `I` the broker is modest where no call may panic, it is printable where
what the calls tell has to stay on one line, and a call that only reads is allowed. -/
structure Reads (I : Broker → Prop) (total lined : Prop) (guarantee : Broker → Broker → Prop) :
    Prop where
  modest : total → ∀ b, I b → Modest b
  printable : lined → ∀ b, I b → Printable b
  same : ∀ b, I b → guarantee b b

/-- Every call to a component other than the storage is allowed. -/
structure Rules (I : Broker → Prop) (total lined : Prop) (guarantee : Broker → Broker → Prop) :
    Prop extends Reads I total lined guarantee where
  replication : ∀ b replication, I b → guarantee b { b with replication := replication }
  workers : ∀ b workers, I b → guarantee b { b with workers := workers }
  coordinator : ∀ b coordinator, I b →
    coordinator.groupManager.numPartitions = b.coordinator.groupManager.numPartitions →
      guarantee b { b with coordinator := coordinator }
  controller : ∀ b store, I b → Commanded b.controller store → (lined → Names store) →
    guarantee b { b with controller := store }

variable {I : Broker → Prop} {total lined : Prop} {guarantee : Broker → Broker → Prop}

section Loops

variable {α β : Type}

theorem obeys_onStorage {op : Storage → Storage × α}
    (h : ∀ b, I b → guarantee b { b with storage := (op b.storage).1 }) :
    Obeys I total guarantee (fun _ => True) (onStorage op) :=
  Program.obeys_modify (fun b hb => ⟨h b hb, trivial⟩)

theorem obeys_attemptAll {call : α → Handler (Except Str β)}
    (hcall : ∀ a, Obeys I total guarantee (fun r => lined → Tells r) (call a)) (items : List α)
    (count : ℕ) :
    Obeys I total guarantee (fun r => lined → Tells r) (attemptAll call items count) := by
  induction items generalizing count with
  | nil => exact fun _ => tells_ok count
  | cons a rest ih =>
    refine obeys_bind (hcall a) (fun r hr => ?_)
    cases r with
    | error e => exact fun h => tells_error (hr h e rfl)
    | ok c => exact ih (count + 1)

theorem obeys_forEach {body : α → Handler Unit} {items : List α}
    (hbody : ∀ a ∈ items, Obeys I total guarantee (fun _ => True) (body a)) :
    Obeys I total guarantee (fun _ => True) (forEach body items) := by
  induction items with
  | nil => trivial
  | cons a rest ih =>
    refine obeys_bind (hbody a (List.mem_cons_self ..)) (fun _ _ => ?_)
    exact ih (fun b hb => hbody b (List.mem_cons_of_mem _ hb))

end Loops

section Reads

variable (R : Reads I total lined guarantee) {α : Type} {post : α → Prop}

include R

theorem obeys_read {f : Broker → α} (h : ∀ b, I b → post (f b)) :
    Obeys I total guarantee post (Program.read f : Handler α) :=
  Program.obeys_modify (fun b hb => ⟨R.same b hb, h b hb⟩)

theorem obeys_readBroker : Obeys I total guarantee I (Program.read id : Handler Broker) :=
  obeys_read R (fun _ hb => hb)

/-- A call that only reads and may panic. -/
theorem obeys_reading {f : Broker → Except Panic α} (hok : total → ∀ b, ∃ a, f b = .ok a)
    (h : ∀ b a, I b → f b = .ok a → post a) :
    Obeys I total guarantee post (Program.atomically (fun b => (f b).map (fun a => (b, a)))) :=
  Program.obeys_mapping (fun ht b _ => hok ht b) (fun b a hb hf => ⟨R.same b hb, h b a hb hf⟩)

theorem obeys_compute {result : Except Panic α} (hok : total → ∃ a, result = .ok a) :
    Obeys I total guarantee (fun _ => True) (compute result) :=
  obeys_reading R (fun ht _ => hok ht) (fun _ _ _ _ => trivial)

theorem obeys_snapshot :
    Obeys I total guarantee (fun metadata => (total → Natural metadata) ∧
      (lined → ∀ name ∈ metadata.topics.keys, OneLine name)) snapshot :=
  obeys_read R (fun b hb =>
    ⟨fun ht => (R.modest ht b hb).natural, fun hl => (R.printable hl b hb).topics⟩)

/-- Setting up a topic is reading, creating it and setting its leaders. -/
theorem obeys_ensuring (env : Surroundings) {topic : Str}
    (hcreate : ∀ now partitions replicationFactor,
      (total → intSize * replicationFactor ≤ maxAlloc) →
        Obeys I total guarantee (fun r => lined → Tells r)
          (callCreateTopic now topic partitions replicationFactor))
    (hlead : ∀ now partition leaderID isr, Obeys I total guarantee (fun r => lined → Tells r)
      (callSetPartitionLeader now topic partition leaderID isr)) :
    Obeys I total guarantee (fun r => lined → Tells r) (ensureTopicMetadata env topic) := by
  refine obeys_ite (fun _ _ => tells_literal rfl) (fun _ => ?_)
  refine obeys_bind (obeys_snapshot R) (fun metadata _ => ?_)
  cases metadata.topics.get topic with
  | some md => exact fun _ => tells_ok md
  | none =>
    refine obeys_bind (obeys_readBroker R) (fun b hb => ?_)
    refine obeys_bind (hcreate _ _ _ (fun ht => (R.modest ht b hb).factor))
      (fun created hcreated => ?_)
    cases created with
    | error e => exact fun h => tells_error (hcreated h e rfl)
    | ok r =>
      refine obeys_bind (obeys_snapshot R) (fun updated hupdated => ?_)
      refine obeys_bind (obeys_compute R (fun ht =>
        assignInitialLeaders_ok (natural_topicOf (hupdated.1 ht) topic) _)) (fun leaders _ => ?_)
      refine obeys_bind (obeys_attemptAll (fun p => hlead _ _ _ _) _ 0) (fun led hled => ?_)
      cases led with
      | error e => exact fun h => tells_error (hled h e rfl)
      | ok n => exact obeys_bind (obeys_snapshot R) (fun final _ _ => tells_ok _)

end Reads

/-- The program obeys the rules. -/
abbrev Rules.Keeps (_ : Rules I total lined guarantee) {α : Type} (p : Handler α) : Prop :=
  Obeys I total guarantee (fun _ => True) p

/-- It obeys the rules, and the error that it may return is one line. -/
abbrev Rules.Reports (_ : Rules I total lined guarantee) {α : Type} (p : Handler (Except Str α)) :
    Prop :=
  Obeys I total guarantee (fun r => lined → Tells r) p

variable (R : Rules I total lined guarantee)

section Calls

variable {α : Type} {post : α → Prop}

include R

theorem obeys_onReplication {op : Manager → Manager × α} (h : ∀ m, post (op m).2) :
    Obeys I total guarantee post (onReplication op) :=
  Program.obeys_modify (fun b hb => ⟨R.replication b _ hb, h b.replication⟩)

theorem obeys_onController {op : RaftMetadataStore → RaftMetadataStore × Except Str α}
    (hcommand : ∀ store, Commanded store (op store).1)
    (hlines : lined → ∀ store, Names store → Names (op store).1 ∧ Tells (op store).2) :
    R.Reports (onController op) :=
  Program.obeys_modify (fun b hb =>
    ⟨R.controller b _ hb (hcommand b.controller) (fun hl =>
        (hlines hl b.controller (R.printable hl b hb).topics).1),
      fun hl => (hlines hl b.controller (R.printable hl b hb).topics).2⟩)

end Calls

section Components

variable {α : Type}

theorem keeps_read (f : Broker → α) : R.Keeps (Program.read f : Handler α) :=
  obeys_read R.toReads (fun _ _ => trivial)

theorem keeps_onReplication (op : Manager → Manager × α) : R.Keeps (onReplication op) :=
  obeys_onReplication R (fun _ => trivial)

theorem keeps_onOffsets (op : OffsetManager → OffsetManager × α) : R.Keeps (onOffsets op) :=
  Program.obeys_modify (fun b hb => ⟨R.coordinator b _ hb rfl, trivial⟩)

theorem keeps_onWorkers (op : FMap Str ReplicaWorkerState → FMap Str ReplicaWorkerState) :
    R.Keeps (onWorkers op) :=
  Program.obeys_modify (fun b hb => ⟨R.workers b _ hb, trivial⟩)

theorem keeps_onGroups {allocs : GroupManager → Except Panic Unit}
    {op : GroupManager → GroupManager × α}
    (hallocs : ∀ gm : GroupManager, intSize * (gm.numPartitions : Int) ≤ maxAlloc →
      allocs gm = .ok ())
    (hop : ∀ gm, (op gm).1.numPartitions = gm.numPartitions) : R.Keeps (onGroups allocs op) :=
  Program.obeys_mapping (fun ht b hb => ⟨(), hallocs _ (R.modest ht b hb).groups⟩)
    (fun b _ hb _ => ⟨R.coordinator b _ hb (hop _), trivial⟩)

end Components

section Programs

variable (env : Surroundings) {topic : Str}

theorem reports_callCreateTopic (now : Time) (partitions : Int) {replicationFactor : Int}
    (hfactor : total → intSize * replicationFactor ≤ maxAlloc) (htopic : lined → OneLine topic) :
    R.Reports (callCreateTopic now topic partitions replicationFactor) := by
  refine Program.obeys_mapping (fun ht b _ => createTopic_ok now _ _ _ (hfactor ht))
    (fun b r hb hr => ?_)
  have hlines : lined → Names r.1 ∧ Tells r.2 := fun hl =>
    createTopic_lines now (R.printable hl b hb).topics (htopic hl) hr
  exact ⟨R.controller b _ hb (.create hr) (fun hl => (hlines hl).1), fun hl => (hlines hl).2⟩

theorem reports_callSetPartitionLeader (now : Time) (htopic : lined → OneLine topic)
    (partition leaderID : Int) (isr : List Int) :
    R.Reports (callSetPartitionLeader now topic partition leaderID isr) :=
  obeys_onController R (fun _ => .leader ..)
    (fun hl _ h => setPartitionLeader_lines now h (htopic hl) partition leaderID isr)

theorem reports_callSetBrokerFence (now : Time) (brokerID : Int) (fenced : Bool) :
    R.Reports (callSetBrokerFence now brokerID fenced) :=
  obeys_onController R (fun _ => .fence ..)
    (fun _ _ h => setBrokerFence_lines now h brokerID fenced)

theorem reports_electTopicLeaders (htopic : lined → OneLine topic) :
    R.Reports (electTopicLeaders env topic) := by
  refine obeys_bind (obeys_snapshot R.toReads) (fun metadata _ => ?_)
  cases hupdates : electionUpdates metadata topic with
  | error e =>
    exact fun hl => tells_error (electionUpdates_tells metadata (htopic hl) e hupdates)
  | ok updates =>
    exact obeys_attemptAll (fun u => reports_callSetPartitionLeader R _ htopic _ _ _) updates 0

theorem reports_reconcileBrokerHealth (timeout : Int) :
    R.Reports (reconcileBrokerHealth env timeout) := by
  refine obeys_ite (fun _ _ => tells_literal rfl) (fun _ => ?_)
  refine obeys_bind (obeys_snapshot R.toReads) (fun metadata _ => ?_)
  exact obeys_attemptAll (fun u => reports_callSetBrokerFence R _ _ _) _ 0

theorem reports_ensureTopicMetadata (htopic : lined → OneLine topic) :
    R.Reports (ensureTopicMetadata env topic) :=
  obeys_ensuring R.toReads env
    (fun now partitions _ hfactor => reports_callCreateTopic R now partitions hfactor htopic)
    (fun now partition leaderID isr =>
      reports_callSetPartitionLeader R now htopic partition leaderID isr)

theorem reports_waitForAckAll (topic : Str) (partition targetOffset : Int) (polls : List Time) :
    R.Reports (waitForAckAll env topic partition targetOffset polls) := by
  induction polls with
  | nil =>
    refine obeys_bind (keeps_onReplication R _) (fun reached _ => ?_)
    exact obeys_ite (fun _ _ => tells_ok ()) (fun _ _ => tells_literal rfl)
  | cons now rest ih =>
    refine obeys_bind (keeps_onReplication R _) (fun reached _ => ?_)
    exact obeys_ite (fun _ _ => tells_ok ()) (fun _ => ih)

end Programs

section Runtime

variable (tick : Tick)

theorem keeps_takeRole (topic : Str) (partition lastOffset : Int) (role : Role) :
    R.Keeps (takeRole tick topic partition lastOffset role) :=
  obeys_bind (keeps_onReplication R _) (fun _ _ => keeps_onReplication R _)

theorem keeps_bootstrapPeers : R.Keeps (bootstrapPeers tick) := by
  refine obeys_bind (obeys_readBroker R.toReads) (fun b _ => obeys_forEach (fun id _ => ?_))
  cases (b.peers.get id).bind splitHostPort with
  | none => trivial
  | some address =>
    exact obeys_bind (obeys_onController R (fun _ => .register ..)
      (fun _ _ h => registerBroker_lines _ h _ _ _ _)) (fun _ _ => trivial)

theorem keeps_reconcilePartition (topic : Str) (partition : Int) (pm : PartitionMetadata) :
    R.Keeps (reconcilePartition tick topic partition pm) := by
  refine obeys_bind (obeys_readBroker R.toReads) (fun b _ => ?_)
  refine obeys_bind (keeps_read R _) (fun lastOffset _ => ?_)
  refine obeys_ite (fun _ => obeys_bind (keeps_takeRole R tick _ _ _ _)
    (fun _ _ => keeps_onWorkers R _)) (fun _ => ?_)
  refine obeys_ite (fun _ => keeps_onWorkers R _) (fun _ => ?_)
  refine obeys_bind (keeps_takeRole R tick _ _ _ _) (fun _ _ => ?_)
  cases b.peers.get pm.leaderID with
  | none => trivial
  | some leaderAddr => exact keeps_onWorkers R _

theorem keeps_reconcileRoles : R.Keeps (reconcileRoles tick) := by
  refine obeys_bind (obeys_readBroker R.toReads) (fun b _ => ?_)
  refine obeys_bind (obeys_onController R (fun _ => .heartbeat ..)
    (fun _ _ h => heartbeatBroker_lines _ h _)) (fun _ _ => ?_)
  exact obeys_bind (obeys_snapshot R.toReads) (fun metadata _ =>
    obeys_forEach (fun p _ => keeps_reconcilePartition R tick _ _ _))

/-- What the tick fetches for the partition may be appended to it. -/
def Applies (I : Broker → Prop) (guarantee : Broker → Broker → Prop) (tick : Tick) (topic : Str)
    (partition : Int) (records : List ReplicationRecord) : Prop :=
  ∀ record ∈ records, ∀ b, I b → guarantee b { b with
    storage := (appendReplicated tick.env.storage b.storage topic partition record.offset
      record.value).1 }

theorem keeps_applyRecords (key topic : Str) (partition : Int) {records : List ReplicationRecord}
    (h : Applies I guarantee tick topic partition records) (nextOffset : Int) :
    R.Keeps (applyRecords tick key topic partition records nextOffset) := by
  induction records generalizing nextOffset with
  | nil => trivial
  | cons record rest ih =>
    refine obeys_ite (fun _ => trivial) (fun _ => ?_)
    refine obeys_bind (obeys_onStorage (h record (List.mem_cons_self ..))) (fun failed _ => ?_)
    cases failed with
    | some e => trivial
    | none =>
      exact obeys_bind (keeps_onWorkers R _)
        (fun _ _ => ih (fun r hr => h r (List.mem_cons_of_mem _ hr)) _)

theorem keeps_stepOnce (key : Str) (worker : FollowerWorker)
    (h : ∀ result, tick.fetch key = .ok result →
      Applies I guarantee tick worker.topic worker.partition result.records) :
    R.Keeps (stepOnce tick key worker) := by
  unfold stepOnce
  cases hfetch : tick.fetch key with
  | error e => trivial
  | ok result =>
    refine obeys_ite (fun _ => trivial) (fun _ => ?_)
    refine obeys_bind (keeps_applyRecords R tick _ _ _ (h result hfetch) _) (fun applied _ => ?_)
    cases applied with
    | error e => trivial
    | ok u =>
      dsimp only
      cases tick.ack key with
      | error e => trivial
      | ok u => trivial

theorem keeps_tryFailoverForWorker (leaderID : Int) :
    R.Keeps (tryFailoverForWorker tick leaderID) := by
  refine obeys_bind (reports_callSetBrokerFence R _ _ _) (fun _ _ => ?_)
  refine obeys_bind (obeys_snapshot R.toReads) (fun metadata hmetadata => ?_)
  refine obeys_bind (obeys_readBroker R.toReads) (fun b _ => obeys_forEach (fun topic hmem => ?_))
  have htopic : lined → OneLine topic := fun hl =>
    hmetadata.2 hl topic ((tick.names_perm _).mem_iff.mp hmem)
  refine obeys_bind (reports_electTopicLeaders R tick.env htopic) (fun elected _ => ?_)
  cases elected with
  | error e => trivial
  | ok n =>
    exact obeys_forEach (fun p _ => obeys_bind (keeps_onReplication R _) (fun _ _ => trivial))

def Replicates (I : Broker → Prop) (guarantee : Broker → Broker → Prop) (tick : Tick) : Prop :=
  ∀ b key state result, I b → b.workers.get key = some state → tick.fetch key = .ok result →
    Applies I guarantee tick state.worker.topic state.worker.partition result.records

theorem keeps_stepWorkers (h : Replicates I guarantee tick) : R.Keeps (stepWorkers tick) := by
  refine obeys_bind (obeys_readBroker R.toReads) (fun b _ => obeys_forEach (fun key _ => ?_))
  refine obeys_bind (obeys_readBroker R.toReads) (fun b hb => ?_)
  cases hworker : b.workers.get key with
  | none => trivial
  | some state =>
    refine obeys_bind (keeps_stepOnce R tick key state.worker
      (fun result hfetch => h b key state result hb hworker hfetch)) (fun stepped _ => ?_)
    cases stepped with
    | error e =>
      exact obeys_ite (fun _ => obeys_bind (keeps_tryFailoverForWorker R tick state.leaderID)
        (fun _ _ => keeps_onWorkers R _)) (fun _ => keeps_onWorkers R _)
    | ok applied => exact obeys_ite (fun _ => keeps_onWorkers R _) (fun _ => trivial)

end Runtime

section Instances

inductive Touches (stored : Storage → Storage → Prop) (b : Broker) : Broker → Prop
  | same : Touches stored b b
  | storage {storage : Storage} (h : stored b.storage storage) :
      Touches stored b { b with storage := storage }
  | replication (replication : Manager) : Touches stored b { b with replication := replication }
  | coordinator (coordinator : Coordinator) :
      Touches stored b { b with coordinator := coordinator }
  | workers (workers : FMap Str ReplicaWorkerState) :
      Touches stored b { b with workers := workers }
  | controller {store : RaftMetadataStore} (h : Commanded b.controller store) :
      Touches stored b { b with controller := store }

abbrev Touched : Broker → Broker → Prop := Touches (fun _ _ => True)

/-- Every call touches one component at most, and the storage as `stored` says. -/
theorem rules_touches (I : Broker → Prop) (stored : Storage → Storage → Prop) :
    Rules I False False (Touches stored) where
  modest := False.elim
  printable := False.elim
  same _ _ := .same
  replication _ _ _ := .replication _
  workers _ _ _ := .workers _
  coordinator _ _ _ _ := .coordinator _
  controller _ _ _ h _ := .controller h

/-- No call panics on a modest broker, and it stays modest. -/
theorem rules_modest : Rules Modest True False (fun _ b => Modest b) where
  modest _ _ hb := hb
  printable := False.elim
  same _ hb := hb
  replication _ _ hb := ⟨hb.groups, hb.factor, hb.natural⟩
  workers _ _ hb := ⟨hb.groups, hb.factor, hb.natural⟩
  coordinator _ _ hb h := ⟨by rw [h]; exact hb.groups, hb.factor, hb.natural⟩
  controller _ _ hb h _ := ⟨hb.groups, hb.factor, natural_commanded hb.natural h⟩

/-- What a broker holds stays on one line, and so do its errors. -/
theorem rules_printable : Rules Printable False True (fun _ b => Printable b) where
  modest := False.elim
  printable _ _ hb := hb
  same _ hb := hb
  replication _ _ hb := ⟨hb.stored, hb.topics⟩
  workers _ _ hb := ⟨hb.stored, hb.topics⟩
  coordinator _ _ hb _ := ⟨hb.stored, hb.topics⟩
  controller _ _ hb _ h := ⟨hb.stored, h trivial⟩

end Instances

end Flux.ProgramCalls
