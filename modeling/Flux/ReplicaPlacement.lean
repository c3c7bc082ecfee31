import Flux.LeaderAgreement

/-!
Leaders against replicas. The replicas of a topic are the first broker ids, an
election chooses among the replicas, but the first leaders are taken from all
brokers that are not fenced. Leaders are replicas as long as the replication
factor covers the brokers that are dealt.
-/
namespace Flux.ReplicaPlacement

open GoRuntime GoStrings FiniteMap ClusterMetadata Interleavings Runs BrokerNode BrokerRuns
open BrokerContracts ControllerSteps TopicCreation LeaderAgreement

variable {factor : Int} {pm : PartitionMetadata} {b : Broker} {u : LeaderUpdate} {topic : Str}

/-- The calls to the control plane that set no leader by hand. -/
inductive Event
  | registerBroker (now : Time) (id : Int) (host : Str) (port epoch : Int)
  | heartbeatBroker (now : Time) (id : Int)
  | setBrokerFence (now : Time) (id : Int) (fenced : Bool)
  | reconcileBrokerHealth (env : Surroundings) (timeout : Int)
  | ensureTopicMetadata (env : Surroundings) (topic : Str)
  | electTopicLeaders (env : Surroundings) (topic : Str)

def step (b : Broker) : Event → Broker
  | .registerBroker now id host port epoch =>
      after (onController (fun store => registerBroker now store id host port epoch)) b
  | .heartbeatBroker now id => after (onController (fun store => heartbeatBroker now store id)) b
  | .setBrokerFence now id fenced => after (callSetBrokerFence now id fenced) b
  | .reconcileBrokerHealth env timeout => after (reconcileBrokerHealth env timeout) b
  | .ensureTopicMetadata env topic => after (ensureTopicMetadata env topic) b
  | .electTopicLeaders env topic => after (electTopicLeaders env topic) b

/-- The leader of every partition is among its replicas and in sync, and all that
are in sync are replicas. -/
def LeadersPlaced (metadata : MetadataSnapshot) : Prop :=
  ∀ topic md p pm, metadata.topics.get topic = some md → md.partitions.get p = some pm →
    (0 ≤ pm.leaderID → pm.leaderID ∈ pm.replicas ∧ pm.leaderID ∈ pm.isr) ∧
      ∀ id ∈ pm.isr, id ∈ pm.replicas

/-- The brokers that leaders are dealt from are among the first
`replicationFactor` ids. -/
def Covers (b : Broker) (topic : Str) : Prop :=
  b.controller.metadata.topics.get topic ≠ none ∨
    ¬ Accepted topic b.defaultPartitions b.defaultReplicationFactor ∨
    ∀ id ∈ if alive b = [] then [b.localBrokerID] else alive b,
      id ≠ -1 ∧ id < b.defaultReplicationFactor

def Allowed (b : Broker) : Event → Prop
  | .ensureTopicMetadata _ topic => Covers b topic
  | _ => True

structure Placed (factor : Int) (pm : PartitionMetadata) : Prop where
  replicas : pm.replicas = firstIDs factor
  isr : ∀ id ∈ pm.isr, id ∈ firstIDs factor
  leader : 0 ≤ pm.leaderID → pm.leaderID ∈ pm.isr

theorem Placed.led {leaderID : Int} {isr : List Int} (h : Placed factor pm)
    (hisr : ∀ id ∈ isr, id ∈ firstIDs factor) (hleader : 0 ≤ leaderID → leaderID ∈ isr) :
    Placed factor (pm.led leaderID isr) := by
  refine ⟨h.replicas, ?_, ?_⟩
  · intro id hid
    unfold PartitionMetadata.led at hid
    dsimp only at hid
    split at hid
    · exact h.isr id hid
    · exact hisr id hid
  · intro hlow
    have hmem := hleader hlow
    unfold PartitionMetadata.led
    dsimp only
    rwa [if_neg (List.ne_nil_of_mem hmem)]

structure Kept (b b' : Broker) : Prop where
  factor : b'.defaultReplicationFactor = b.defaultReplicationFactor
  enrolled : Enrolled b'.controller.metadata
  placed : Everywhere (fun md => ∀ p pm, md.partitions.get p = some pm →
    Placed b.defaultReplicationFactor pm) b'.controller.metadata

theorem Kept.leadersPlaced {b' : Broker} (h : Kept b b') :
    LeadersPlaced b'.controller.metadata := by
  intro topic md p pm hmd hpm
  have hplaced := h.placed topic md hmd p pm hpm
  refine ⟨fun hlow => ?_, fun id hid => ?_⟩
  · exact ⟨hplaced.replicas ▸ hplaced.isr _ (hplaced.leader hlow), hplaced.leader hlow⟩
  · exact hplaced.replicas ▸ hplaced.isr id hid

section Steps

variable {b b' : Broker}

/-- A command to one broker leaves the topics alone. -/
theorem Kept.command (h : Kept b b') {store : RaftMetadataStore} (hstore : Enrolled store.metadata)
    (htopics : store.metadata.topics = b'.controller.metadata.topics) :
    Kept b { b' with controller := store } := by
  refine ⟨h.factor, hstore, fun topic md hmd => ?_⟩
  rw [show ({ b' with controller := store } : Broker).controller = store from rfl,
    htopics] at hmd
  exact h.placed topic md hmd

theorem Kept.fence (h : Kept b b') (now : Time) (id : Int) (fenced : Bool) :
    Program.Yields (fun b'' _ => Kept b b'') (callSetBrokerFence now id fenced) b' :=
  Program.yields_modify (h.command (h.enrolled.setBrokerFence now id fenced)
    (setBrokerFence_topics now _ id fenced))

theorem Kept.register (h : Kept b b') (now : Time) (id : Int) (host : Str) (port epoch : Int) :
    Program.Yields (fun b'' _ => Kept b b'')
      (onController (fun store => registerBroker now store id host port epoch)) b' :=
  Program.yields_modify (h.command (h.enrolled.registerBroker now id host port epoch)
    (registerBroker_topics now _ id host port epoch))

theorem Kept.heartbeat (h : Kept b b') (now : Time) (id : Int) :
    Program.Yields (fun b'' _ => Kept b b'')
      (onController (fun store => heartbeatBroker now store id)) b' :=
  Program.yields_modify (h.command (h.enrolled.heartbeatBroker now id)
    (heartbeatBroker_topics now _ id))

theorem Kept.reconcile (h : Kept b b') (env : Surroundings) (timeout : Int) :
    Program.Yields (fun b'' _ => Kept b b'') (reconcileBrokerHealth env timeout) b' := by
  unfold reconcileBrokerHealth
  split
  · exact h
  · refine Program.yields_read_bind ?_
    exact upholds_attemptAll_inv (fun u _ b'' hb'' => hb''.fence (env.clock 1) u.1 u.2) h 0

def Eligible (factor : Int) (u : LeaderUpdate) : Prop :=
  (∀ id ∈ u.isr, id ∈ firstIDs factor) ∧ (0 ≤ u.leaderID → u.leaderID ∈ u.isr)

/-- An election chooses among the replicas. -/
theorem electPartition_eligible {pid : Int} {brokers : FMap Int BrokerMetadata}
    (hpm : Placed factor pm) (hu : electPartition brokers pid pm = some u) : Eligible factor u := by
  unfold electPartition at hu
  dsimp only at hu
  split at hu
  · rw [if_pos rfl] at hu
    cases hu
  · split at hu
    · cases hu
    · cases hfind : pm.replicas.find? (isBrokerEligible brokers) with
      | none =>
        have hisr : selectEligibleReplicas brokers pm.replicas = [] :=
          List.filter_eq_nil_iff.mpr (List.find?_eq_none.mp hfind)
        rw [electFromReplicas, hfind, Option.getD_none, hisr, if_neg (by omega)] at hu
        cases hu
        exact ⟨fun id hid => absurd hid List.not_mem_nil,
          fun hlow => absurd hlow (show ¬ (0 : Int) ≤ -1 by decide)⟩
      | some id =>
        have hmem : id ∈ selectEligibleReplicas brokers pm.replicas :=
          List.mem_filter.mpr ⟨List.mem_of_find?_eq_some hfind, List.find?_some hfind⟩
        rw [electFromReplicas, hfind, Option.getD_some,
          if_neg (fun hnil => List.ne_nil_of_mem hmem hnil.1)] at hu
        cases hu
        refine ⟨fun id hid => ?_, fun _ => hmem⟩
        rw [← hpm.replicas]
        exact (List.mem_filter.mp hid).1

theorem electionUpdates_eligible {metadata : MetadataSnapshot} {updates : List LeaderUpdate}
    (h : Everywhere (fun md => ∀ p pm, md.partitions.get p = some pm → Placed factor pm) metadata)
    (hupdates : electionUpdates metadata topic = .ok updates) :
    ∀ u ∈ updates, Eligible factor u := by
  unfold electionUpdates at hupdates
  split at hupdates
  · cases hupdates
  · split at hupdates
    · cases hupdates
    · rename_i md hmd
      cases hupdates
      intro u hu
      obtain ⟨pid, -, hbind⟩ := List.mem_filterMap.mp hu
      obtain ⟨pm, hpm, helect⟩ := Option.bind_eq_some_iff.mp hbind
      exact electPartition_eligible (h topic md hmd pid pm hpm) helect

theorem Kept.setLeader (h : Kept b b') (now : Time) (topic : Str)
    (hu : Eligible b.defaultReplicationFactor u) :
    Program.Yields (fun b'' _ => Kept b b'')
      (callSetPartitionLeader now topic u.partition u.leaderID u.isr) b' := by
  rcases setPartitionLeader_cases now b'.controller topic u.partition u.leaderID u.isr with
    ⟨-, e, hfail⟩ | ⟨md, p, r, -, -, -, hmd, hp, hset⟩
  · exact yields_onController hfail h
  · refine yields_onController hset ⟨h.factor, h.enrolled, h.placed.set topic ?_⟩
    intro q pm hpm
    dsimp only at hpm
    rw [FMap.get_set] at hpm
    split at hpm
    · cases hpm
      exact (h.placed topic md hmd _ p hp).led hu.1 hu.2
    · exact h.placed topic md hmd q pm hpm

theorem Kept.elect (h : Kept b b') (env : Surroundings) (topic : Str) :
    Program.Yields (fun b'' _ => Kept b b'') (electTopicLeaders env topic) b' := by
  refine Program.yields_read_bind ?_
  cases hupdates : electionUpdates b'.controller.metadata topic with
  | error e => exact h
  | ok updates =>
    have heligible := electionUpdates_eligible h.placed hupdates
    exact upholds_attemptAll_inv
      (fun u hu b'' hb'' => hb''.setLeader (env.clock 0) topic (heligible u hu)) h 0

/-- A topic that is being created is placed as far as its leaders are replicas. -/
theorem Kept.opened (h : Kept b b') {brokers : List Int} {k : ℕ} {b'' : Broker}
    (hopened : Opened b' topic brokers k b'')
    (hbrokers : ∀ p : ℕ, p < k → dealt brokers p ∈ firstIDs b.defaultReplicationFactor) :
    Kept b b'' := by
  obtain ⟨md, hmd, hpartitions⟩ := hopened.opened
  have hfactor : b''.defaultReplicationFactor = b'.defaultReplicationFactor := by
    rw [hopened.elsewhere]
  refine ⟨hfactor.trans h.factor, ?_, fun t md' hmd' p pm hpm => ?_⟩
  · intro id broker hbroker
    rw [hopened.brokers_eq] at hbroker
    exact h.enrolled id broker hbroker
  · by_cases ht : t = topic
    · subst ht
      rw [hmd] at hmd'
      cases hmd'
      rw [hpartitions, h.factor] at hpm
      split at hpm
      · rename_i hrange
        cases hpm
        unfold stage
        have hcreated : Placed b.defaultReplicationFactor ⟨p, -1,
            firstIDs b.defaultReplicationFactor, firstIDs b.defaultReplicationFactor⟩ :=
          ⟨rfl, fun _ hid => hid, fun hlow => absurd hlow (show ¬ (0 : Int) ≤ -1 by decide)⟩
        dsimp only
        split
        · have hdealt := hbrokers p.toNat (by omega)
          rw [Int.toNat_of_nonneg hrange.1] at hdealt
          refine hcreated.led (fun id hid => ?_) (fun _ => List.mem_singleton.mpr rfl)
          rw [List.mem_singleton.mp hid]
          exact hdealt
        · exact hcreated
      · cases hpm
    · rw [hopened.topics t ht] at hmd'
      exact h.placed t md' hmd' p pm hpm

theorem Kept.ensure (h : Kept b b') (env : Surroundings) (hcovers : Covers b' topic) :
    Program.Yields (fun b'' _ => Kept b b'') (ensureTopicMetadata env topic) b' := by
  cases hknown : b'.controller.metadata.topics.get topic with
  | some md =>
    refine (ensureTopicMetadata_known env hknown).weaken ?_
    rintro b'' r ⟨rfl, -⟩
    exact h
  | none =>
    refine (ensureTopicMetadata_creates env hknown).weaken (fun b'' r hr => ?_)
    have hdealt : Accepted topic b'.defaultPartitions b'.defaultReplicationFactor →
        ∀ {k : ℕ}, Opened b' topic (candidates env b') k b'' → Kept b b'' := by
      intro haccepted k hopened
      refine h.opened hopened (fun p hp => ?_)
      rcases hcovers with hsome | hrefused | hcovers
      · exact absurd hknown hsome
      · exact absurd haccepted hrefused
      · obtain ⟨hne, hlt⟩ := hcovers _
          (mem_candidates.mp (dealt_mem (candidates_ne_nil env b') (p : Int)))
        have hvalid := hopened.leaders_valid p hp
        rw [h.factor] at hlt
        exact mem_firstIDs.mpr ⟨by omega, hlt⟩
    cases r with
    | error e =>
      rcases hr with ⟨-, rfl⟩ | ⟨haccepted, k, -, hopened, -⟩
      · exact h
      · exact hdealt haccepted hopened
    | ok md => exact hdealt hr.1 hr.2.1

theorem Kept.step (h : Kept b b') {event : Event} (hallowed : Allowed b' event) :
    Kept b (step b' event) := by
  cases event with
  | registerBroker now id host port epoch =>
    exact after_of_yields (h.register now id host port epoch) h
  | heartbeatBroker now id => exact after_of_yields (h.heartbeat now id) h
  | setBrokerFence now id fenced => exact after_of_yields (h.fence now id fenced) h
  | reconcileBrokerHealth env timeout => exact after_of_yields (h.reconcile env timeout) h
  | ensureTopicMetadata env topic => exact after_of_yields (h.ensure env hallowed) h
  | electTopicLeaders env topic => exact after_of_yields (h.elect env topic) h

/-- Where the replication factor does not cover a broker, some order of the map
deals it the first partition. -/
theorem covers_of_placed (henrolled : Enrolled b.controller.metadata)
    (h : ∀ env, LeadersPlaced (ReplicaPlacement.step b
      (.ensureTopicMetadata env topic)).controller.metadata) : Covers b topic := by
  by_contra hnot
  simp only [Covers, not_or, not_not, not_forall] at hnot
  obtain ⟨hunknown, haccepted, id, hid, hbad⟩ := hnot
  have hfactor : 0 < b.defaultReplicationFactor := haccepted.2.2.1
  have hdealt : dealt (candidates (visitFirst id) b) 0 = id := by
    split at hid
    · rename_i hnone
      rw [dealt_singleton (candidates_of_none _ hnone), List.mem_singleton.mp hid]
    · exact dealt_visitFirst hid
  have hcreates : Creates b topic := by
    refine ⟨haccepted, fun hnone => ?_⟩
    rw [if_pos hnone, List.mem_singleton] at hid
    omega
  obtain ⟨c, md, hrun⟩ := ensured_of_creates (visitFirst id) henrolled hunknown hcreates
  obtain ⟨-, hopened, hmd⟩ := ensured_opened hunknown hrun
  obtain ⟨md', hmd', hpartitions⟩ := hopened.opened
  have hafter : ReplicaPlacement.step b (.ensureTopicMetadata (visitFirst id) topic) = c := by
    simp only [ReplicaPlacement.step, after, hrun]
  have hpartition := hpartitions 0
  have hcount : 0 < b.defaultPartitions := haccepted.2.1
  rw [if_pos ⟨Int.le_refl 0, hcount⟩, stage, if_pos (by omega), hdealt] at hpartition
  have hplaced := h (visitFirst id)
  rw [hafter] at hplaced
  have hmem := (hplaced topic md' 0 _ hmd' hpartition).2 id (by simp [PartitionMetadata.led])
  have hrange := mem_firstIDs.mp hmem
  omega

end Steps

theorem kept_start (hfresh : b.controller = newRaftMetadataStore) : Kept b b := by
  refine ⟨rfl, hfresh ▸ enrolled_new, fun topic md hmd => ?_⟩
  rw [hfresh] at hmd
  simp [newRaftMetadataStore] at hmd

/-- In every run whose topics are created with a replication factor that covers
the brokers, leaders are replicas in sync; and no weaker condition will do. -/
theorem leaders_placed_of_covered {b : Broker} (hfresh : b.controller = newRaftMetadataStore)
    {events : List Event} (hvalid : Valid step Allowed b events) :
    LeadersPlaced (run step b events).controller.metadata ∧
      ∀ topic, (∀ env, LeadersPlaced
        (step (run step b events) (.ensureTopicMetadata env topic)).controller.metadata) ↔
          Covers (run step b events) topic := by
  have hkept : Kept b (run step b events) :=
    run_invariant (fun _ _ h hallowed => h.step hallowed) (kept_start hfresh) hvalid
  refine ⟨hkept.leadersPlaced, fun topic => ⟨covers_of_placed hkept.enrolled,
    fun hcovers env => ?_⟩⟩
  have hnext : Kept b (step (run step b events) (.ensureTopicMetadata env topic)) :=
    hkept.step hcovers
  exact hnext.leadersPlaced

def blank : Broker := { aloneBroker with controller := newRaftMetadataStore }

def covered : List Event :=
  [.registerBroker 0 0 (lit "b0") 9092 0, .ensureTopicMetadata quiet (lit "orders"),
    .setBrokerFence 0 0 true, .electTopicLeaders quiet (lit "orders")]

instance (b : Broker) (topic : Str) : Decidable (Covers b topic) := by
  unfold Covers
  infer_instance

instance (b : Broker) (event : Event) : Decidable (Allowed b event) := by
  unfold Allowed
  split
  · infer_instance
  · infer_instance

theorem leaders_placed_covered :
    LeadersPlaced (run step blank covered).controller.metadata ∧
      ∀ topic, (∀ env, LeadersPlaced
        (step (run step blank covered) (.ensureTopicMetadata env topic)).controller.metadata) ↔
          Covers (run step blank covered) topic :=
  leaders_placed_of_covered rfl (by decide)

def uncovered : List Event :=
  [.registerBroker 0 1 (lit "b1") 9092 0, .ensureTopicMetadata quiet (lit "orders")]

/-- It leads the partition, but is none of its replicas. -/
theorem leader_not_replica : ¬ LeadersPlaced (run step blank uncovered).controller.metadata := by
  have hpartition : ∃ md, (run step blank uncovered).controller.metadata.topics.get (lit "orders") =
      some md ∧ md.partitions.get 0 = some ⟨0, 1, [0], [1]⟩ := ⟨_, rfl, by decide⟩
  obtain ⟨md, hmd, hpm⟩ := hpartition
  intro h
  exact absurd ((h (lit "orders") md 0 _ hmd hpm).1 (by decide)).1 (by decide)

end Flux.ReplicaPlacement
