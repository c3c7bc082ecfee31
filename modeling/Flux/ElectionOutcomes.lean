import Flux.LeaderElections
import Flux.MetadataRuns

/-!
What an election leaves behind, on any metadata that calls to the controller can
bring about. Leaders that can lead stay, the others are replaced by the first
replica that can, and the same election once more changes nothing.
-/
namespace Flux.ElectionOutcomes

open GoStrings FiniteMap ClusterMetadata Interleavings BrokerNode BrokerContracts
open ControllerSteps ProgramCalls MetadataShape LeaderElections MetadataRuns BrokerRuns

variable {brokers : FMap Int BrokerMetadata} {pm : PartitionMetadata}

def Moved (md md' : TopicMetadata) (p : Int) : Prop :=
  (md'.partitions.get p).map PartitionMetadata.leaderID ≠
    (md.partitions.get p).map PartitionMetadata.leaderID

instance (md md' : TopicMetadata) (p : Int) : Decidable (Moved md md' p) := by
  unfold Moved
  infer_instance

def CanLead (brokers : FMap Int BrokerMetadata) (id : Int) : Prop :=
  ∃ broker, brokers.get id = some broker ∧ broker.fenced = false

theorem eligible_iff (brokers : FMap Int BrokerMetadata) (id : Int) :
    isBrokerEligible brokers id = true ↔ CanLead brokers id := by
  unfold isBrokerEligible CanLead
  cases brokers.get id with
  | none => simp
  | some broker => simp

instance (brokers : FMap Int BrokerMetadata) : DecidablePred (CanLead brokers) :=
  fun id => decidable_of_iff _ (eligible_iff brokers id)

structure Replaced (canLead : Int → Prop) [DecidablePred canLead] (pm pm' : PartitionMetadata) :
    Prop where
  replicas : pm'.replicas = pm.replicas
  kept : canLead pm.leaderID → pm' = pm
  first : ¬ canLead pm.leaderID → pm'.leaderID = (pm.replicas.find? canLead).getD (-1)
  none : ¬ canLead pm.leaderID → (pm'.leaderID = -1 ↔ ∀ id ∈ pm.replicas, ¬ canLead id)
  inSync : pm'.leaderID ≠ pm.leaderID → 0 ≤ pm'.leaderID →
    pm'.isr = pm.replicas.filter canLead ∧ pm'.leaderID ∈ pm'.isr

structure Outcome (before after : MetadataSnapshot) (topic : Str) (count : ℕ) : Prop where
  brokers : after.brokers = before.brokers
  others : ∀ t, t ≠ topic → after.topics.get t = before.topics.get t
  elected : ∃ md md', before.topics.get topic = some md ∧ after.topics.get topic = some md' ∧
    (∀ p, Option.Rel (Replaced (CanLead before.brokers))
      (md.partitions.get p) (md'.partitions.get p)) ∧
    count = (md.partitions.keys.filter (fun p => Moved md md' p)).length

section Partition

variable {metadata : MetadataSnapshot}

theorem settled_replicas (brokers : FMap Int BrokerMetadata) (pid : Int)
    (pm : PartitionMetadata) : (settled brokers pid pm).replicas = pm.replicas := by
  unfold settled
  split
  · rfl
  · rfl

theorem elected_of_eligible (h : isBrokerEligible brokers pm.leaderID = true) :
    elected brokers pm = pm.leaderID :=
  if_pos h

theorem elected_of_not_eligible (h : isBrokerEligible brokers pm.leaderID = false) :
    elected brokers pm = electFromReplicas brokers pm.replicas :=
  if_neg (by simp [h])

theorem settled_of_elected {pid : Int} (h : elected brokers pm = pm.leaderID) :
    settled brokers pid pm = pm := by
  have hnone : electPartition brokers pid pm = none := if_pos h
  rw [settled, hnone]

/-- No broker has a negative id, so minus one stands for no leader. -/
theorem electFromReplicas_eq_neg (h : Enrolled metadata) (replicas : List Int) :
    electFromReplicas metadata.brokers replicas = -1 ↔
      ∀ id ∈ replicas, isBrokerEligible metadata.brokers id = false := by
  unfold electFromReplicas
  cases hfind : replicas.find? (isBrokerEligible metadata.brokers) with
  | none =>
    have hnone := List.find?_eq_none.mp hfind
    simpa using hnone
  | some id =>
    have hid : isBrokerEligible metadata.brokers id = true := List.find?_some hfind
    have hlow := nonneg_of_eligible h hid
    rw [Option.getD_some]
    constructor
    · intro heq
      omega
    · intro hnone
      rw [hnone id (List.mem_of_find?_eq_some hfind)] at hid
      cases hid

/-- A new leader comes with the eligible replicas, and it is one of them. -/
theorem settled_inSync (pid : Int) (hmoved : elected metadata.brokers pm ≠ pm.leaderID)
    (hlow : 0 ≤ elected metadata.brokers pm) :
    (settled metadata.brokers pid pm).isr =
        pm.replicas.filter (isBrokerEligible metadata.brokers) ∧
      elected metadata.brokers pm ∈ pm.replicas.filter (isBrokerEligible metadata.brokers) := by
  have hleader : isBrokerEligible metadata.brokers pm.leaderID = false := by
    cases hleader : isBrokerEligible metadata.brokers pm.leaderID with
    | false => rfl
    | true => exact absurd (elected_of_eligible hleader) hmoved
  have hmem : elected metadata.brokers pm ∈
      pm.replicas.filter (isBrokerEligible metadata.brokers) := by
    rw [elected_of_not_eligible hleader] at hlow ⊢
    unfold electFromReplicas at hlow ⊢
    cases hfind : pm.replicas.find? (isBrokerEligible metadata.brokers) with
    | none =>
      rw [hfind] at hlow
      exact absurd hlow (by decide)
    | some id =>
      exact List.mem_filter.mpr ⟨List.mem_of_find?_eq_some hfind, List.find?_some hfind⟩
  refine ⟨?_, hmem⟩
  have hsome : selectEligibleReplicas metadata.brokers pm.replicas ≠ [] :=
    List.ne_nil_of_mem hmem
  have helect : electPartition metadata.brokers pid pm = some ⟨pid, elected metadata.brokers pm,
      selectEligibleReplicas metadata.brokers pm.replicas⟩ := by
    refine (if_neg hmoved).trans (congrArg (fun isr => some (LeaderUpdate.mk _ _ isr)) ?_)
    exact if_neg (fun hboth => hsome hboth.1)
  rw [settled, helect]
  exact if_neg hsome

theorem eligible_eq_decide (brokers : FMap Int BrokerMetadata) :
    isBrokerEligible brokers = fun id => decide (CanLead brokers id) := by
  funext id
  rw [Bool.eq_iff_iff, decide_eq_true_iff]
  exact eligible_iff brokers id

/-- What an election makes of one partition. -/
theorem replaced_settled (h : Enrolled metadata) (pid : Int) (pm : PartitionMetadata) :
    Replaced (CanLead metadata.brokers) pm (settled metadata.brokers pid pm) := by
  have hnot : ∀ id, ¬ CanLead metadata.brokers id → isBrokerEligible metadata.brokers id = false :=
    fun id hid => by rw [eligible_eq_decide]; exact decide_eq_false hid
  refine ⟨settled_replicas _ _ _, fun hleader => ?_, fun hleader => ?_, fun hleader => ?_,
    fun hmoved hlow => ?_⟩
  · exact settled_of_elected (elected_of_eligible ((eligible_iff _ _).mpr hleader))
  · rw [settled_leaderID, elected_of_not_eligible (hnot _ hleader), electFromReplicas,
      eligible_eq_decide]
  · rw [settled_leaderID, elected_of_not_eligible (hnot _ hleader), electFromReplicas_eq_neg h]
    simp only [eligible_eq_decide, decide_eq_false_iff_not]
  · rw [settled_leaderID] at hmoved hlow ⊢
    obtain ⟨hisr, hmem⟩ := settled_inSync pid hmoved hlow
    rw [eligible_eq_decide] at hisr hmem
    rw [hisr]
    exact ⟨rfl, hmem⟩

/-- What an election has settled the next one leaves alone. -/
theorem electPartition_settled (brokers : FMap Int BrokerMetadata) (pid : Int)
    (pm : PartitionMetadata) : electPartition brokers pid (settled brokers pid pm) = none := by
  refine if_pos ?_
  rw [settled_leaderID, settled_replicas]
  split
  · rfl
  · rename_i hnot
    have hleader : isBrokerEligible brokers pm.leaderID = false := by
      cases hleader : isBrokerEligible brokers pm.leaderID with
      | false => rfl
      | true =>
        rw [elected_of_eligible hleader] at hnot
        exact absurd hleader hnot
    exact (elected_of_not_eligible hleader).symm

end Partition

section Election

variable {b b' : Broker} {topic : Str} {md md' : TopicMetadata}

theorem electTopicLeaders_returns (env : Surroundings) (topic : Str) (b : Broker) :
    Program.Returns (electTopicLeaders env topic) b := by
  refine Program.returns_read_bind ?_
  cases electionUpdates b.controller.metadata topic with
  | error e => exact ⟨b, _, rfl⟩
  | ok updates =>
    exact returns_attemptAll (fun u c => Program.returns_modify _ c) updates b 0

theorem electionUpdates_known (hshape : WellFormed b.controller.metadata)
    (hmd : b.controller.metadata.topics.get topic = some md) :
    electionUpdates b.controller.metadata topic =
      .ok (updates b.controller.metadata.brokers md) := by
  have hnamed : topic ≠ [] := by
    rintro rfl
    rw [hshape.named] at hmd
    cases hmd
  rw [electionUpdates, if_neg hnamed, hmd]
  rfl

theorem electTopicLeaders_count (env : Surroundings) (hshape : WellFormed b.controller.metadata)
    (hmd : b.controller.metadata.topics.get topic = some md) :
    Program.Yields (fun _ r => ∀ n, r = .ok n →
      n = (updates b.controller.metadata.brokers md).length) (electTopicLeaders env topic) b := by
  refine Program.yields_read_bind ?_
  rw [electionUpdates_known hshape hmd]
  refine (yields_attemptAll_count _ _ b 0).weaken (fun _ r hr n hn => ?_)
  rw [hr n hn, Nat.zero_add]

/-- One update is made for each partition whose leader moves. -/
theorem updates_length (brokers : FMap Int BrokerMetadata)
    (hget : ∀ p, md'.partitions.get p = (md.partitions.get p).map (settled brokers p)) :
    (updates brokers md).length = (md.partitions.keys.filter (fun p => Moved md md' p)).length := by
  have hsome : ∀ p, ((md.partitions.get p).bind (electPartition brokers p)).isSome =
      decide (Moved md md' p) := by
    intro p
    simp only [Moved, hget]
    cases md.partitions.get p with
    | none => simp
    | some pm =>
      rw [Option.bind_some, Option.map_some, Option.map_some, Option.map_some, settled_leaderID]
      rcases electPartition_cases brokers p pm with ⟨hnone, hsame⟩ | ⟨isr, helect⟩
      · simp [hnone, hsame]
      · have hmoved : elected brokers pm ≠ pm.leaderID := by
          intro hsame
          have hnone : electPartition brokers p pm = none := if_pos hsame
          rw [hnone] at helect
          cases helect
        simp [helect, hmoved]
  rw [updates, List.length_filterMap_eq_countP, List.countP_eq_length_filter]
  have hperm : (sortInts md.partitions.keys).Perm md.partitions.keys :=
    List.perm_insertionSort _ _
  simp only [hsome]
  exact (hperm.filter _).length_eq

theorem outcome_of_elected (hshape : WellFormed b.controller.metadata)
    (hmd : b.controller.metadata.topics.get topic = some md) (h : Elected b topic md [] b') :
    Outcome b.controller.metadata b'.controller.metadata topic
      (updates b.controller.metadata.brokers md).length := by
  obtain ⟨md', hmd', hpartitions⟩ := h.partitions
  have hget : ∀ p, md'.partitions.get p =
      (md.partitions.get p).map (settled b.controller.metadata.brokers p) := by
    intro p
    rw [hpartitions]
    simp
  refine ⟨h.brokers_eq, h.topics, md, md', hmd, hmd', fun p => ?_, updates_length _ hget⟩
  rw [hget]
  cases md.partitions.get p with
  | none => exact .none
  | some pm => exact .some (replaced_settled hshape.enrolled p pm)

/-- The election once more finds nothing to do. -/
theorem electTopicLeaders_again (env : Surroundings) (hnamed : topic ≠ [])
    (h : Elected b topic md [] b') :
    (electTopicLeaders env topic).run b' = .ok (b', .ok 0) := by
  obtain ⟨md', hmd', hpartitions⟩ := h.partitions
  have hnone : updates b'.controller.metadata.brokers md' = [] := by
    refine List.filterMap_eq_nil_iff.mpr (fun p _ => ?_)
    rw [hpartitions, h.brokers_eq]
    cases md.partitions.get p with
    | none => rfl
    | some pm =>
      rw [Option.map_some, if_neg List.not_mem_nil, Option.bind_some]
      exact electPartition_settled _ p pm
  have hupdates : electionUpdates b'.controller.metadata topic = .ok [] := by
    rw [electionUpdates, if_neg hnamed, hmd']
    exact congrArg Except.ok hnone
  have hread : Program.run snapshot b' = .ok (b', b'.controller.metadata) := rfl
  rw [electTopicLeaders, Program.run_bind hread, hupdates]
  rfl

end Election

theorem commanded_step (store : RaftMetadataStore) (c : Call) :
    Commanded store (MetadataRuns.step store c) := by
  unfold MetadataRuns.step
  cases c with
  | createTopic now name partitions replicationFactor =>
    simp only [perform]
    split
    · exact .create ‹_›
    · exact .same
  | registerBroker now id host port epoch => exact .register ..
  | heartbeatBroker now id => exact .heartbeat ..
  | setPartitionLeader now topic partition leaderID isr => exact .leader ..
  | setBrokerFence now id fenced => exact .fence ..

theorem wellFormed_reached (calls : List Call) : WellFormed (reached calls).metadata := by
  have hnew : WellFormed newRaftMetadataStore.metadata :=
    ⟨enrolled_new, fun topic md hget => by simp [newRaftMetadataStore] at hget, rfl⟩
  have hvalid : Runs.Valid MetadataRuns.step (fun _ _ => True) newRaftMetadataStore calls :=
    Runs.valid_of_forall (fun _ _ _ => trivial)
  exact Runs.run_invariant (I := fun s => WellFormed s.metadata)
    (fun s c hs _ => hs.commanded (commanded_step s c)) hnew hvalid

/-- An election of a known topic goes through and does what is asked of it, and
once more it changes nothing. -/
theorem election_correct (env env' : Surroundings) (b : Broker) (calls : List Call) (topic : Str)
    (hknown : ((reached calls).metadata.topics.get topic).isSome = true) :
    ∃ b' count, (electTopicLeaders env topic).run { b with controller := reached calls } =
        .ok (b', .ok count) ∧
      Outcome (reached calls).metadata b'.controller.metadata topic count ∧
      (electTopicLeaders env' topic).run b' = .ok (b', .ok 0) := by
  have hshape := wellFormed_reached calls
  obtain ⟨md, hmd⟩ := Option.isSome_iff_exists.mp hknown
  have hnamed : topic ≠ [] := by
    rintro rfl
    rw [hshape.named] at hmd
    cases hmd
  obtain ⟨b', r, hrun⟩ :=
    electTopicLeaders_returns env topic { b with controller := reached calls }
  have hsettles := (electTopicLeaders_settles env (b := { b with controller := reached calls })
    hshape hmd).run hrun
  have hcount := (electTopicLeaders_count env (b := { b with controller := reached calls })
    hshape hmd).run hrun
  cases r with
  | error e => exact hsettles.elim
  | ok count =>
    refine ⟨b', count, hrun, ?_, electTopicLeaders_again env' hnamed hsettles⟩
    rw [hcount count rfl]
    exact outcome_of_elected (b := { b with controller := reached calls }) hshape hmd hsettles

def handover : List Call :=
  [.registerBroker 1 0 (lit "a") 9 1, .registerBroker 1 1 (lit "b") 9 1,
    .createTopic 2 (lit "orders") 2 2, .setPartitionLeader 3 (lit "orders") 0 0 [0],
    .setPartitionLeader 3 (lit "orders") 1 1 [1], .setBrokerFence 4 0 true]

/-- An election after the leader was fenced. -/
theorem election_correct_handover :
    ((reached handover).metadata.topics.get (lit "orders")).isSome = true ∧
    ∃ b' count, (electTopicLeaders quiet (lit "orders")).run
        { aloneBroker with controller := reached handover } = .ok (b', .ok count) ∧
      Outcome (reached handover).metadata b'.controller.metadata (lit "orders") count ∧
      (electTopicLeaders quiet (lit "orders")).run b' = .ok (b', .ok 0) :=
  have hknown : ((reached handover).metadata.topics.get (lit "orders")).isSome = true := by
    decide
  ⟨hknown, election_correct quiet quiet aloneBroker handover (lit "orders") hknown⟩

end Flux.ElectionOutcomes
