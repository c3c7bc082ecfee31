import Flux.RoleReconciliation

/-!
What a failover does to leaders and roles. The leader that failed is fenced, every
topic gets new leaders, and then this broker is made the leader of the partitions
that it led before the election.
-/
namespace Flux.RoleFailover

open GoRuntime GoStrings FiniteMap ReplicationManager ClusterMetadata Interleavings BrokerNode
open BrokerContracts ClusterRuntime ControllerSteps MetadataShape LeaderElections RoleReconciliation

variable {store : RaftMetadataStore} {topic : Str} {md : TopicMetadata}

section Failover

def eligibleBut (metadata : MetadataSnapshot) (leaderID id : Int) : Bool :=
  decide (id ≠ leaderID) && isBrokerEligible metadata.brokers id

def successor (metadata : MetadataSnapshot) (leaderID : Int) (pm : PartitionMetadata) : Int :=
  if eligibleBut metadata leaderID pm.leaderID then pm.leaderID
  else (pm.replicas.find? (eligibleBut metadata leaderID)).getD (-1)

/-- A fenced broker cannot lead; a broker that cannot be fenced could not before. -/
theorem eligible_fenced (h : Enrolled store.metadata) (now : Time) (leaderID : Int) :
    isBrokerEligible (setBrokerFence now store leaderID true).1.metadata.brokers =
      eligibleBut store.metadata leaderID := by
  funext id
  unfold eligibleBut
  cases hget : store.metadata.brokers.get leaderID with
  | none =>
    have hsame : (setBrokerFence now store leaderID true).1 = store := by
      rcases setBrokerFence_cases now store leaderID true with ⟨e, hfail⟩ | ⟨b, r, hb, -⟩
      · rw [hfail]
      · rw [hget] at hb
        cases hb
    rw [hsame]
    by_cases hid : id = leaderID
    · subst hid
      simp [isBrokerEligible, hget]
    · simp [hid]
  | some broker =>
    obtain ⟨hbroker, hlow⟩ := h leaderID broker hget
    obtain ⟨r, hset⟩ := setBrokerFence_known now hget hlow true
    rw [hset]
    dsimp only [moved]
    by_cases hid : id = leaderID
    · subst hid
      simp [isBrokerEligible, hbroker]
    · simp [isBrokerEligible, hbroker, hid]

theorem elected_fenced (h : Enrolled store.metadata) (now : Time) (leaderID : Int)
    (pm : PartitionMetadata) :
    elected (setBrokerFence now store leaderID true).1.metadata.brokers pm =
      successor store.metadata leaderID pm := by
  unfold elected electFromReplicas successor
  rw [eligible_fenced h]

def failedOver (localBrokerID : Int) (pm : PartitionMetadata) (role : Role) : Role :=
  if pm.leaderID = localBrokerID then .leader else role

variable {b b' : Broker}

/-- The partitions of one topic that this broker is made the leader of. -/
theorem yields_leadAll (now : Time) (topic : Str) (items : List Int) (b : Broker) :
    Program.Yields (fun b' _ => b'.controller = b.controller ∧
      b'.localBrokerID = b.localBrokerID ∧
      ∀ t p, roleOf b' t p = if t = topic ∧ p ∈ items then .leader else roleOf b t p)
      (forEach (fun partition => do
        let _ ← onReplication (fun m => setRole now m topic partition Role.leader.text)
        pure ()) items) b := by
  induction items generalizing b with
  | nil =>
    refine ⟨rfl, rfl, fun t p => ?_⟩
    rw [if_neg (fun h => absurd h.2 List.not_mem_nil)]
  | cons partition rest ih =>
    have hset : Program.Yields (fun b' _ => Turned b topic partition .leader b') (do
        let _ ← onReplication (fun m => setRole now m topic partition Role.leader.text)
        pure ()) b := by
      have hcall : Program.Yields (fun b' _ => Turned b topic partition .leader b')
          (onReplication (fun m => setRole now m topic partition Role.leader.text)) b :=
        Program.yields_modify ⟨rfl, rfl, fun t p => role_setRole _ _ _ _ _ _ _⟩
      exact Program.upholds_bind hcall (fun _ _ h => h)
    refine Program.upholds_bind hset (fun c _ h => (ih c).weaken ?_)
    rintro c' _ ⟨hcontroller, hlocal, hroles⟩
    refine ⟨hcontroller.trans h.controller, hlocal.trans h.local_eq, fun t p => ?_⟩
    rw [hroles, h.roles]
    by_cases htopic : t = topic
    · subst htopic
      by_cases hhead : p = partition
      · simp [hhead]
      · simp [hhead]
    · simp [htopic]

/-- Metadata of the right shape keeps it through an election. -/
theorem elected_wellFormed (h : Elected b topic md [] b')
    (hshape : WellFormed b.controller.metadata)
    (hmd : b.controller.metadata.topics.get topic = some md) :
    WellFormed b'.controller.metadata := by
  obtain ⟨md', hmd', hpartitions⟩ := h.partitions
  have hnamed : topic ≠ [] := by
    rintro rfl
    rw [hshape.named] at hmd
    cases hmd
  refine ⟨?_, fun t md'' hget p hp => ?_, ?_⟩
  · intro id broker hget
    rw [h.brokers_eq] at hget
    exact hshape.enrolled id broker hget
  · by_cases ht : t = topic
    · subst ht
      rw [hmd'] at hget
      cases hget
      obtain ⟨pm', hpm'⟩ := (FMap.mem_keys_iff _ _).mp hp
      rw [hpartitions] at hpm'
      obtain ⟨pm, hpm, -⟩ := Option.map_eq_some_iff.mp hpm'
      exact hshape.natural t md hmd p ((FMap.mem_keys_iff _ _).mpr ⟨pm, hpm⟩)
    · rw [h.topics t ht] at hget
      exact hshape.natural t md'' hget p hp
  · rw [h.topics [] (Ne.symm hnamed)]
    exact hshape.named

structure FailingOver (b : Broker) (ahead : List Str) (b' : Broker) : Prop where
  local_eq : b'.localBrokerID = b.localBrokerID
  shape : WellFormed b'.controller.metadata
  brokers_eq : b'.controller.metadata.brokers = b.controller.metadata.brokers
  once : ahead.Nodup
  known : ∀ t ∈ ahead, ∃ md, b.controller.metadata.topics.get t = some md
  before : ∀ t, t ∈ ahead ∨ b.controller.metadata.topics.get t = none →
    b'.controller.metadata.topics.get t = b.controller.metadata.topics.get t ∧
      ∀ p, roleOf b' t p = roleOf b t p
  after : ∀ t, t ∉ ahead → ∀ md, b.controller.metadata.topics.get t = some md →
    ∃ md', b'.controller.metadata.topics.get t = some md' ∧
      (∀ p, md'.partitions.get p =
        (md.partitions.get p).map (settled b.controller.metadata.brokers p)) ∧
      ∀ p pm, md.partitions.get p = some pm →
        roleOf b' t p = failedOver b.localBrokerID pm (roleOf b t p)

/-- One topic more: its election, and then the roles. -/
theorem FailingOver.next {rest : List Str} {c d : Broker} (h : FailingOver b (topic :: rest) b')
    (hmd : b.controller.metadata.topics.get topic = some md) (helected : Elected b' topic md [] c)
    (hcontroller : d.controller = c.controller) (hlocal : d.localBrokerID = c.localBrokerID)
    (hroles : ∀ t p, roleOf d t p = if t = topic ∧
      (md.partitions.get p).any (fun pm => pm.leaderID = b.localBrokerID) then .leader
        else roleOf c t p) : FailingOver b rest d := by
  obtain ⟨hfresh, honce⟩ := List.nodup_cons.mp h.once
  obtain ⟨hget, hsame⟩ := h.before topic (.inl (List.mem_cons_self ..))
  rw [hmd] at hget
  have hc : ∀ t p, roleOf c t p = roleOf b' t p := by
    intro t p
    unfold roleOf
    rw [helected.elsewhere]
  have hother : ∀ t, t ≠ topic → d.controller.metadata.topics.get t =
      b'.controller.metadata.topics.get t ∧ ∀ p, roleOf d t p = roleOf b' t p := by
    intro t ht
    refine ⟨by rw [hcontroller]; exact helected.topics t ht, fun p => ?_⟩
    rw [hroles, if_neg (fun hk => ht hk.1), hc]
  refine ⟨?_, ?_, ?_, honce, fun t ht => h.known t (List.mem_cons_of_mem _ ht), fun t ht => ?_,
    fun t ht md' hmd' => ?_⟩
  · rw [hlocal, helected.elsewhere]
    exact h.local_eq
  · rw [hcontroller]
    exact elected_wellFormed helected h.shape hget
  · rw [hcontroller, helected.brokers_eq]
    exact h.brokers_eq
  · have hne : t ≠ topic := by
      rintro rfl
      rcases ht with hmem | hnone
      · exact hfresh hmem
      · rw [hmd] at hnone
        cases hnone
    obtain ⟨htopics, hrole⟩ := hother t hne
    obtain ⟨htopics', hrole'⟩ := h.before t (ht.imp (List.mem_cons_of_mem _) id)
    exact ⟨htopics.trans htopics', fun p => (hrole p).trans (hrole' p)⟩
  · by_cases hne : t = topic
    · subst hne
      rw [hmd] at hmd'
      cases hmd'
      obtain ⟨md', hstored, hpartitions⟩ := helected.partitions
      refine ⟨md', by rw [hcontroller]; exact hstored, fun p => ?_, fun p pm hpm => ?_⟩
      · rw [hpartitions, h.brokers_eq]
        simp only [List.not_mem_nil, ↓reduceIte]
      · rw [hroles, hc, hsame, hpm, failedOver]
        simp only [true_and, Option.any_some, decide_eq_true_eq]
    · obtain ⟨htopics, hrole⟩ := hother t hne
      have hnot : t ∉ topic :: rest := fun hmem => by
        rcases List.mem_cons.mp hmem with heq | hrest
        · exact hne heq
        · exact ht hrest
      obtain ⟨md'', hstored, hpartitions, hdone⟩ := h.after t hnot md' hmd'
      refine ⟨md'', htopics.trans hstored, hpartitions, fun p pm hpm => ?_⟩
      rw [hrole, hdone p pm hpm]

/-- After a failover every partition of the metadata has its successor as leader,
and this broker leads, in its own records, what it led before it. -/
theorem yields_tryFailoverForWorker (tick : Tick) (leaderID : Int)
    (hshape : WellFormed b.controller.metadata) :
    Program.Yields (fun b' _ =>
      b'.localBrokerID = b.localBrokerID ∧
      (∀ t p pm', Listed b'.controller.metadata t p pm' ↔
        ∃ pm, Listed b.controller.metadata t p pm ∧ pm' = settled
          (setBrokerFence (tick.env.clock 0) b.controller leaderID true).1.metadata.brokers p pm) ∧
      ∀ t p pm, Listed b.controller.metadata t p pm →
        roleOf b' t p = failedOver b.localBrokerID pm (roleOf b t p))
      (tryFailoverForWorker tick leaderID) b := by
  have hfence : Program.Yields (fun c _ => c = { b with
      controller := (setBrokerFence (tick.env.clock 0) b.controller leaderID true).1 })
      (callSetBrokerFence (tick.env.clock 0) leaderID true) b := Program.yields_modify rfl
  refine Program.upholds_bind hfence ?_
  rintro c _ hc
  refine Program.yields_read_bind (Program.yields_read_bind ?_)
  dsimp only [id]
  have hshape' : WellFormed c.controller.metadata := by
    rw [hc]
    exact hshape.commanded (.fence ..)
  have hstart : FailingOver c (tick.names c.controller.metadata.topics.keys) c := by
    refine ⟨rfl, hshape', rfl, (tick.names_perm _).nodup_iff.mpr (FMap.keys_nodup _),
      fun t ht => (FMap.mem_keys_iff _ _).mp ((tick.names_perm _).mem_iff.mp ht),
      fun _ _ => ⟨rfl, fun _ => rfl⟩, fun t ht md hmd => absurd ?_ ht⟩
    exact (tick.names_perm _).mem_iff.mpr ((FMap.mem_keys_iff _ _).mpr ⟨md, hmd⟩)
  refine Program.Upholds.weaken (upholds_forEach (FailingOver c) (fun topic rest d h => ?_) hstart)
    (fun d _ hd => ?_)
  · obtain ⟨md, hmd⟩ := h.known topic (List.mem_cons_self ..)
    have hget : d.controller.metadata.topics.get topic = some md :=
      (h.before topic (.inl (List.mem_cons_self ..))).1.trans hmd
    refine Program.upholds_bind (electTopicLeaders_settles tick.env h.shape hget) ?_
    intro e r hr
    cases r with
    | error text => exact hr.elim
    | ok n =>
      refine (yields_leadAll (tick.env.clock 1) topic _ e).weaken ?_
      rintro e' _ ⟨hcontroller, hlocal, hroles⟩
      refine h.next hmd hr hcontroller hlocal (fun t p => ?_)
      rw [hroles]
      refine if_congr (and_congr_right (fun _ => ?_)) rfl rfl
      rw [List.mem_filter, (tick.env.order_perm _).mem_iff, FMap.mem_keys_iff, topicOf, hmd,
        Option.getD_some]
      constructor
      · exact fun hk => hk.2
      · intro hk
        cases hpm : md.partitions.get p with
        | none =>
          rw [hpm] at hk
          cases hk
        | some pm => exact ⟨⟨pm, rfl⟩, hpm ▸ hk⟩
  · have hlisted : ∀ t p pm, Listed b.controller.metadata t p pm ↔
        Listed c.controller.metadata t p pm := by
      intro t p pm
      unfold Listed
      rw [hc]
      dsimp only
      rw [setBrokerFence_topics]
    have hlocal : c.localBrokerID = b.localBrokerID := by rw [hc]
    have hrole : ∀ t p, roleOf c t p = roleOf b t p := by
      intro t p
      rw [hc]
      rfl
    have hbrokers : c.controller.metadata.brokers =
        (setBrokerFence (tick.env.clock 0) b.controller leaderID true).1.metadata.brokers := by
      rw [hc]
    rw [← hbrokers]
    refine ⟨hd.local_eq.trans hlocal, fun t p pm' => ⟨?_, ?_⟩, fun t p pm hpm => ?_⟩
    · rintro ⟨md', hmd', hpm'⟩
      cases hmd : c.controller.metadata.topics.get t with
      | none =>
        rw [(hd.before t (.inr hmd)).1, hmd] at hmd'
        cases hmd'
      | some md =>
        obtain ⟨md'', hstored, hpartitions, -⟩ := hd.after t List.not_mem_nil md hmd
        rw [hmd'] at hstored
        cases hstored
        rw [hpartitions] at hpm'
        obtain ⟨pm, hpm, hsettled⟩ := Option.map_eq_some_iff.mp hpm'
        exact ⟨pm, (hlisted t p pm).mpr ⟨md, hmd, hpm⟩, hsettled.symm⟩
    · rintro ⟨pm, hpm, rfl⟩
      obtain ⟨md, hmd, hget⟩ := (hlisted t p pm).mp hpm
      obtain ⟨md', hstored, hpartitions, -⟩ := hd.after t List.not_mem_nil md hmd
      exact ⟨md', hstored, by rw [hpartitions, hget]; rfl⟩
    · obtain ⟨md, hmd, hget⟩ := (hlisted t p pm).mp hpm
      obtain ⟨md', -, -, hdone⟩ := hd.after t List.not_mem_nil md hmd
      rw [hdone p pm hget, hlocal, hrole]

end Failover

end Flux.RoleFailover
