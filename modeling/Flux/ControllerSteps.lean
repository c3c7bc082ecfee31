import Flux.ClusterMetadata

/-!
What each command to the control plane can do. A command either fails and leaves
the store as it is, or it is applied, and then the index moves and one topic or
one broker changes.
-/
namespace Flux.ControllerSteps

open GoRuntime GoStrings FiniteMap ClusterMetadata

variable {id partitions replicationFactor : Int} {name : Str}

def moved (store : RaftMetadataStore) (metadata : MetadataSnapshot) : RaftMetadataStore :=
  ⟨store.term, (store.index + 1) % 2 ^ 64, metadata⟩

variable {now : Time} {store : RaftMetadataStore}

theorem apply_cases (now : Time) (store : RaftMetadataStore) (cmd : Command) :
    (∃ e, store.apply now cmd = (store, .error e)) ∨
    ∃ metadata r, store.apply now cmd = (moved store metadata, .ok r) ∧
      store.metadata.change now cmd = .ok metadata := by
  unfold RaftMetadataStore.apply
  split
  · exact .inl ⟨_, rfl⟩
  · split
    · exact .inl ⟨_, rfl⟩
    · exact .inr ⟨_, _, rfl, ‹_›⟩

/-- The broker of a heartbeat or of a fence is a known one. -/
theorem heartbeatBroker_cases (now : Time) (store : RaftMetadataStore) (id : Int) :
    (∃ e, heartbeatBroker now store id = (store, .error e)) ∨
    ∃ b r, store.metadata.brokers.get id = some b ∧
      heartbeatBroker now store id = (moved store { store.metadata with
        brokers := store.metadata.brokers.set b.id
          { b with lastHeartbeat := now, fenced := false } }, .ok r) := by
  rcases apply_cases now store (.brokerHeartbeat id) with hfail | ⟨metadata, r, happly, hchange⟩
  · exact .inl hfail
  · simp only [MetadataSnapshot.change] at hchange
    split at hchange
    · cases hchange
    · cases hchange
      exact .inr ⟨_, r, ‹_›, happly⟩

theorem setBrokerFence_cases (now : Time) (store : RaftMetadataStore) (id : Int)
    (fenced : Bool) :
    (∃ e, setBrokerFence now store id fenced = (store, .error e)) ∨
    ∃ b r, store.metadata.brokers.get id = some b ∧
      setBrokerFence now store id fenced = (moved store { store.metadata with
        brokers := store.metadata.brokers.set b.id { b with fenced := fenced } }, .ok r) := by
  unfold setBrokerFence
  split
  · exact .inl ⟨_, rfl⟩
  · rcases apply_cases now store (.setBrokerFence id fenced) with
      hfail | ⟨metadata, r, happly, hchange⟩
    · exact .inl hfail
    · simp only [MetadataSnapshot.change] at hchange
      split at hchange
      · cases hchange
      · cases hchange
        exact .inr ⟨_, r, ‹_›, happly⟩

/-- The fence of a known broker can be set. -/
theorem setBrokerFence_known (now : Time) {b : BrokerMetadata}
    (hget : store.metadata.brokers.get id = some b) (hid : 0 ≤ id) (fenced : Bool) :
    ∃ r, setBrokerFence now store id fenced = (moved store { store.metadata with
      brokers := store.metadata.brokers.set b.id { b with fenced := fenced } }, .ok r) := by
  have hlow : ¬ id < 0 := by omega
  simp only [setBrokerFence, RaftMetadataStore.apply, validateCommand, if_neg hlow,
    MetadataSnapshot.change, hget]
  exact ⟨_, rfl⟩

def stamped (now : Time) (broker : BrokerMetadata) : Time :=
  if broker.lastHeartbeat = zeroTime then now else broker.lastHeartbeat

/-- A registration replaces what was known of the broker. -/
theorem registerCommand_cases (now : Time) (store : RaftMetadataStore) (broker : BrokerMetadata) :
    (∃ e, store.apply now (.registerBroker broker) = (store, .error e)) ∨
    ∃ r, 0 ≤ broker.id ∧ store.apply now (.registerBroker broker) =
      (moved store { store.metadata with
        brokers := store.metadata.brokers.set broker.id
          { broker with lastHeartbeat := stamped now broker } }, .ok r) := by
  by_cases hid : broker.id < 0
  · refine .inl ⟨lit "invalid register broker command", ?_⟩
    simp only [RaftMetadataStore.apply, validateCommand, if_pos hid]
  · simp only [RaftMetadataStore.apply, validateCommand, if_neg hid, MetadataSnapshot.change,
      stamped]
    refine .inr ⟨⟨store.term, (store.index + 1) % 2 ^ 64⟩, by omega, ?_⟩
    split
    · rfl
    · rfl

theorem registerBroker_cases (now : Time) (store : RaftMetadataStore) (id : Int) (host : Str)
    (port epoch : Int) :
    (∃ e, registerBroker now store id host port epoch = (store, .error e)) ∨
    ∃ r, 0 ≤ id ∧ registerBroker now store id host port epoch = (moved store { store.metadata with
      brokers := store.metadata.brokers.set id
        ⟨id, host, port, if epoch ≤ 0 then now else epoch, now, false⟩ }, .ok r) := by
  unfold registerBroker
  split
  · exact .inl ⟨_, rfl⟩
  · split
    · exact .inl ⟨_, rfl⟩
    · split
      · exact .inl ⟨_, rfl⟩
      · rcases registerCommand_cases now store
          ⟨id, host, port, if epoch ≤ 0 then now else epoch, now, false⟩ with
          hfail | ⟨r, hid, hdone⟩
        · exact .inl hfail
        · simp only [stamped, ite_self] at hdone
          exact .inr ⟨r, hid, hdone⟩

def Unsettable (store : RaftMetadataStore) (topic : Str) (partition leaderID : Int) : Prop :=
  topic = [] ∨ partition < 0 ∨ leaderID < -1 ∨
    ((store.metadata.topics.get topic).bind (fun md => md.partitions.get partition)) = none

/-- How a call that sets a leader ends. -/
theorem setPartitionLeader_cases (now : Time) (store : RaftMetadataStore) (topic : Str)
    (partition leaderID : Int) (isr : List Int) :
    (Unsettable store topic partition leaderID ∧
      ∃ e, setPartitionLeader now store topic partition leaderID isr = (store, .error e)) ∨
    ∃ md p r, topic ≠ [] ∧ 0 ≤ partition ∧ -1 ≤ leaderID ∧
      store.metadata.topics.get topic = some md ∧ md.partitions.get partition = some p ∧
      setPartitionLeader now store topic partition leaderID isr = (moved store { store.metadata with
        topics := store.metadata.topics.set topic
          { md with partitions := md.partitions.set partition (p.led leaderID isr) } }, .ok r) := by
  unfold setPartitionLeader
  split
  · exact .inl ⟨.inl ‹_›, _, rfl⟩
  · rename_i htopic
    split
    · exact .inl ⟨.inr (.inl ‹_›), _, rfl⟩
    · split
      · exact .inl ⟨.inr (.inr (.inl ‹_›)), _, rfl⟩
      · simp only [RaftMetadataStore.apply, validateCommand,
          show ¬ (topic = [] ∨ partition < 0) by tauto, ↓reduceIte, MetadataSnapshot.change]
        cases hmd : store.metadata.topics.get topic with
        | none => exact .inl ⟨.inr (.inr (.inr (by rw [hmd]; rfl))), _, rfl⟩
        | some md =>
          dsimp only
          cases hp : md.partitions.get partition with
          | none => exact .inl ⟨.inr (.inr (.inr (by rw [hmd]; exact hp))), _, rfl⟩
          | some p => exact .inr ⟨md, p, _, htopic, by omega, by omega, rfl, hp, rfl⟩

def Refused (name : Str) (partitions replicationFactor : Int) : Prop :=
  name = [] ∨ partitions ≤ 0 ∨ replicationFactor ≤ 0

def Accepted (name : Str) (partitions replicationFactor : Int) : Prop :=
  name ≠ [] ∧ 0 < partitions ∧ 0 < replicationFactor ∧ intSize * replicationFactor ≤ maxAlloc

instance (name : Str) (partitions replicationFactor : Int) :
    Decidable (Accepted name partitions replicationFactor) := by
  unfold Accepted
  infer_instance

theorem makeCap_eq_ok {size n : Int} (h : makeCap size n = .ok ()) : size * n ≤ maxAlloc := by
  unfold makeCap at h
  split at h
  · cases h
  · omega

/-- How the creation of a topic ends. -/
theorem createTopic_cases {r : RaftMetadataStore × Except Str ApplyResult}
    (h : createTopic now store name partitions replicationFactor = .ok r) :
    (Refused name partitions replicationFactor ∧ ∃ e, r = (store, .error e)) ∨
    (Accepted name partitions replicationFactor ∧ ∃ result, r = (moved store { store.metadata with
      topics := store.metadata.topics.set name (newTopic name partitions replicationFactor) },
        .ok result)) := by
  unfold createTopic at h
  split at h
  · cases h
    exact .inl ⟨.inl ‹_›, _, rfl⟩
  · rename_i hname
    split at h
    · cases h
      exact .inl ⟨.inr (.inl ‹_›), _, rfl⟩
    · split at h
      · cases h
        exact .inl ⟨.inr (.inr ‹_›), _, rfl⟩
      · cases hcap : makeCap intSize replicationFactor with
        | error e =>
          rw [hcap] at h
          cases h
        | ok u =>
          rw [hcap] at h
          cases h
          refine .inr ⟨⟨hname, by omega, by omega, makeCap_eq_ok hcap⟩, ?_⟩
          have hvalid : validateCommand
              (.upsertTopic (newTopic name partitions replicationFactor)) = .ok () := if_neg hname
          rw [RaftMetadataStore.apply, hvalid]
          exact ⟨_, rfl⟩

theorem createTopic_returns (now : Time) (store : RaftMetadataStore)
    (h : Accepted name partitions replicationFactor) :
    ∃ r, createTopic now store name partitions replicationFactor = .ok r := by
  obtain ⟨hname, hpartitions, hfactor, hcap⟩ := h
  rw [createTopic, if_neg hname, if_neg (by omega), if_neg (by omega), makeCap,
    if_neg (by omega)]
  exact ⟨_, rfl⟩

theorem heartbeatBroker_topics (now : Time) (store : RaftMetadataStore) (id : Int) :
    (heartbeatBroker now store id).1.metadata.topics = store.metadata.topics := by
  rcases heartbeatBroker_cases now store id with ⟨e, hfail⟩ | ⟨broker, r, -, hdone⟩
  · rw [hfail]
  · rw [hdone]
    rfl

theorem setBrokerFence_topics (now : Time) (store : RaftMetadataStore) (id : Int)
    (fenced : Bool) :
    (setBrokerFence now store id fenced).1.metadata.topics = store.metadata.topics := by
  rcases setBrokerFence_cases now store id fenced with ⟨e, hfail⟩ | ⟨broker, r, -, hdone⟩
  · rw [hfail]
  · rw [hdone]
    rfl

theorem registerBroker_topics (now : Time) (store : RaftMetadataStore) (id : Int) (host : Str)
    (port epoch : Int) :
    (registerBroker now store id host port epoch).1.metadata.topics = store.metadata.topics := by
  rcases registerBroker_cases now store id host port epoch with ⟨e, hfail⟩ | ⟨r, -, hdone⟩
  · rw [hfail]
  · rw [hdone]
    rfl

section Enrolled

/-- Every known broker is stored under its own id, which is not negative. -/
def Enrolled (metadata : MetadataSnapshot) : Prop :=
  ∀ id broker, metadata.brokers.get id = some broker → broker.id = id ∧ 0 ≤ id

theorem Enrolled.set {metadata : MetadataSnapshot} (h : Enrolled metadata)
    {broker : BrokerMetadata} (hbroker : broker.id = id) (hid : 0 ≤ id) :
    Enrolled { metadata with brokers := metadata.brokers.set id broker } := by
  intro id' broker' hget
  dsimp only at hget
  rw [FMap.get_set] at hget
  split at hget
  · rename_i heq
    cases hget
    exact heq ▸ ⟨hbroker, hid⟩
  · exact h id' broker' hget

theorem enrolled_new : Enrolled newRaftMetadataStore.metadata := by
  intro id broker hget
  simp [newRaftMetadataStore] at hget

theorem Enrolled.heartbeatBroker (h : Enrolled store.metadata) (now : Time) (id : Int) :
    Enrolled (heartbeatBroker now store id).1.metadata := by
  rcases heartbeatBroker_cases now store id with ⟨e, hfail⟩ | ⟨broker, r, hbroker, hdone⟩
  · rw [hfail]
    exact h
  · rw [hdone]
    obtain ⟨hid, hlow⟩ := h id broker hbroker
    exact h.set rfl (hid ▸ hlow)

theorem Enrolled.setBrokerFence (h : Enrolled store.metadata) (now : Time) (id : Int)
    (fenced : Bool) : Enrolled (setBrokerFence now store id fenced).1.metadata := by
  rcases setBrokerFence_cases now store id fenced with ⟨e, hfail⟩ | ⟨broker, r, hbroker, hdone⟩
  · rw [hfail]
    exact h
  · rw [hdone]
    obtain ⟨hid, hlow⟩ := h id broker hbroker
    exact h.set rfl (hid ▸ hlow)

theorem Enrolled.registerBroker (h : Enrolled store.metadata) (now : Time) (id : Int) (host : Str)
    (port epoch : Int) : Enrolled (registerBroker now store id host port epoch).1.metadata := by
  rcases registerBroker_cases now store id host port epoch with ⟨e, hfail⟩ | ⟨r, hid, hdone⟩
  · rw [hfail]
    exact h
  · rw [hdone]
    exact h.set rfl hid

end Enrolled

end Flux.ControllerSteps
