import Flux.ControllerSteps
import Flux.Runs

/-!
The metadata store under any sequence of calls to the controller. A call that
returns an error changes nothing, and one that succeeds changes what it names and
takes the next index. The index has 64 bits, so it comes back to zero after
`2 ^ 64` calls. Every broker is stored under its id, and the partitions of a topic
are numbered from zero without a gap.
-/
namespace Flux.MetadataRuns

open GoRuntime GoStrings FiniteMap ClusterMetadata ControllerSteps Runs

inductive Call
  | createTopic (now : Time) (name : Str) (partitions replicationFactor : Int)
  | registerBroker (now : Time) (id : Int) (host : Str) (port epoch : Int)
  | heartbeatBroker (now : Time) (id : Int)
  | setPartitionLeader (now : Time) (topic : Str) (partition leaderID : Int) (isr : List Int)
  | setBrokerFence (now : Time) (brokerID : Int) (fenced : Bool)

def perform (store : RaftMetadataStore) :
    Call → Except Panic (RaftMetadataStore × Except Str ApplyResult)
  | .createTopic now name partitions replicationFactor =>
      createTopic now store name partitions replicationFactor
  | .registerBroker now id host port epoch => .ok (registerBroker now store id host port epoch)
  | .heartbeatBroker now id => .ok (heartbeatBroker now store id)
  | .setPartitionLeader now topic partition leaderID isr =>
      .ok (setPartitionLeader now store topic partition leaderID isr)
  | .setBrokerFence now brokerID fenced => .ok (setBrokerFence now store brokerID fenced)

def step (store : RaftMetadataStore) (c : Call) : RaftMetadataStore :=
  match perform store c with
  | .ok r => r.1
  | .error _ => store

def applied (store : RaftMetadataStore) (c : Call) : Option ApplyResult :=
  match perform store c with
  | .ok (_, .ok r) => some r
  | _ => none

def reached (calls : List Call) : RaftMetadataStore := run step newRaftMetadataStore calls

def results (calls : List Call) : List ApplyResult :=
  outputs step applied newRaftMetadataStore calls

structure Dense (md : TopicMetadata) : Prop where
  numbered : ∃ n : Int, 1 ≤ n ∧ ∀ p, p ∈ md.partitions.keys ↔ 0 ≤ p ∧ p < n
  known : ∀ p pm, md.partitions.get p = some pm → pm.id = p

structure Keyed (metadata : MetadataSnapshot) : Prop where
  topics : ∀ name md, metadata.topics.get name = some md → md.name = name ∧ Dense md
  brokers : Enrolled metadata

structure OneBroker (id : Int) (metadata metadata' : MetadataSnapshot) : Prop where
  topics : metadata'.topics = metadata.topics
  others : ∀ i, i ≠ id → metadata'.brokers.get i = metadata.brokers.get i

structure OneTopic (name : Str) (metadata metadata' : MetadataSnapshot) : Prop where
  brokers : metadata'.brokers = metadata.brokers
  others : ∀ t, t ≠ name → metadata'.topics.get t = metadata.topics.get t

structure OnePartition (topic : Str) (partition : Int) (metadata metadata' : MetadataSnapshot) :
    Prop where
  elsewhere : OneTopic topic metadata metadata'
  within : ∃ md md', metadata.topics.get topic = some md ∧ metadata'.topics.get topic = some md' ∧
    md'.name = md.name ∧ ∀ p, p ≠ partition → md'.partitions.get p = md.partitions.get p

/-- What a call names is all that it changes. -/
def Confined (metadata metadata' : MetadataSnapshot) : Call → Prop
  | .createTopic _ name _ _ => OneTopic name metadata metadata'
  | .registerBroker _ id _ _ _ => OneBroker id metadata metadata'
  | .heartbeatBroker _ id => OneBroker id metadata metadata'
  | .setPartitionLeader _ topic partition _ _ => OnePartition topic partition metadata metadata'
  | .setBrokerFence _ id _ => OneBroker id metadata metadata'

section Shape

variable {metadata : MetadataSnapshot}

theorem dense_newTopic (name : Str) {partitions : Int} (h : 0 < partitions)
    (replicationFactor : Int) : Dense (newTopic name partitions replicationFactor) := by
  refine ⟨⟨partitions, h, fun p => ?_⟩, fun p pm hpm => ?_⟩
  · rw [FMap.mem_keys_iff, get_newTopic]
    constructor
    · rintro ⟨pm, hpm⟩
      split at hpm
      · assumption
      · cases hpm
    · intro hrange
      rw [if_pos hrange]
      exact ⟨_, rfl⟩
  · rw [get_newTopic] at hpm
    split at hpm
    · cases hpm
      rfl
    · cases hpm

theorem Dense.led {md : TopicMetadata} (h : Dense md) {partition : Int} {p p' : PartitionMetadata}
    (hp : md.partitions.get partition = some p) (hid : p'.id = p.id) :
    Dense { md with partitions := md.partitions.set partition p' } := by
  obtain ⟨n, hn, hkeys⟩ := h.numbered
  refine ⟨⟨n, hn, fun q => ?_⟩, fun q pm hpm => ?_⟩
  · rw [← hkeys, FMap.mem_keys_set]
    have hmem : partition ∈ md.partitions.keys := (FMap.mem_keys_iff _ _).mpr ⟨p, hp⟩
    constructor
    · rintro (rfl | hold)
      · exact hmem
      · exact hold
    · exact .inr
  · dsimp only at hpm
    rw [FMap.get_set] at hpm
    split at hpm
    · rename_i heq
      cases hpm
      rw [hid, heq]
      exact h.known partition p hp
    · exact h.known q pm hpm

theorem Keyed.setTopic (h : Keyed metadata) {name : Str} {md : TopicMetadata}
    (hname : md.name = name) (hmd : Dense md) :
    Keyed { metadata with topics := metadata.topics.set name md } := by
  refine ⟨fun t md' hget => ?_, h.brokers⟩
  dsimp only at hget
  rw [FMap.get_set] at hget
  split at hget
  · rename_i heq
    cases hget
    exact ⟨hname.trans heq.symm, hmd⟩
  · exact h.topics t md' hget

theorem Keyed.setBroker (h : Keyed metadata) {id : Int} {broker : BrokerMetadata}
    (hbroker : broker.id = id) (hid : 0 ≤ id) :
    Keyed { metadata with brokers := metadata.brokers.set id broker } :=
  ⟨h.topics, h.brokers.set hbroker hid⟩

theorem keyed_new : Keyed newRaftMetadataStore.metadata :=
  ⟨fun name md hget => by simp [newRaftMetadataStore] at hget, enrolled_new⟩

theorem oneTopic_set (metadata : MetadataSnapshot) (name : Str) (md : TopicMetadata) :
    OneTopic name metadata { metadata with topics := metadata.topics.set name md } :=
  ⟨rfl, fun _ ht => FMap.get_set_ne _ _ ht⟩

theorem oneBroker_set (metadata : MetadataSnapshot) (id : Int) (broker : BrokerMetadata) :
    OneBroker id metadata { metadata with brokers := metadata.brokers.set id broker } :=
  ⟨rfl, fun _ hi => FMap.get_set_ne _ _ hi⟩

end Shape

section Calls

variable {store store' : RaftMetadataStore} {r : ApplyResult}

theorem apply_result {now : Time} {cmd : Command} (h : store.apply now cmd = (store', .ok r)) :
    r = ⟨store'.term, store'.index⟩ := by
  unfold RaftMetadataStore.apply at h
  split at h
  · cases h
  · split at h
    · cases h
    · cases h
      rfl

/-- A call that succeeds tells the index it has reached. -/
theorem perform_result {c : Call} (h : perform store c = .ok (store', .ok r)) :
    r = ⟨store'.term, store'.index⟩ := by
  cases c with
  | createTopic now name partitions replicationFactor =>
    simp only [perform, createTopic] at h
    split at h
    · cases h
    · split at h
      · cases h
      · split at h
        · cases h
        · cases hcap : makeCap intSize replicationFactor with
          | error e =>
            rw [hcap] at h
            cases h
          | ok u =>
            rw [hcap] at h
            exact apply_result (Except.ok.inj h)
  | registerBroker now id host port epoch =>
    simp only [perform, registerBroker, Except.ok.injEq] at h
    split at h
    · cases h
    · split at h
      · cases h
      · split at h
        · cases h
        · exact apply_result h
  | heartbeatBroker now id => exact apply_result (Except.ok.inj h)
  | setPartitionLeader now topic partition leaderID isr =>
    simp only [perform, setPartitionLeader, Except.ok.injEq] at h
    split at h
    · cases h
    · split at h
      · cases h
      · split at h
        · cases h
        · exact apply_result h
  | setBrokerFence now brokerID fenced =>
    simp only [perform, setBrokerFence, Except.ok.injEq] at h
    split at h
    · cases h
    · exact apply_result h

/-- What a call that succeeds leaves. -/
structure Advanced (c : Call) (store store' : RaftMetadataStore) : Prop where
  position : ∃ metadata, store' = moved store metadata
  keyed : Keyed store'.metadata
  confined : Confined store.metadata store'.metadata c

/-- A call panics, fails and leaves the store alone, or changes what it names. -/
theorem perform_cases (h : Keyed store.metadata) (c : Call) :
    (∃ panic, perform store c = .error panic) ∨
    (∃ e, perform store c = .ok (store, .error e)) ∨
    ∃ store', Advanced c store store' ∧
      perform store c = .ok (store', .ok ⟨store'.term, store'.index⟩) := by
  have hdone : ∀ {metadata r}, perform store c = .ok (moved store metadata, .ok r) →
      Keyed metadata → Confined store.metadata metadata c → ∃ store', Advanced c store store' ∧
        perform store c = .ok (store', .ok ⟨store'.term, store'.index⟩) := by
    intro metadata r hperform hkeyed hconfined
    refine ⟨moved store metadata, ⟨⟨metadata, rfl⟩, hkeyed, hconfined⟩, ?_⟩
    rw [hperform, perform_result hperform]
  cases c with
  | createTopic now name partitions replicationFactor =>
    cases hcreate : createTopic now store name partitions replicationFactor with
    | error panic => exact .inl ⟨panic, hcreate⟩
    | ok result =>
      refine .inr ?_
      rcases createTopic_cases hcreate with ⟨-, e, rfl⟩ | ⟨haccepted, r, rfl⟩
      · exact .inl ⟨e, hcreate⟩
      · exact .inr (hdone hcreate (h.setTopic rfl (dense_newTopic name haccepted.2.1 _))
          (oneTopic_set ..))
  | registerBroker now id host port epoch =>
    refine .inr ?_
    rcases registerBroker_cases now store id host port epoch with ⟨e, hfail⟩ | ⟨r, hid, hok⟩
    · exact .inl ⟨e, congrArg Except.ok hfail⟩
    · exact .inr (hdone (congrArg Except.ok hok) (h.setBroker rfl hid) (oneBroker_set ..))
  | heartbeatBroker now id =>
    refine .inr ?_
    rcases heartbeatBroker_cases now store id with ⟨e, hfail⟩ | ⟨b, r, hb, hok⟩
    · exact .inl ⟨e, congrArg Except.ok hfail⟩
    · obtain ⟨rfl, hid⟩ := h.brokers id b hb
      exact .inr (hdone (congrArg Except.ok hok) (h.setBroker rfl hid) (oneBroker_set ..))
  | setPartitionLeader now topic partition leaderID isr =>
    refine .inr ?_
    rcases setPartitionLeader_cases now store topic partition leaderID isr with
      ⟨-, e, hfail⟩ | ⟨md, p, r, -, -, -, hmd, hp, hok⟩
    · exact .inl ⟨e, congrArg Except.ok hfail⟩
    · obtain ⟨hname, hdense⟩ := h.topics topic md hmd
      refine .inr (hdone (congrArg Except.ok hok) (h.setTopic hname (hdense.led hp rfl))
        ⟨oneTopic_set .., md, _, hmd, FMap.get_set_self _ _ _, rfl, fun q hq => ?_⟩)
      exact FMap.get_set_ne _ _ hq
  | setBrokerFence now id fenced =>
    refine .inr ?_
    rcases setBrokerFence_cases now store id fenced with ⟨e, hfail⟩ | ⟨b, r, hb, hok⟩
    · exact .inl ⟨e, congrArg Except.ok hfail⟩
    · obtain ⟨rfl, hid⟩ := h.brokers id b hb
      exact .inr (hdone (congrArg Except.ok hok) (h.setBroker rfl hid) (oneBroker_set ..))

end Calls

structure Counted (n : ℕ) (store : RaftMetadataStore) : Prop where
  keyed : Keyed store.metadata
  term : store.term = 1
  index : store.index = n % 2 ^ 64

section Runs

variable {store : RaftMetadataStore} {n : ℕ}

theorem Counted.step (h : Counted n store) (c : Call) :
    Counted (n + (applied store c).toList.length) (step store c) := by
  rcases perform_cases h.keyed c with ⟨panic, hp⟩ | ⟨e, hp⟩ | ⟨store', hadvanced, hp⟩
  · simpa [MetadataRuns.step, applied, hp] using h
  · simpa [MetadataRuns.step, applied, hp] using h
  · obtain ⟨metadata, rfl⟩ := hadvanced.position
    simp only [MetadataRuns.step, applied, hp]
    refine ⟨hadvanced.keyed, h.term, ?_⟩
    rw [moved, h.index, Option.toList_some, List.length_singleton]
    exact Nat.mod_add_mod n (2 ^ 64) 1

theorem Counted.run (h : Counted n store) (calls : List Call) :
    Counted (n + (outputs MetadataRuns.step applied store calls).length)
      (Runs.run MetadataRuns.step store calls) := by
  induction calls generalizing n store with
  | nil => exact h
  | cons c rest ih =>
    have hrest := ih (h.step c)
    rw [outputs, List.length_append, ← Nat.add_assoc]
    exact hrest

theorem counted_reached (calls : List Call) : Counted (results calls).length (reached calls) := by
  have hnew : Counted 0 newRaftMetadataStore := ⟨keyed_new, rfl, rfl⟩
  have hrun := hnew.run calls
  rwa [Nat.zero_add] at hrun

end Runs

/-- After any calls: one more leaves everything as it is or fails no check, takes
the next index modulo `2 ^ 64` and changes what it names. -/
theorem metadata_runs (calls : List Call) (c : Call) :
    Keyed (reached calls).metadata ∧
    (∀ store' e, perform (reached calls) c = .ok (store', .error e) → store' = reached calls) ∧
    ∀ store' r, perform (reached calls) c = .ok (store', .ok r) →
      r.term = 1 ∧ r.index = ((results calls).length + 1) % 2 ^ 64 ∧
      Confined (reached calls).metadata store'.metadata c := by
  have h := counted_reached calls
  refine ⟨h.keyed, fun store' e herror => ?_, fun store' r hok => ?_⟩
  · rcases perform_cases h.keyed c with ⟨panic, hp⟩ | ⟨e', hp⟩ | ⟨store'', -, hp⟩
    · rw [hp] at herror
      cases herror
    · rw [hp] at herror
      cases herror
      rfl
    · rw [hp] at herror
      cases herror
  · rcases perform_cases h.keyed c with ⟨panic, hp⟩ | ⟨e', hp⟩ | ⟨store'', hadvanced, hp⟩
    · rw [hp] at hok
      cases hok
    · rw [hp] at hok
      cases hok
    · rw [hp] at hok
      cases hok
      obtain ⟨metadata, rfl⟩ := hadvanced.position
      refine ⟨h.term, ?_, hadvanced.confined⟩
      dsimp only [moved]
      rw [h.index]
      exact Nat.mod_add_mod _ (2 ^ 64) 1

section Wrap

def enrol : Call := .registerBroker 0 0 (lit "h") 1 1

theorem perform_enrol (store : RaftMetadataStore) :
    ∃ metadata, perform store enrol =
      .ok (moved store metadata, .ok ⟨store.term, (store.index + 1) % 2 ^ 64⟩) :=
  ⟨_, rfl⟩

theorem results_enrol (n : ℕ) (store : RaftMetadataStore) :
    (outputs step applied store (List.replicate n enrol)).length = n := by
  induction n generalizing store with
  | zero => rfl
  | succ n ih =>
    obtain ⟨metadata, henrol⟩ := perform_enrol store
    have hone : applied store enrol = some ⟨store.term, (store.index + 1) % 2 ^ 64⟩ := by
      rw [applied, henrol]
    rw [List.replicate_succ, outputs, hone, List.length_append, ih, Option.toList_some,
      List.length_singleton, Nat.add_comm]

theorem enrolled_run (n : ℕ) : ∃ (calls : List Call) (c : Call) (store' : RaftMetadataStore)
    (r : ApplyResult), (results calls).length = n ∧
      perform (reached calls) c = .ok (store', .ok r) ∧ r.index = (n + 1) % 2 ^ 64 := by
  have hcount : (results (List.replicate n enrol)).length = n :=
    results_enrol n newRaftMetadataStore
  obtain ⟨metadata, henrol⟩ := perform_enrol (reached (List.replicate n enrol))
  refine ⟨List.replicate n enrol, enrol, _, _, hcount, henrol, ?_⟩
  dsimp only
  rw [(counted_reached _).index, hcount]
  exact Nat.mod_add_mod _ (2 ^ 64) 1

/-- The `2 ^ 64`-th call that succeeds returns index zero. -/
theorem index_wraps : ∃ (calls : List Call) (c : Call) (store' : RaftMetadataStore)
    (r : ApplyResult), (results calls).length + 1 = 2 ^ 64 ∧
      perform (reached calls) c = .ok (store', .ok r) ∧ r.index = 0 := by
  obtain ⟨calls, c, store', r, hcount, hperform, hindex⟩ := enrolled_run (2 ^ 64 - 1)
  refine ⟨calls, c, store', r, ?_, hperform, ?_⟩
  · rw [hcount]
    omega
  · rw [hindex]
    omega

end Wrap

end Flux.MetadataRuns
