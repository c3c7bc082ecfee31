import Flux.ClusterMetadata
import Flux.GroupRuns

/-!
The partitions of a topic against what its consumers are assigned. The control
plane keeps the number of partitions of every topic; the group manager deals out
one fixed number for all of them. Every partition of a topic is consumed as long
as topics are created with that number.
-/
namespace Flux.PartitionCoverage

open GoRuntime GoStrings FiniteMap Groups GroupGenerations GroupCalls ClusterMetadata Runs

structure Coordination where
  groups : GroupManager
  controller : RaftMetadataStore

/-- A request of a consumer, a call to the control plane, or a restart, after
which the metadata starts out empty. -/
inductive Event
  | request (request : Request)
  | createTopic (now : Time) (name : Str) (partitions replicationFactor : Int)
  | setPartitionLeader (now : Time) (topic : Str) (partition leaderID : Int) (isr : List Int)
  | registerBroker (now : Time) (id : Int) (host : Str) (port epoch : Int)
  | setBrokerFence (now : Time) (brokerID : Int) (fenced : Bool)
  | restart (numPartitions : ℕ)

def step (c : Coordination) : Event → Coordination
  | .request request => { c with groups := serve c.groups request }
  | .createTopic now name partitions replicationFactor =>
      match createTopic now c.controller name partitions replicationFactor with
      | .error _ => c
      | .ok created => { c with controller := created.1 }
  | .setPartitionLeader now topic partition leaderID isr =>
      { c with
        controller := (setPartitionLeader now c.controller topic partition leaderID isr).1 }
  | .registerBroker now id host port epoch =>
      { c with controller := (registerBroker now c.controller id host port epoch).1 }
  | .setBrokerFence now brokerID fenced =>
      { c with controller := (setBrokerFence now c.controller brokerID fenced).1 }
  | .restart numPartitions =>
      ⟨newGroupManager numPartitions c.groups.file, newRaftMetadataStore⟩

def fresh (numPartitions : ℕ) : Coordination :=
  ⟨newGroupManager numPartitions (.holds FMap.empty), newRaftMetadataStore⟩

/-- Topics are created with `n` partitions, restarts keep the number, and consumer
ids are valid text. -/
def Event.Uniform (n : ℕ) : Event → Prop
  | .request r => ValidConsumer r
  | .createTopic _ _ partitions _ => partitions = n
  | .restart numPartitions => numPartitions = n
  | _ => True

/-- Together the members of a group are assigned the partitions of its topic. -/
def Consumed (c : Coordination) : Prop :=
  ∀ name g md, c.groups.groups.get name = some g → g.memberOrder ≠ [] →
    c.controller.metadata.topics.get g.topic = some md →
      ∀ p, (∃ id ∈ g.memberOrder, p ∈ assigned g.assignments id) ↔ p ∈ md.partitions.keys

def Numbered (n : ℕ) (md : TopicMetadata) : Prop :=
  ∀ p, p ∈ md.partitions.keys ↔ 0 ≤ p ∧ p < n

theorem numbered_leaderFree (n : ℕ) : LeaderFree (Numbered n) := by
  refine ⟨fun md partition p p' hp hmd q => ?_⟩
  have hkey : partition ∈ md.partitions.keys := (FMap.mem_keys_iff _ _).mpr ⟨p, hp⟩
  rw [FMap.mem_keys_set, hmd q]
  constructor
  · rintro (rfl | hrange)
    · exact (hmd q).mp hkey
    · exact hrange
  · exact fun hrange => .inr hrange

theorem numbered_newTopic (name : Str) (n : ℕ) (replicationFactor : Int) :
    Numbered n (newTopic name n replicationFactor) := by
  intro p
  rw [FMap.mem_keys_iff, get_newTopic]
  split
  · exact iff_of_true ⟨_, rfl⟩ ‹_›
  · exact iff_of_false (by simp) ‹_›

/-- Both components go by the number `n`. -/
structure Agrees (n : ℕ) (c : Coordination) : Prop where
  managed : Managed (· = n) c.groups
  topics : Everywhere (Numbered n) c.controller.metadata

theorem agrees_fresh (n : ℕ) : Agrees n (fresh n) := by
  refine ⟨GroupRuns.holds_start (by rfl) _ _, fun topic md hmd => ?_⟩
  simp [fresh, newRaftMetadataStore] at hmd

/-- Events of one partition count keep the two in agreement. -/
theorem Agrees.step {n : ℕ} {c : Coordination} (h : Agrees n c) {event : Event}
    (hevent : event.Uniform n) : Agrees n (step c event) := by
  have hfree := numbered_leaderFree n
  cases event with
  | request request =>
    exact ⟨h.managed.serve hevent, h.topics⟩
  | createTopic now name partitions replicationFactor =>
    simp only [PartitionCoverage.step]
    split
    · exact h
    · rename_i created hcreated
      have hn : partitions = n := hevent
      subst hn
      exact ⟨h.managed, h.topics.createTopic hfree now name
        (numbered_newTopic name n replicationFactor) hcreated⟩
  | setPartitionLeader now topic partition leaderID isr =>
    exact ⟨h.managed, h.topics.setPartitionLeader hfree now topic partition leaderID isr⟩
  | registerBroker now id host port epoch =>
    exact ⟨h.managed, h.topics.registerBroker hfree now id host port epoch⟩
  | setBrokerFence now brokerID fenced =>
    exact ⟨h.managed, h.topics.setBrokerFence hfree now brokerID fenced⟩
  | restart numPartitions =>
    refine ⟨GroupRuns.holds_restart h.managed hevent, fun topic md hmd => ?_⟩
    simp [PartitionCoverage.step, newRaftMetadataStore] at hmd

theorem Agrees.consumed {n : ℕ} {c : Coordination} (h : Agrees n c) : Consumed c := by
  intro name g md hg hne hmd p
  obtain ⟨m, rfl, hfair⟩ := (h.managed.groups name g hg).fair
  rw [h.topics g.topic md hmd p]
  constructor
  · rintro ⟨id, -, hp⟩
    exact hfair.in_range id p hp
  · rintro ⟨hlow, hhigh⟩
    exact hfair.covered hne p hlow hhigh

/-- In every run whose topics are created with the number of partitions that the
groups deal out, every partition is consumed. -/
theorem uniform_consumed (n : ℕ) (events : List Event) (hevents : ∀ e ∈ events, e.Uniform n) :
    Consumed (run step (fresh n) events) := by
  have hvalid : Valid step (fun _ e => Event.Uniform n e) (fresh n) events :=
    valid_of_forall (fun e he _ => hevents e he)
  have hstep : ∀ (c : Coordination) (e : Event), Agrees n c → e.Uniform n → Agrees n (step c e) :=
    fun c e hc he => hc.step he
  exact (run_invariant hstep (agrees_fresh n) hvalid).consumed

def matching : List Event :=
  [.createTopic 0 (lit "orders") 3 1,
    .request (.join prompt (lit "g") (lit "orders") (lit "c1") [])]

/-- A topic of three partitions, as many as the groups deal out. -/
theorem uniform_consumed_matching : Consumed (run step (fresh 3) matching) := by
  refine uniform_consumed 3 matching (fun e he => ?_)
  rcases List.mem_cons.mp he with rfl | hrest
  · rfl
  · cases List.mem_singleton.mp hrest
    exact (by decide : JsonState.ValidText (lit "c1"))

def wide : List Event :=
  [.createTopic 0 (lit "orders") 4 1,
    .request (.join prompt (lit "g") (lit "orders") (lit "c1") [])]

/-- Nobody is assigned the last partition. -/
theorem wide_topic_unconsumed : ¬ Consumed (run step (fresh 3) wide) := by
  have hunassigned : ∃ g md, (run step (fresh 3) wide).groups.groups.get (lit "g") = some g ∧
      g.memberOrder ≠ [] ∧
      (run step (fresh 3) wide).controller.metadata.topics.get g.topic = some md ∧
      3 ∈ md.partitions.keys ∧ ∀ id ∈ g.memberOrder, 3 ∉ assigned g.assignments id :=
    ⟨_, _, rfl, by decide, rfl, by decide, by decide⟩
  obtain ⟨g, md, hg, hne, hmd, hkey, hnobody⟩ := hunassigned
  intro h
  obtain ⟨id, hid, hassigned⟩ := (h (lit "g") g md hg hne hmd 3).mpr hkey
  exact hnobody id hid hassigned

end Flux.PartitionCoverage
