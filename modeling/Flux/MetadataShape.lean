import Flux.BrokerRuns
import Flux.ControllerSteps

/-!
The shape of the metadata. Whatever the requests and however they interleave, a
broker is stored under its own id, which is not negative, no partition has a
negative number and no topic has an empty name.
-/
namespace Flux.MetadataShape

open GoRuntime GoStrings FiniteMap BrokerConfig PartitionStorage Groups OffsetCommits
open ClusterMetadata Interleavings BrokerNode BrokerRuns BrokerSafety ControllerSteps ProgramCalls

structure WellFormed (metadata : MetadataSnapshot) : Prop where
  enrolled : Enrolled metadata
  natural : Natural metadata
  named : metadata.topics.get [] = none

theorem named_set {metadata : MetadataSnapshot} (h : metadata.topics.get [] = none) {name : Str}
    (hname : name ≠ []) (md : TopicMetadata) : (metadata.topics.set name md).get [] = none := by
  rw [FMap.get_set_ne _ _ (Ne.symm hname)]
  exact h

/-- Every command keeps the shape. -/
theorem WellFormed.commanded {store store' : RaftMetadataStore} (h : WellFormed store.metadata)
    (hstep : Commanded store store') : WellFormed store'.metadata := by
  have hnatural := natural_commanded h.natural hstep
  cases hstep with
  | same => exact h
  | create hr =>
    rcases createTopic_cases hr with ⟨-, e, rfl⟩ | ⟨haccepted, result, rfl⟩
    · exact h
    · exact ⟨h.enrolled, hnatural, named_set h.named haccepted.1 _⟩
  | register now id host port epoch =>
    refine ⟨h.enrolled.registerBroker now id host port epoch, hnatural, ?_⟩
    rw [registerBroker_topics]
    exact h.named
  | heartbeat now id =>
    refine ⟨h.enrolled.heartbeatBroker now id, hnatural, ?_⟩
    rw [heartbeatBroker_topics]
    exact h.named
  | leader now topic partition leaderID isr =>
    rcases setPartitionLeader_cases now store topic partition leaderID isr with
      ⟨-, e, hfail⟩ | ⟨md, p, r, htopic, -, -, -, -, hdone⟩
    · rw [hfail]
      exact h
    · rw [hdone] at hnatural ⊢
      exact ⟨h.enrolled, hnatural, named_set h.named htopic _⟩
  | fence now id fenced =>
    refine ⟨h.enrolled.setBrokerFence now id fenced, hnatural, ?_⟩
    rw [setBrokerFence_topics]
    exact h.named

theorem WellFormed.touched {b b' : Broker} (h : WellFormed b.controller.metadata)
    (hstep : Touched b b') : WellFormed b'.controller.metadata := by
  cases hstep with
  | controller hcommand => exact h.commanded hcommand
  | _ => exact h

/-- The broker comes about in an interleaving of requests and of the ticks of its
runtime. -/
def Reached (b : Broker) : Prop :=
  ∃ (env : Surroundings) (cfg : Config) (fallbackHost : Str) (fallbackPort : Int) (disk : Disk)
    (file : GroupsFile) (offsets : OffsetManager) (moments : List Moment)
    (pool : Pool Broker Panic Str),
    runs (newBroker env cfg fallbackHost fallbackPort disk file offsets) moments = .ok pool ∧
      pool.state = b

theorem wellFormed_newBroker (env : Surroundings) (cfg : Config) (fallbackHost : Str)
    (fallbackPort : Int) (disk : Disk) (file : GroupsFile) (offsets : OffsetManager) :
    WellFormed
      (newBroker env cfg fallbackHost fallbackPort disk file offsets).controller.metadata := by
  have hnew : WellFormed newRaftMetadataStore.metadata :=
    ⟨enrolled_new, fun topic md hget => by simp [newRaftMetadataStore] at hget, rfl⟩
  exact hnew.commanded (.register ..)

theorem Reached.wellFormed {b : Broker} (h : Reached b) : WellFormed b.controller.metadata := by
  obtain ⟨env, cfg, fallbackHost, fallbackPort, disk, file, offsets, moments, pool, hruns, rfl⟩ := h
  have hkeep : ∀ b b' : Broker, Touched b b' → WellFormed b.controller.metadata →
      WellFormed b'.controller.metadata := fun _ _ hstep h => h.touched hstep
  exact Program.stable (I := fun b => WellFormed b.controller.metadata) hkeep (runs_touched hruns)
    (wellFormed_newBroker env cfg fallbackHost fallbackPort disk file offsets)

end Flux.MetadataShape
