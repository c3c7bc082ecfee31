import Flux.BrokerNode
import Flux.GroupAllocations
import Flux.GroupGenerations

/-!
A modest broker: its configuration asks for no slice that the run time refuses to
make, and its metadata numbers partitions from zero. On it the calls that can
panic do not, and no call to the groups changes what they are configured with.
-/
namespace Flux.BrokerSafety

open GoRuntime GoStrings FiniteMap Groups GroupAllocations ClusterMetadata BrokerNode
open GroupGenerations

/-- No partition has a negative number. -/
def Natural (metadata : MetadataSnapshot) : Prop :=
  ∀ topic md, metadata.topics.get topic = some md → ∀ p ∈ md.partitions.keys, 0 ≤ p

structure Modest (b : Broker) : Prop where
  groups : intSize * (b.coordinator.groupManager.numPartitions : Int) ≤ maxAlloc
  factor : intSize * b.defaultReplicationFactor ≤ maxAlloc
  natural : Natural b.controller.metadata

section Metadata

theorem newTopic_keys (name : Str) (partitions replicationFactor : Int) :
    ∀ p ∈ (newTopic name partitions replicationFactor).partitions.keys, 0 ≤ p := by
  intro p hp
  obtain ⟨pm, hpm⟩ := (FMap.mem_keys_iff _ _).mp hp
  rw [get_newTopic] at hpm
  split at hpm
  · rename_i hrange
    exact hrange.1
  · cases hpm

theorem natural_leaderFree : LeaderFree (fun md => ∀ p ∈ md.partitions.keys, 0 ≤ p) := by
  refine ⟨fun md partition p p' hp hmd q hq => ?_⟩
  rcases (FMap.mem_keys_set _ _ _ _).mp hq with rfl | hold
  · exact hmd q ((FMap.mem_keys_iff _ _).mpr ⟨p, hp⟩)
  · exact hmd q hold

/-- A topic is created unless its replicas cannot be listed. -/
theorem createTopic_ok (now : Time) (store : RaftMetadataStore) (name : Str) (partitions : Int)
    {replicationFactor : Int} (hfactor : intSize * replicationFactor ≤ maxAlloc) :
    ∃ r, createTopic now store name partitions replicationFactor = .ok r := by
  unfold createTopic
  split
  · exact ⟨_, rfl⟩
  · split
    · exact ⟨_, rfl⟩
    · split
      · exact ⟨_, rfl⟩
      · rw [makeCap_ok (by omega) hfactor]
        exact ⟨_, rfl⟩

theorem index_ok {α : Type} (l : List α) {i : Int} (hlow : 0 ≤ i) (hhigh : i < l.length) :
    ∃ a, index l i = .ok a := by
  have hlt : i.toNat < l.length := by omega
  refine ⟨l[i.toNat], ?_⟩
  unfold index
  rw [if_neg (by omega), List.getElem?_eq_getElem hlt]

theorem foldlM_ok {σ β : Type} {f : σ → β → Except Panic σ} {items : List β}
    (h : ∀ s, ∀ b ∈ items, ∃ s', f s b = .ok s') (s : σ) : ∃ s', items.foldlM f s = .ok s' := by
  induction items generalizing s with
  | nil => exact ⟨s, rfl⟩
  | cons b rest ih =>
    obtain ⟨mid, hmid⟩ := h s b (List.mem_cons_self ..)
    obtain ⟨s', hs'⟩ := ih (fun t c hc => h t c (List.mem_cons_of_mem _ hc)) mid
    refine ⟨s', ?_⟩
    rw [List.foldlM_cons, hmid]
    exact hs'

/-- Partition numbers from zero are taken modulo the number of brokers. -/
theorem assignInitialLeaders_ok {md : TopicMetadata} (hmd : ∀ p ∈ md.partitions.keys, 0 ≤ p)
    (brokers : List Int) : ∃ leaders, assignInitialLeaders md brokers = .ok leaders := by
  unfold assignInitialLeaders
  split
  · exact ⟨_, rfl⟩
  · rename_i hne
    have hlen : 0 < brokers.length := List.length_pos_of_ne_nil hne
    refine foldlM_ok (fun out p hp => ?_) _
    have hlow := Int.tmod_nonneg (brokers.length : Int) (hmd p hp)
    have hhigh := Int.tmod_lt_of_pos p (show (0 : Int) < brokers.length by omega)
    obtain ⟨leaderID, hleader⟩ := index_ok brokers hlow hhigh
    refine ⟨out.set p leaderID, ?_⟩
    simp only [goMod, show ¬ (brokers.length : Int) = 0 by omega, ↓reduceIte, Except.bind, hleader,
      Except.map]

theorem natural_topicOf {metadata : MetadataSnapshot} (h : Natural metadata) (topic : Str) :
    ∀ p ∈ (topicOf metadata topic).partitions.keys, 0 ≤ p := by
  unfold topicOf
  cases hget : metadata.topics.get topic with
  | none =>
    rw [Option.getD_none, FMap.keys_empty]
    exact fun p hp => absurd hp List.not_mem_nil
  | some md => exact h topic md hget

end Metadata

section Groups

variable (visit : Visit) (gm : GroupManager)

theorem numPartitions_cleanup (groupName : Str) (g : Group) :
    (cleanup visit gm groupName g).1.numPartitions = gm.numPartitions := by
  unfold cleanup
  dsimp only
  split
  · simp [setGroup]
  · rfl

theorem numPartitions_checkMember (groupName topic consumerID : Str) (generation : Int) :
    (checkMember visit gm groupName topic consumerID generation).1.numPartitions =
      gm.numPartitions := by
  unfold checkMember
  cases gm.groups.get groupName with
  | none => rfl
  | some g =>
    dsimp only
    split
    · rfl
    · split
      · exact numPartitions_cleanup visit gm groupName g
      · split
        · exact numPartitions_cleanup visit gm groupName g
        · exact numPartitions_cleanup visit gm groupName g

variable {visit gm}

/-- No request changes what the groups are configured with. -/
theorem numPartitions_served {gm' : GroupManager} {request : Request}
    (h : Served gm request gm') : gm'.numPartitions = gm.numPartitions := by
  cases h with
  | joined visit groupName topic consumerID assignor =>
    simp [joinGroup, setGroup, numPartitions_cleanup]
  | checked => exact numPartitions_checkMember ..
  | @removed _ topic consumerID generation _ _ hresult =>
    have hcheck := numPartitions_checkMember request.visit gm (groupName request) topic consumerID
      generation
    simpa [setGroup, hresult] using hcheck
  | @refreshed _ topic consumerID generation _ _ hresult =>
    have hcheck := numPartitions_checkMember request.visit gm (groupName request) topic consumerID
      generation
    simpa [setGroup, hresult] using hcheck

end Groups

end Flux.BrokerSafety
