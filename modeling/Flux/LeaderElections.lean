import Flux.BrokerContracts
import Flux.MetadataShape

/-!
What the two loops over the metadata do when nothing interrupts them. An election
visits the partitions of one topic and replaces the leaders that cannot lead; a
check of the brokers' health sets the fences that have changed. On metadata of
the right shape no step of either fails.
-/
namespace Flux.LeaderElections

open GoRuntime GoStrings FiniteMap ClusterMetadata Interleavings BrokerNode BrokerContracts
open ControllerSteps MetadataShape

variable {metadata : MetadataSnapshot} {u : LeaderUpdate} {b : Broker}

def elected (brokers : FMap Int BrokerMetadata) (pm : PartitionMetadata) : Int :=
  if isBrokerEligible brokers pm.leaderID then pm.leaderID
  else electFromReplicas brokers pm.replicas

def settled (brokers : FMap Int BrokerMetadata) (pid : Int) (pm : PartitionMetadata) :
    PartitionMetadata :=
  match electPartition brokers pid pm with
  | none => pm
  | some u => pm.led u.leaderID u.isr

section Partition

variable {brokers : FMap Int BrokerMetadata} {pid : Int} {pm : PartitionMetadata}
  {u : LeaderUpdate}

theorem electPartition_cases (brokers : FMap Int BrokerMetadata) (pid : Int)
    (pm : PartitionMetadata) :
    (electPartition brokers pid pm = none ∧ elected brokers pm = pm.leaderID) ∨
    ∃ isr, electPartition brokers pid pm = some ⟨pid, elected brokers pm, isr⟩ := by
  by_cases hsame : elected brokers pm = pm.leaderID
  · exact .inl ⟨if_pos hsame, hsame⟩
  · exact .inr ⟨_, if_neg hsame⟩

theorem settled_leaderID (brokers : FMap Int BrokerMetadata) (pid : Int)
    (pm : PartitionMetadata) : (settled brokers pid pm).leaderID = elected brokers pm := by
  unfold settled
  rcases electPartition_cases brokers pid pm with ⟨hnone, hsame⟩ | ⟨isr, hsome⟩
  · rw [hnone]
    exact hsame.symm
  · rw [hsome]
    rfl

theorem electPartition_update (h : electPartition brokers pid pm = some u) :
    u.partition = pid ∧ u.leaderID = elected brokers pm := by
  rcases electPartition_cases brokers pid pm with ⟨hnone, -⟩ | ⟨isr, hsome⟩
  · rw [hnone] at h
    cases h
  · rw [hsome] at h
    cases h
    exact ⟨rfl, rfl⟩

theorem nonneg_of_eligible (h : Enrolled metadata) {id : Int}
    (hid : isBrokerEligible metadata.brokers id = true) : 0 ≤ id := by
  unfold isBrokerEligible at hid
  split at hid
  · cases hid
  · exact (h id _ ‹_›).2

/-- Only a registered broker is elected, or none. -/
theorem elected_valid (h : Enrolled metadata) (pm : PartitionMetadata) :
    -1 ≤ elected metadata.brokers pm := by
  unfold elected electFromReplicas
  split
  · have hlow := nonneg_of_eligible h ‹_›
    omega
  · cases hfind : pm.replicas.find? (isBrokerEligible metadata.brokers) with
    | none => exact Int.le_refl _
    | some id =>
      have hlow := nonneg_of_eligible h (List.find?_some hfind)
      rw [Option.getD_some]
      omega

end Partition

def updates (brokers : FMap Int BrokerMetadata) (md : TopicMetadata) : List LeaderUpdate :=
  (sortInts md.partitions.keys).filterMap (fun pid =>
    (md.partitions.get pid).bind (electPartition brokers pid))

structure Elected (b : Broker) (topic : Str) (md : TopicMetadata) (ahead : List Int)
    (b' : Broker) : Prop where
  elsewhere : b' = { b with controller := b'.controller }
  brokers_eq : b'.controller.metadata.brokers = b.controller.metadata.brokers
  topics : ∀ t, t ≠ topic →
    b'.controller.metadata.topics.get t = b.controller.metadata.topics.get t
  partitions : ∃ md', b'.controller.metadata.topics.get topic = some md' ∧
    ∀ p, md'.partitions.get p = (md.partitions.get p).map (fun pm =>
      if p ∈ ahead then pm else settled b.controller.metadata.brokers p pm)

structure Deciding (b : Broker) (topic : Str) (md : TopicMetadata) (updates : List LeaderUpdate)
    (b' : Broker) : Prop where
  decided : ∀ u ∈ updates, ∃ pm, md.partitions.get u.partition = some pm ∧
    electPartition b.controller.metadata.brokers u.partition pm = some u
  once : (updates.map LeaderUpdate.partition).Nodup
  done : Elected b topic md (updates.map LeaderUpdate.partition) b'

section Election

variable {b b' : Broker} {topic : Str} {md : TopicMetadata}

/-- The next update is made. -/
theorem Deciding.setLeader {rest : List LeaderUpdate} (h : Deciding b topic md (u :: rest) b')
    (hshape : WellFormed b.controller.metadata)
    (hmd : b.controller.metadata.topics.get topic = some md) (now : Time) :
    Program.Yields (fun b'' r =>
      match r with
      | .error _ => False
      | .ok _ => Deciding b topic md rest b'')
      (callSetPartitionLeader now topic u.partition u.leaderID u.isr) b' := by
  obtain ⟨pm, hpm, helect⟩ := h.decided u (List.mem_cons_self ..)
  obtain ⟨md', hmd', hpartitions⟩ := h.done.partitions
  have hnamed : topic ≠ [] := by
    rintro rfl
    rw [hshape.named] at hmd
    cases hmd
  have hpartition : 0 ≤ u.partition :=
    hshape.natural topic md hmd _ ((FMap.mem_keys_iff _ _).mpr ⟨pm, hpm⟩)
  have hleader : -1 ≤ u.leaderID := by
    rw [(electPartition_update helect).2]
    exact elected_valid hshape.enrolled pm
  have hget : md'.partitions.get u.partition = some pm := by
    rw [hpartitions, hpm, Option.map_some, List.map_cons, if_pos (List.mem_cons_self ..)]
  obtain ⟨hfresh, honce⟩ := List.nodup_cons.mp h.once
  rcases setPartitionLeader_cases now b'.controller topic u.partition u.leaderID u.isr with
    ⟨hwhy, -⟩ | ⟨md'', p', r, -, -, -, hmd'', hp', hset⟩
  · rcases hwhy with hempty | hneg | hlow | hmissing
    · exact absurd hempty hnamed
    · omega
    · omega
    · rw [hmd', Option.bind_some, hget] at hmissing
      cases hmissing
  · rw [hmd'] at hmd''
    cases hmd''
    rw [hget] at hp'
    cases hp'
    refine yields_onController hset ?_
    refine ⟨fun v hv => h.decided v (List.mem_cons_of_mem _ hv), honce, ?_⟩
    refine ⟨?_, h.done.brokers_eq, fun t ht => ?_, _, FMap.get_set_self _ _ _, fun p => ?_⟩
    · rw [h.done.elsewhere]
    · exact (FMap.get_set_ne _ _ ht).trans (h.done.topics t ht)
    · dsimp only
      rw [FMap.get_set]
      split
      · rename_i heq
        subst heq
        rw [hpm, Option.map_some, if_neg hfresh, settled, helect]
      · rename_i hne
        rw [hpartitions]
        have hsame : (p ∈ (u :: rest).map LeaderUpdate.partition) ↔
            p ∈ rest.map LeaderUpdate.partition := by
          rw [List.map_cons, List.mem_cons]
          exact or_iff_right hne
        simp only [hsame]

theorem Deciding.loop {items : List LeaderUpdate} (h : Deciding b topic md items b')
    (hshape : WellFormed b.controller.metadata)
    (hmd : b.controller.metadata.topics.get topic = some md) (now : Time) :
    Program.Yields (fun b'' r =>
      match r with
      | .error _ => False
      | .ok _ => Deciding b topic md [] b'')
      (attemptAll (fun u => callSetPartitionLeader now topic u.partition u.leaderID u.isr)
        items 0) b' := by
  refine upholds_attemptAll (Deciding b topic md) (fun _ => False) ?_ h 0
  intro u rest c hnext
  refine (hnext.setLeader hshape hmd now).weaken (fun c' r hr => ?_)
  cases r with
  | error e => exact hr
  | ok result => exact hr

theorem mem_updates (hu : u ∈ updates b.controller.metadata.brokers md) :
    ∃ pm, md.partitions.get u.partition = some pm ∧
      electPartition b.controller.metadata.brokers u.partition pm = some u := by
  obtain ⟨pid, -, hpid⟩ := List.mem_filterMap.mp hu
  obtain ⟨pm, hpm, helect⟩ := Option.bind_eq_some_iff.mp hpid
  have hsame : u.partition = pid := (electPartition_update helect).1
  exact ⟨pm, hsame ▸ hpm, by rw [hsame]; exact helect⟩

theorem updates_once (b : Broker) (md : TopicMetadata) :
    ((updates b.controller.metadata.brokers md).map LeaderUpdate.partition).Nodup := by
  have hkeys : (sortInts md.partitions.keys).Nodup :=
    (List.perm_insertionSort _ _).nodup_iff.mpr (FMap.keys_nodup _)
  refine List.Nodup.map_on ?_ (hkeys.filterMap ?_)
  · intro u hu v hv hsame
    obtain ⟨pm, hpm, helect⟩ := mem_updates hu
    obtain ⟨pm', hpm', helect'⟩ := mem_updates hv
    rw [← hsame, hpm] at hpm'
    cases hpm'
    rw [← hsame, helect] at helect'
    exact Option.some.inj helect'
  · intro pid pid' u hu hu'
    obtain ⟨pm, -, helect⟩ := Option.bind_eq_some_iff.mp hu
    obtain ⟨pm', -, helect'⟩ := Option.bind_eq_some_iff.mp hu'
    exact (electPartition_update helect).1.symm.trans (electPartition_update helect').1

theorem deciding_start (hmd : b.controller.metadata.topics.get topic = some md) :
    Deciding b topic md (updates b.controller.metadata.brokers md) b := by
  refine ⟨fun u hu => mem_updates hu, updates_once b md, rfl, rfl, fun _ _ => rfl, md, hmd,
    fun p => ?_⟩
  cases hpm : md.partitions.get p with
  | none => rfl
  | some pm =>
    rw [Option.map_some]
    split
    · rfl
    · rename_i hnot
      rw [settled]
      cases helect : electPartition b.controller.metadata.brokers p pm with
      | none => rfl
      | some u =>
        refine absurd (List.mem_map.mpr ⟨u, List.mem_filterMap.mpr ⟨p, ?_, ?_⟩,
          (electPartition_update helect).1⟩) hnot
        · exact (List.perm_insertionSort _ _).mem_iff.mpr ((FMap.mem_keys_iff _ _).mpr ⟨pm, hpm⟩)
        · rw [hpm]
          exact helect

/-- An election of a known topic goes through and settles every partition. -/
theorem electTopicLeaders_settles (env : Surroundings) (hshape : WellFormed b.controller.metadata)
    (hmd : b.controller.metadata.topics.get topic = some md) :
    Program.Yields (fun b' r =>
      match r with
      | .error _ => False
      | .ok _ => Elected b topic md [] b') (electTopicLeaders env topic) b := by
  have hnamed : topic ≠ [] := by
    rintro rfl
    rw [hshape.named] at hmd
    cases hmd
  refine Program.yields_read_bind ?_
  rw [electionUpdates, if_neg hnamed, hmd]
  dsimp only
  refine ((deciding_start hmd).loop hshape hmd (env.clock 0)).weaken (fun b' r hr => ?_)
  cases r with
  | error e => exact hr
  | ok n => exact hr.done

/-- An election of an unknown topic does nothing. -/
theorem electTopicLeaders_unknown (env : Surroundings)
    (hmd : b.controller.metadata.topics.get topic = none) :
    Program.Yields (fun b' r => b' = b ∧ ∃ e, r = .error e) (electTopicLeaders env topic) b := by
  refine Program.yields_read_bind ?_
  by_cases hempty : topic = []
  · rw [electionUpdates, if_pos hempty]
    exact ⟨rfl, _, rfl⟩
  · rw [electionUpdates, if_neg hempty, hmd]
    exact ⟨rfl, _, rfl⟩

end Election

section Health

structure Checking (updates : List (Int × Bool)) (b : Broker) : Prop where
  known : ∀ u ∈ updates, ∃ broker, b.controller.metadata.brokers.get u.1 = some broker
  enrolled : Enrolled b.controller.metadata

theorem Checking.setFence {u : Int × Bool} {rest : List (Int × Bool)} (h : Checking (u :: rest) b)
    (now : Time) :
    Program.Yields (fun b' r =>
      match r with
      | .error _ => False
      | .ok _ => Checking rest b') (callSetBrokerFence now u.1 u.2) b := by
  obtain ⟨broker, hbroker⟩ := h.known u (List.mem_cons_self ..)
  obtain ⟨hid, hlow⟩ := h.enrolled u.1 broker hbroker
  obtain ⟨r, hset⟩ := setBrokerFence_known now hbroker hlow u.2
  have henrolled := h.enrolled.setBrokerFence now u.1 u.2
  rw [hset] at henrolled
  refine yields_onController hset ⟨fun v hv => ?_, henrolled⟩
  obtain ⟨broker', hbroker'⟩ := h.known v (List.mem_cons_of_mem _ hv)
  dsimp only [moved]
  rw [FMap.get_set]
  split
  · exact ⟨_, rfl⟩
  · exact ⟨broker', hbroker'⟩

theorem Checking.loop {items : List (Int × Bool)} (h : Checking items b) (now : Time) :
    Program.Yields (fun b' r =>
      match r with
      | .error _ => False
      | .ok _ => Checking [] b')
      (attemptAll (fun u => callSetBrokerFence now u.1 u.2) items 0) b := by
  refine upholds_attemptAll Checking (fun _ => False) ?_ h 0
  intro u rest c hnext
  refine (hnext.setFence now).weaken (fun c' r hr => ?_)
  cases r with
  | error e => exact hr
  | ok result => exact hr

/-- A check of the brokers' health fails only for a timeout that is none. -/
theorem reconcileBrokerHealth_fails (env : Surroundings) (timeout : Int)
    (henrolled : Enrolled b.controller.metadata) :
    Program.Yields (fun b' r => ∀ e, r = .error e → b' = b)
      (reconcileBrokerHealth env timeout) b := by
  unfold reconcileBrokerHealth
  split
  · exact fun _ _ => rfl
  · refine Program.yields_read_bind ?_
    have hstart : Checking (healthUpdates (env.clock 0) timeout b.controller.metadata) b := by
      refine ⟨fun u hu => ?_, henrolled⟩
      obtain ⟨id, hid, hupdate⟩ := List.mem_filterMap.mp hu
      obtain ⟨fenced, -, rfl⟩ := Option.map_eq_some_iff.mp hupdate
      exact (FMap.mem_keys_iff _ _).mp ((List.perm_insertionSort _ _).mem_iff.mp hid)
    refine (hstart.loop (env.clock 1)).weaken (fun b' r hr => ?_)
    cases r with
    | error e => exact hr.elim
    | ok n => exact fun e he => by cases he

end Health

end Flux.LeaderElections
