import Flux.BrokerRuns
import Flux.TopicCreation

/-!
Two brokers that know the same brokers and meet a topic for the first time. Each
deals the leaders on its own, in the order in which its map of brokers happens to
be visited, so they agree only where there is nothing to choose from.
-/
namespace Flux.LeaderAgreement

open GoStrings FiniteMap ClusterMetadata BrokerNode BrokerRuns ControllerSteps TopicCreation

/-- Both know the same brokers, with the same fences. -/
def SameBrokers (b b' : Broker) : Prop :=
  ∀ id, (b.controller.metadata.brokers.get id).map BrokerMetadata.fenced =
    (b'.controller.metadata.brokers.get id).map BrokerMetadata.fenced

/-- Where both set up the topic, every partition has the same leader. -/
def Agree (env env' : Surroundings) (topic : Str) (b b' : Broker) : Prop :=
  ∀ c c' md md', (ensureTopicMetadata env topic).run b = .ok (c, .ok md) →
    (ensureTopicMetadata env' topic).run b' = .ok (c', .ok md') →
      ∀ p pm pm', md.partitions.get p = some pm → md'.partitions.get p = some pm' →
        pm.leaderID = pm'.leaderID

/-- The topic can be created, and there is a broker that can lead. -/
def Creates (b : Broker) (topic : Str) : Prop :=
  Accepted topic b.defaultPartitions b.defaultReplicationFactor ∧
    (alive b = [] → -1 ≤ b.localBrokerID)

section Ensured

variable {env : Surroundings} {topic : Str} {b c : Broker} {md : TopicMetadata}

section Unknown

variable (hunknown : b.controller.metadata.topics.get topic = none)

include hunknown

theorem ensured_opened (hrun : (ensureTopicMetadata env topic).run b = .ok (c, .ok md)) :
    Accepted topic b.defaultPartitions b.defaultReplicationFactor ∧
      Opened b topic (candidates env b) b.defaultPartitions.toNat c ∧
      c.controller.metadata.topics.get topic = some md :=
  (ensureTopicMetadata_creates env hunknown).run hrun

theorem ensured_leader (hrun : (ensureTopicMetadata env topic).run b = .ok (c, .ok md)) (p : Int) :
    (md.partitions.get p).map PartitionMetadata.leaderID =
      if 0 ≤ p ∧ p < b.defaultPartitions then some (dealt (candidates env b) p) else none := by
  obtain ⟨-, hopened, hmd⟩ := ensured_opened hunknown hrun
  obtain ⟨md', hmd', hpartitions⟩ := hopened.opened
  rw [hmd] at hmd'
  cases hmd'
  rw [hpartitions]
  split
  · rw [stage, if_pos (by omega)]
    rfl
  · rfl

theorem ensured_creates (hrun : (ensureTopicMetadata env topic).run b = .ok (c, .ok md)) :
    Creates b topic := by
  obtain ⟨haccepted, hopened, -⟩ := ensured_opened hunknown hrun
  refine ⟨haccepted, fun hnone => ?_⟩
  have hpartitions : 0 < b.defaultPartitions := haccepted.2.1
  have hvalid := hopened.leaders_valid 0 (by omega)
  rw [candidates_of_none env hnone] at hvalid
  exact hvalid

end Unknown

/-- A broker that can create the topic returns its metadata. -/
theorem ensured_of_creates (env : Surroundings) (henrolled : Enrolled b.controller.metadata)
    (hunknown : b.controller.metadata.topics.get topic = none) (hcreates : Creates b topic) :
    ∃ c md, (ensureTopicMetadata env topic).run b = .ok (c, .ok md) := by
  obtain ⟨c, r, hrun⟩ := ensureTopicMetadata_returns env hunknown hcreates.1
  cases r with
  | ok md => exact ⟨c, md, hrun⟩
  | error e =>
    rcases (ensureTopicMetadata_creates env hunknown).run hrun with
      ⟨hrefused, -⟩ | ⟨-, k, -, -, hlow⟩
    · obtain ⟨hname, hpartitions, hfactor, -⟩ := hcreates.1
      rcases hrefused with hempty | hnone | hnone
      · exact absurd hempty hname
      · omega
      · omega
    · have hmem := dealt_mem (candidates_ne_nil env b) (k : Int)
      by_cases hnone : alive b = []
      · have hlocal := hcreates.2 hnone
        rw [candidates_of_none env hnone, List.mem_singleton] at hmem
        rw [candidates_of_none env hnone] at hlow
        omega
      · obtain ⟨broker, hbroker, -⟩ :=
          mem_alive.mp ((candidates_of_alive env hnone).mem_iff.mp hmem)
        have hid := (henrolled _ broker hbroker).2
        omega

end Ensured

section Orders

def firstly (id : Int) (keys : List Int) : List Int :=
  if id ∈ keys then id :: keys.erase id else keys

theorem firstly_perm (id : Int) (keys : List Int) : (firstly id keys).Perm keys := by
  unfold firstly
  split
  · exact (List.perm_cons_erase ‹_›).symm
  · exact List.Perm.refl _

def visitFirst (id : Int) : Surroundings :=
  { quiet with order := firstly id, order_perm := firstly_perm id }

/-- The broker that is visited first leads the first partition. -/
theorem dealt_visitFirst {b : Broker} {id : Int} (hid : id ∈ alive b) :
    dealt (candidates (visitFirst id) b) 0 = id := by
  obtain ⟨broker, hbroker, hfenced⟩ := mem_alive.mp hid
  have hkey : id ∈ b.controller.metadata.brokers.keys := (FMap.mem_keys_iff _ _).mpr ⟨_, hbroker⟩
  have horder : unfenced b.controller.metadata
      ((visitFirst id).order b.controller.metadata.brokers.keys) =
        id :: unfenced b.controller.metadata (b.controller.metadata.brokers.keys.erase id) := by
    show unfenced _ (firstly id _) = _
    rw [firstly, if_pos hkey, unfenced, List.filter_cons_of_pos]
    · rfl
    · rw [hbroker]
      simp [hfenced]
  unfold candidates
  rw [horder, if_neg (List.cons_ne_nil _ _), dealt]
  simp

end Orders

section Agreement

variable {b b' : Broker}

theorem SameBrokers.alive (h : SameBrokers b b') : (alive b).Perm (alive b') := by
  refine (List.perm_ext_iff_of_nodup (alive_nodup b) (alive_nodup b')).mpr (fun id => ?_)
  have hsame : ∀ m : MetadataSnapshot,
      (∃ broker, m.brokers.get id = some broker ∧ broker.fenced = false) ↔
        (m.brokers.get id).map BrokerMetadata.fenced = some false := by
    intro m
    cases m.brokers.get id with
    | none => simp
    | some broker => simp
  rw [mem_alive, mem_alive, hsame, hsame, h id]

/-- With at most one broker to choose from, it leads every partition. -/
theorem dealt_singleton {brokers : List Int} {id : Int} (h : brokers = [id]) (p : Int) :
    dealt brokers p = id := by
  rw [h, dealt]
  simp [Nat.mod_one]

theorem agree_of_dealt {env env' : Surroundings} {topic : Str}
    (hb : b.controller.metadata.topics.get topic = none)
    (hb' : b'.controller.metadata.topics.get topic = none)
    (h : ∀ p, dealt (candidates env b) p = dealt (candidates env' b') p) :
    Agree env env' topic b b' := by
  intro c c' md md' hrun hrun' p pm pm' hpm hpm'
  have hleader := ensured_leader hb hrun p
  have hleader' := ensured_leader hb' hrun' p
  rw [hpm, Option.map_some] at hleader
  rw [hpm', Option.map_some] at hleader'
  split at hleader
  · split at hleader'
    · rw [Option.some.inj hleader, Option.some.inj hleader', h p]
    · cases hleader'
  · cases hleader

/-- Brokers that agree deal the partitions out alike. -/
theorem dealt_of_agree (henrolled : Enrolled b.controller.metadata)
    (henrolled' : Enrolled b'.controller.metadata) {topic : Str}
    (hb : b.controller.metadata.topics.get topic = none)
    (hb' : b'.controller.metadata.topics.get topic = none) (hcreates : Creates b topic)
    (hcreates' : Creates b' topic) {env env' : Surroundings} (h : Agree env env' topic b b') :
    dealt (candidates env b) 0 = dealt (candidates env' b') 0 := by
  obtain ⟨c, md, hrun⟩ := ensured_of_creates env henrolled hb hcreates
  obtain ⟨c', md', hrun'⟩ := ensured_of_creates env' henrolled' hb' hcreates'
  have hleader := ensured_leader hb hrun 0
  have hleader' := ensured_leader hb' hrun' 0
  rw [if_pos ⟨Int.le_refl 0, hcreates.1.2.1⟩] at hleader
  rw [if_pos ⟨Int.le_refl 0, hcreates'.1.2.1⟩] at hleader'
  obtain ⟨pm, hpm, hdealt⟩ := Option.map_eq_some_iff.mp hleader
  obtain ⟨pm', hpm', hdealt'⟩ := Option.map_eq_some_iff.mp hleader'
  rw [← hdealt, ← hdealt', h c c' md md' hrun hrun' 0 pm pm' hpm hpm']

/-- Two brokers that set up a topic in any order of their maps agree on its
leaders exactly when one of them does not come to it, or there is one broker
that is not fenced, or none and both are the same broker. -/
theorem leaders_agree_iff (h : SameBrokers b b') (henrolled : Enrolled b.controller.metadata)
    (henrolled' : Enrolled b'.controller.metadata) {topic : Str}
    (hb : b.controller.metadata.topics.get topic = none)
    (hb' : b'.controller.metadata.topics.get topic = none) :
    (∀ env env', Agree env env' topic b b') ↔
      ¬ Creates b topic ∨ ¬ Creates b' topic ∨ (alive b).length = 1 ∨
        (alive b = [] ∧ b.localBrokerID = b'.localBrokerID) := by
  constructor
  · intro hagree
    by_contra hnot
    simp only [not_or, not_not, not_and] at hnot
    obtain ⟨hcreates, hcreates', hlength, hlocal⟩ := hnot
    have hdealt := fun env env' => dealt_of_agree henrolled henrolled' hb hb' hcreates hcreates'
      (hagree env env')
    rcases hlist : alive b with _ | ⟨i, _ | ⟨j, rest⟩⟩
    · have hnone' : alive b' = [] := List.perm_nil.mp (hlist ▸ h.alive).symm
      have hsame := hdealt quiet quiet
      rw [dealt_singleton (candidates_of_none quiet hlist),
        dealt_singleton (candidates_of_none quiet hnone')] at hsame
      exact hlocal hlist hsame
    · rw [hlist] at hlength
      exact hlength rfl
    · have hi : i ∈ alive b := by rw [hlist]; exact List.mem_cons_self ..
      have hj : j ∈ alive b := by
        rw [hlist]
        exact List.mem_cons_of_mem _ (List.mem_cons_self ..)
      have hsame := hdealt (visitFirst i) (visitFirst j)
      rw [dealt_visitFirst hi, dealt_visitFirst (h.alive.mem_iff.mp hj)] at hsame
      have hnodup := alive_nodup b
      rw [hlist, hsame] at hnodup
      exact (List.nodup_cons.mp hnodup).1 (List.mem_cons_self ..)
  · rintro (hnot | hnot | hone | ⟨hnone, hlocal⟩) env env'
    · intro c c' md md' hrun
      exact absurd (ensured_creates hb hrun) hnot
    · intro c c' md md' _ hrun'
      exact absurd (ensured_creates hb' hrun') hnot
    · obtain ⟨id, hid⟩ := List.length_eq_one_iff.mp hone
      have hid' : alive b' = [id] := List.perm_singleton.mp (hid ▸ h.alive).symm
      have hcandidates : ∀ (env : Surroundings) {b : Broker}, alive b = [id] →
          candidates env b = [id] := by
        intro env b hid
        exact List.perm_singleton.mp (hid ▸ candidates_of_alive env (by rw [hid]; simp))
      refine agree_of_dealt hb hb' (fun p => ?_)
      rw [dealt_singleton (hcandidates env hid), dealt_singleton (hcandidates env' hid')]
    · have hnone' : alive b' = [] := List.perm_nil.mp (hnone ▸ h.alive).symm
      refine agree_of_dealt hb hb' (fun p => ?_)
      rw [dealt_singleton (candidates_of_none env hnone),
        dealt_singleton (candidates_of_none env' hnone'), hlocal]

end Agreement

def single (localBrokerID : Int) : Broker := { aloneBroker with localBrokerID := localBrokerID }

theorem single_enrolled (localBrokerID : Int) :
    Enrolled (single localBrokerID).controller.metadata :=
  enrolled_new.registerBroker _ _ _ _ _

theorem single_same : SameBrokers (single 0) (single 1) := fun _ => rfl

/-- Brokers that know of one broker only agree. -/
theorem leaders_agree_single :
    SameBrokers (single 0) (single 1) ∧
      ∀ env env', Agree env env' (lit "orders") (single 0) (single 1) :=
  ⟨single_same, (leaders_agree_iff single_same (single_enrolled 0) (single_enrolled 1) rfl
    rfl).mpr (.inr (.inr (.inl (by decide))))⟩

def paired (localBrokerID : Int) : Broker :=
  { single localBrokerID with
    controller := (registerBroker 0 aloneBroker.controller 1 (lit "b1") 9092 0).1 }

theorem paired_enrolled (localBrokerID : Int) :
    Enrolled (paired localBrokerID).controller.metadata :=
  (single_enrolled localBrokerID).registerBroker _ _ _ _ _

/-- The two brokers of a cluster visit their maps in different orders, and each
takes itself for the leader of the first partition. -/
theorem map_order_splits_leaders :
    SameBrokers (paired 0) (paired 1) ∧
      ¬ Agree (visitFirst 0) (visitFirst 1) (lit "orders") (paired 0) (paired 1) := by
  refine ⟨fun _ => rfl, fun hagree => ?_⟩
  have hdealt := dealt_of_agree (paired_enrolled 0) (paired_enrolled 1) rfl rfl
    ⟨by decide, fun hnone => absurd hnone (by decide)⟩
    ⟨by decide, fun hnone => absurd hnone (by decide)⟩ hagree
  exact absurd hdealt (by decide)

end Flux.LeaderAgreement
