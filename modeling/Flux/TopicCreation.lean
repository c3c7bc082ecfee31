import Flux.BrokerContracts
import Flux.BrokerSafety
import Flux.ControllerSteps

/-!
The creation of a topic by its first use. The topic is stored with the first
broker ids as replicas and without leaders; then the brokers that are not fenced
are dealt to the partitions in turn, in the order in which the map of brokers
happens to be visited.
-/
namespace Flux.TopicCreation

open GoRuntime GoStrings FiniteMap ClusterMetadata Interleavings BrokerNode BrokerContracts
open BrokerSafety ControllerSteps

variable {b : Broker} {id : Int} {brokers : List Int} {topic : Str}

def alive (b : Broker) : List Int :=
  unfenced b.controller.metadata b.controller.metadata.brokers.keys

def candidates (env : Surroundings) (b : Broker) : List Int :=
  let alive := unfenced b.controller.metadata (env.order b.controller.metadata.brokers.keys)
  if alive = [] then [b.localBrokerID] else alive

theorem mem_alive :
    id ∈ alive b ↔ ∃ broker, b.controller.metadata.brokers.get id = some broker ∧
      broker.fenced = false := by
  unfold alive unfenced
  rw [List.mem_filter, FMap.mem_keys_iff]
  constructor
  · rintro ⟨⟨broker, hbroker⟩, hfenced⟩
    rw [hbroker] at hfenced
    exact ⟨broker, hbroker, by simpa using hfenced⟩
  · rintro ⟨broker, hbroker, hfenced⟩
    rw [hbroker]
    exact ⟨⟨broker, rfl⟩, by simpa using hfenced⟩

theorem alive_nodup (b : Broker) : (alive b).Nodup := (FMap.keys_nodup _).filter _

theorem unfenced_perm (env : Surroundings) (b : Broker) :
    (unfenced b.controller.metadata (env.order b.controller.metadata.brokers.keys)).Perm
      (alive b) :=
  (env.order_perm _).filter _

theorem candidates_of_alive (env : Surroundings) (h : alive b ≠ []) :
    (candidates env b).Perm (alive b) := by
  have hperm := unfenced_perm env b
  unfold candidates
  rw [if_neg (fun hnil => h (List.perm_nil.mp (hnil ▸ hperm).symm))]
  exact hperm

theorem candidates_of_none (env : Surroundings) (h : alive b = []) :
    candidates env b = [b.localBrokerID] := by
  unfold candidates
  rw [if_pos (List.perm_nil.mp (h ▸ unfenced_perm env b))]

theorem mem_candidates {env : Surroundings} :
    id ∈ candidates env b ↔ id ∈ if alive b = [] then [b.localBrokerID] else alive b := by
  split
  · rw [candidates_of_none env ‹_›]
  · exact (candidates_of_alive env ‹_›).mem_iff

theorem candidates_ne_nil (env : Surroundings) (b : Broker) : candidates env b ≠ [] := by
  unfold candidates
  dsimp only
  split
  · exact List.cons_ne_nil _ _
  · assumption

theorem unfenced_congr {metadata metadata' : MetadataSnapshot}
    (h : metadata.brokers = metadata'.brokers) (ids : List Int) :
    unfenced metadata ids = unfenced metadata' ids := by
  unfold unfenced
  rw [h]

def dealt (brokers : List Int) (p : Int) : Int := brokers[p.toNat % brokers.length]?.getD 0

theorem dealt_mem (hne : brokers ≠ []) (p : Int) : dealt brokers p ∈ brokers := by
  have hlt : p.toNat % brokers.length < brokers.length :=
    Nat.mod_lt _ (List.length_pos_of_ne_nil hne)
  rw [dealt, List.getElem?_eq_getElem hlt]
  exact List.getElem_mem hlt

theorem index_dealt (hne : brokers ≠ []) {p : Int} (hp : 0 ≤ p) :
    (goMod p brokers.length).bind (fun i => index brokers i) = .ok (dealt brokers p) := by
  obtain ⟨n, rfl⟩ := Int.eq_ofNat_of_zero_le hp
  have hlen : 0 < brokers.length := List.length_pos_of_ne_nil hne
  have hmod : (n : Int).tmod brokers.length = ((n % brokers.length : ℕ) : Int) := rfl
  have hlt : n % brokers.length < brokers.length := Nat.mod_lt _ hlen
  simp only [goMod, show ¬ (brokers.length : Int) = 0 by omega, ↓reduceIte, Except.bind, hmod,
    index, show ¬ ((n % brokers.length : ℕ) : Int) < 0 by omega, Int.toNat_natCast,
    List.getElem?_eq_getElem hlt, dealt, Option.getD_some]

theorem foldlM_dealt (hne : brokers ≠ []) {keys : List Int} (hkeys : ∀ p ∈ keys, 0 ≤ p)
    (out : FMap Int Int) :
    keys.foldlM (fun out p =>
      (goMod p brokers.length).bind (fun i =>
        (index brokers i).map (fun leaderID => out.set p leaderID))) out =
      .ok (keys.foldl (fun out p => out.set p (dealt brokers p)) out) := by
  induction keys generalizing out with
  | nil => rfl
  | cons p rest ih =>
    have hp := index_dealt hne (hkeys p (List.mem_cons_self ..))
    rw [List.foldlM_cons, List.foldl_cons, ← ih (fun q hq => hkeys q (List.mem_cons_of_mem _ hq))]
    cases hmod : goMod p brokers.length with
    | error e =>
      rw [hmod] at hp
      cases hp
    | ok i =>
      rw [hmod] at hp
      have hindex : index brokers i = .ok (dealt brokers p) := hp
      simp only [Except.bind, hindex]
      rfl

/-- Every partition of a topic is dealt a broker. -/
theorem assignInitialLeaders_dealt {md : TopicMetadata} (hmd : ∀ p ∈ md.partitions.keys, 0 ≤ p)
    (hne : brokers ≠ []) :
    ∃ leaders, assignInitialLeaders md brokers = .ok leaders ∧
      ∀ p ∈ md.partitions.keys, leaders.get p = some (dealt brokers p) := by
  refine ⟨_, (if_neg hne).trans (foldlM_dealt hne hmd FMap.empty), fun p hp => ?_⟩
  have hloop := FMap.get_foldl_set id (dealt brokers) md.partitions.keys FMap.empty p
  rw [List.map_id, if_pos hp] at hloop
  exact hloop

def firstIDs (replicationFactor : Int) : List Int :=
  (List.range replicationFactor.toNat).map (fun i : ℕ => (i : Int))

theorem mem_firstIDs {replicationFactor : Int} :
    id ∈ firstIDs replicationFactor ↔ 0 ≤ id ∧ id < replicationFactor := by
  unfold firstIDs
  rw [List.mem_map]
  constructor
  · rintro ⟨i, hi, rfl⟩
    rw [List.mem_range] at hi
    omega
  · rintro ⟨hlow, hhigh⟩
    exact ⟨id.toNat, List.mem_range.mpr (by omega), by omega⟩

def stage (replicationFactor : Int) (brokers : List Int) (k : ℕ) (p : Int) : PartitionMetadata :=
  let created : PartitionMetadata :=
    ⟨p, -1, firstIDs replicationFactor, firstIDs replicationFactor⟩
  if p < k then created.led (dealt brokers p) [dealt brokers p] else created

structure Opened (b : Broker) (topic : Str) (brokers : List Int) (k : ℕ) (b' : Broker) : Prop where
  elsewhere : b' = { b with controller := b'.controller }
  brokers_eq : b'.controller.metadata.brokers = b.controller.metadata.brokers
  topics : ∀ t, t ≠ topic →
    b'.controller.metadata.topics.get t = b.controller.metadata.topics.get t
  leaders_valid : ∀ p : ℕ, p < k → -1 ≤ dealt brokers p
  opened : ∃ md, b'.controller.metadata.topics.get topic = some md ∧
    ∀ p, md.partitions.get p = if 0 ≤ p ∧ p < b.defaultPartitions then
      some (stage b.defaultReplicationFactor brokers k p) else none

section Creation

variable {b b' : Broker} {topic : Str} {brokers : List Int} {k : ℕ}

theorem opened_create (b : Broker) (topic : Str) (brokers : List Int) :
    Opened b topic brokers 0 { b with
      controller := moved b.controller { b.controller.metadata with
        topics := b.controller.metadata.topics.set topic
          (newTopic topic b.defaultPartitions b.defaultReplicationFactor) } } where
  elsewhere := rfl
  brokers_eq := rfl
  topics t ht := FMap.get_set_ne _ _ ht
  leaders_valid p hp := absurd hp (Nat.not_lt_zero p)
  opened := by
    refine ⟨_, FMap.get_set_self _ _ _, fun p => ?_⟩
    rw [get_newTopic]
    split
    · rw [stage, if_neg (by omega)]
      rfl
    · rfl

/-- The creation is refused, or the topic is stored without leaders. -/
theorem yields_callCreateTopic (now : Time) (topic : Str) :
    Program.Yields (fun b' r =>
      match r with
      | .error _ => Refused topic b.defaultPartitions b.defaultReplicationFactor ∧ b' = b
      | .ok _ => ∀ brokers, Accepted topic b.defaultPartitions b.defaultReplicationFactor ∧
          Opened b topic brokers 0 b')
      (callCreateTopic now topic b.defaultPartitions b.defaultReplicationFactor) b := by
  refine Program.yields_atomically (fun b' r hop => ?_)
  cases hcreate : createTopic now b.controller topic b.defaultPartitions
      b.defaultReplicationFactor with
  | error e =>
    rw [hcreate] at hop
    cases hop
  | ok created =>
    rw [hcreate] at hop
    cases hop
    rcases createTopic_cases hcreate with ⟨hrefused, e, rfl⟩ | ⟨haccepted, result, rfl⟩
    · exact ⟨hrefused, rfl⟩
    · exact fun brokers => ⟨haccepted, opened_create b topic brokers⟩

section Opened

variable (h : Opened b topic brokers k b')

include h

/-- The next leader is set unless its id is not one. -/
theorem Opened.setLeader (hk : (k : Int) < b.defaultPartitions) (htopic : topic ≠ []) (now : Time) :
    Program.Yields (fun b'' r =>
      match r with
      | .error _ => Opened b topic brokers k b'' ∧ dealt brokers k < -1
      | .ok _ => Opened b topic brokers (k + 1) b'')
      (callSetPartitionLeader now topic k (dealt brokers k) [dealt brokers k]) b' := by
  obtain ⟨md, hmd, hpartitions⟩ := h.opened
  have hp : md.partitions.get (k : Int) =
      some (stage b.defaultReplicationFactor brokers k k) := by
    rw [hpartitions, if_pos ⟨by omega, hk⟩]
  rcases setPartitionLeader_cases now b'.controller topic k (dealt brokers k)
    [dealt brokers k] with ⟨hwhy, e, hfail⟩ | ⟨md', p', r, -, -, hvalid, hmd', hp', hset⟩
  · refine yields_onController hfail ?_
    rcases hwhy with hempty | hneg | hleader | hmissing
    · exact absurd hempty htopic
    · omega
    · exact ⟨h, hleader⟩
    · rw [hmd, Option.bind_some, hp] at hmissing
      cases hmissing
  · rw [hmd] at hmd'
    cases hmd'
    rw [hp] at hp'
    cases hp'
    refine yields_onController hset ?_
    refine ⟨?_, h.brokers_eq, fun t ht => ?_, fun p hp => ?_, _, FMap.get_set_self _ _ _,
      fun p => ?_⟩
    · rw [h.elsewhere]
    · exact (FMap.get_set_ne _ _ ht).trans (h.topics t ht)
    · rcases Nat.lt_succ_iff_lt_or_eq.mp hp with hlt | rfl
      · exact h.leaders_valid p hlt
      · exact hvalid
    · dsimp only
      rw [FMap.get_set]
      split
      · rename_i heq
        subst heq
        rw [if_pos ⟨by omega, hk⟩, stage, stage, if_neg (by omega), if_pos (by omega)]
      · rename_i hne
        rw [hpartitions p]
        refine if_congr Iff.rfl ?_ rfl
        rw [stage, stage]
        exact congrArg some (if_congr (by omega) rfl rfl)

theorem Opened.keys (p : Int) :
    p ∈ (topicOf b'.controller.metadata topic).partitions.keys ↔
      0 ≤ p ∧ p < b.defaultPartitions := by
  obtain ⟨md, hmd, hpartitions⟩ := h.opened
  rw [topicOf, hmd, Option.getD_some, FMap.mem_keys_iff, hpartitions]
  split
  · exact iff_of_true ⟨_, rfl⟩ ‹_›
  · exact iff_of_false (by simp) ‹_›

theorem Opened.assigns (ids : List Int) :
    ∃ leaders, assignInitialLeaders (topicOf b'.controller.metadata topic) ids = .ok leaders :=
  assignInitialLeaders_ok (fun p hp => ((h.keys p).mp hp).1) ids

/-- The leaders of a topic that is just stored are those dealt. -/
theorem Opened.leaders (hne : brokers ≠ []) {leaders : FMap Int Int}
    (hleaders : assignInitialLeaders (topicOf b'.controller.metadata topic) brokers = .ok leaders)
    (p : ℕ) (hp : (p : Int) < b.defaultPartitions) :
    (leaders.get (p : Int)).getD b.localBrokerID = dealt brokers p := by
  obtain ⟨leaders', hassigned, hdealt⟩ := assignInitialLeaders_dealt
    (fun q hq => ((h.keys q).mp hq).1) hne
  rw [hleaders] at hassigned
  cases hassigned
  rw [hdealt p ((h.keys p).mpr ⟨by omega, hp⟩), Option.getD_some]

end Opened

def Remaining (b : Broker) (topic : Str) (brokers : List Int) (items : List ℕ) (b' : Broker) :
    Prop :=
  ∃ k : ℕ, k ≤ b.defaultPartitions.toNat ∧
    items = List.range' k (b.defaultPartitions.toNat - k) ∧ Opened b topic brokers k b'

def Stuck (b : Broker) (topic : Str) (brokers : List Int) (b' : Broker) : Prop :=
  ∃ k : ℕ, (k : Int) < b.defaultPartitions ∧ Opened b topic brokers k b' ∧ dealt brokers k < -1

theorem Remaining.next {p : ℕ} {rest : List ℕ} (h : Remaining b topic brokers (p :: rest) b') :
    (p : Int) < b.defaultPartitions ∧ Opened b topic brokers p b' ∧
      rest = List.range' (p + 1) (b.defaultPartitions.toNat - (p + 1)) := by
  obtain ⟨k, hk, hitems, hopened⟩ := h
  have hlen := congrArg List.length hitems
  simp only [List.length_cons, List.length_range'] at hlen
  have hnext : b.defaultPartitions.toNat - k = (b.defaultPartitions.toNat - (k + 1)) + 1 := by
    omega
  rw [hnext, List.range'_succ] at hitems
  obtain ⟨rfl, rfl⟩ := List.cons.inj hitems
  exact ⟨by omega, hopened, rfl⟩

theorem Remaining.last (h : Remaining b topic brokers [] b') :
    Opened b topic brokers b.defaultPartitions.toNat b' := by
  obtain ⟨k, hk, hitems, hopened⟩ := h
  have hlen := congrArg List.length hitems
  simp only [List.length_nil, List.length_range'] at hlen
  have hlast : k = b.defaultPartitions.toNat := by omega
  exact hlast ▸ hopened

/-- The leaders are set in the order of the partitions. -/
theorem Opened.setLeaders (h : Opened b topic brokers 0 b') (htopic : topic ≠ []) (now : Time)
    {leaderOf : ℕ → Int}
    (hleaders : ∀ p : ℕ, (p : Int) < b.defaultPartitions → leaderOf p = dealt brokers p) :
    Program.Yields (fun b'' r =>
      match r with
      | .error _ => Stuck b topic brokers b''
      | .ok _ => Remaining b topic brokers [] b'')
      (attemptAll (fun p : ℕ => callSetPartitionLeader now topic p (leaderOf p) [leaderOf p])
        (List.range b.defaultPartitions.toNat) 0) b' := by
  refine upholds_attemptAll (Remaining b topic brokers) (Stuck b topic brokers) ?_
    ⟨0, Nat.zero_le _, List.range_eq_range', h⟩ 0
  intro p rest b'' hremaining
  obtain ⟨hlt, hopened, hrest⟩ := hremaining.next
  rw [hleaders p hlt]
  refine (hopened.setLeader hlt htopic now).weaken (fun c r hr => ?_)
  cases r with
  | error e => exact ⟨p, hlt, hr⟩
  | ok result => exact ⟨p + 1, by omega, hrest, hr⟩

end Creation

/-- The first use of a topic, as it ends: the creation is refused, or a broker
that is dealt has an id no leader can have, or every partition gets its leader. -/
theorem ensureTopicMetadata_creates (env : Surroundings)
    (hunknown : b.controller.metadata.topics.get topic = none) :
    Program.Yields (fun b' r =>
      match r with
      | .error _ =>
          (Refused topic b.defaultPartitions b.defaultReplicationFactor ∧ b' = b) ∨
          (Accepted topic b.defaultPartitions b.defaultReplicationFactor ∧
            Stuck b topic (candidates env b) b')
      | .ok md => Accepted topic b.defaultPartitions b.defaultReplicationFactor ∧
          Opened b topic (candidates env b) b.defaultPartitions.toNat b' ∧
          b'.controller.metadata.topics.get topic = some md)
      (ensureTopicMetadata env topic) b := by
  unfold ensureTopicMetadata
  split
  · rename_i hempty
    exact .inl ⟨.inl hempty, rfl⟩
  · rename_i htopic
    refine Program.yields_read_bind ?_
    rw [hunknown]
    refine Program.yields_read_bind ?_
    dsimp only [id]
    refine Program.upholds_bind (yields_callCreateTopic (env.clock 0) topic) ?_
    rintro b' (e | result) hcreated
    · exact .inl hcreated
    · obtain ⟨haccepted, hopened⟩ := hcreated (candidates env b)
      refine Program.yields_read_bind ?_
      have hsame : (if unfenced b'.controller.metadata
            (env.order b'.controller.metadata.brokers.keys) = [] then [b.localBrokerID]
          else unfenced b'.controller.metadata
            (env.order b'.controller.metadata.brokers.keys)) = candidates env b := by
        rw [unfenced_congr hopened.brokers_eq, hopened.brokers_eq]
        rfl
      rw [hsame]
      have hassigned : Program.Yields (fun b'' leaders => b'' = b' ∧
          ∀ p : ℕ, (p : Int) < b.defaultPartitions →
            (leaders.get (p : Int)).getD b.localBrokerID = dealt (candidates env b) p)
          (compute (assignInitialLeaders (topicOf b'.controller.metadata topic)
            (candidates env b))) b' :=
        yields_compute (fun leaders h => ⟨rfl, hopened.leaders (candidates_ne_nil env b) h⟩)
      refine Program.upholds_bind hassigned ?_
      rintro b'' leaders ⟨rfl, hleaders⟩
      refine Program.upholds_bind (hopened.setLeaders htopic (env.clock 0) hleaders) ?_
      rintro c (e | n) hset
      · exact .inr ⟨haccepted, hset⟩
      · have hopened' := Remaining.last hset
        refine Program.yields_read_bind ⟨haccepted, hopened', ?_⟩
        obtain ⟨md, hmd, -⟩ := hopened'.opened
        rw [topicOf, hmd, Option.getD_some]

/-- Nothing but the length of the list of replicas can make the creation panic. -/
theorem ensureTopicMetadata_returns (env : Surroundings)
    (hunknown : b.controller.metadata.topics.get topic = none)
    (haccepted : Accepted topic b.defaultPartitions b.defaultReplicationFactor) :
    Program.Returns (ensureTopicMetadata env topic) b := by
  rw [ensureTopicMetadata, if_neg haccepted.1]
  refine Program.returns_read_bind ?_
  rw [hunknown]
  refine Program.returns_read_bind ?_
  dsimp only [id]
  obtain ⟨created, hcreated⟩ := createTopic_returns (env.clock 0) b.controller haccepted
  have hreturns : Program.Returns (callCreateTopic (env.clock 0) topic b.defaultPartitions
      b.defaultReplicationFactor) b := by
    refine ⟨{ b with controller := created.1 }, created.2, ?_⟩
    simp only [callCreateTopic, Program.atomically, Program.run, hcreated, Except.map]
  refine Program.returns_bind (yields_callCreateTopic (env.clock 0) topic) hreturns ?_
  rintro b' (e | result) hcreates
  · exact ⟨b', _, rfl⟩
  · refine Program.returns_read_bind ?_
    obtain ⟨leaders, hleaders⟩ := (hcreates (candidates env b)).2.assigns
      (if unfenced b'.controller.metadata (env.order b'.controller.metadata.brokers.keys) = []
        then [b.localBrokerID]
        else unfenced b'.controller.metadata (env.order b'.controller.metadata.brokers.keys))
    have hcompute : Program.Returns (compute (.ok leaders)) b' := ⟨b', leaders, rfl⟩
    rw [hleaders]
    refine Program.returns_bind (Program.yields_trivial _ b') hcompute (fun b'' _ _ => ?_)
    refine Program.returns_bind (Program.yields_trivial _ b'')
      (returns_attemptAll (fun p b => Program.returns_modify _ b) _ b'' 0) ?_
    rintro c (e | n) -
    · exact ⟨c, _, rfl⟩
    · exact Program.returns_read_bind ⟨c, _, rfl⟩

/-- A topic that is known is left as it is. -/
theorem ensureTopicMetadata_known (env : Surroundings) {md : TopicMetadata}
    (hknown : b.controller.metadata.topics.get topic = some md) :
    Program.Yields (fun b' r => b' = b ∧ (topic ≠ [] → r = .ok md))
      (ensureTopicMetadata env topic) b := by
  unfold ensureTopicMetadata
  split
  · rename_i hempty
    exact ⟨rfl, fun hne => absurd hempty hne⟩
  · refine Program.yields_read_bind ?_
    rw [hknown]
    exact ⟨rfl, fun _ => rfl⟩

end Flux.TopicCreation
