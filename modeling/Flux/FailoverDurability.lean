import Flux.ClusterProgress
import Flux.LogMatching
import Flux.RuntimeSteps

/-!
What an answer to `acks=all` is worth when the leader fails. The record is held by
every replica that was in sync when the request was answered, so it survives if the
replica that `ElectTopicLeaders` picks was one of those. The election looks at the
order of the replicas and at the fences only, and may pick another one.
-/
namespace Flux.FailoverDurability

open GoRuntime GoStrings FiniteMap BrokerConfig ReplicationManager ClusterMetadata BrokerNode
open MemoryLogs ReplicaCluster ClusterSteps ClusterCalls RuntimeSteps ClusterLogs ClusterProgress
  LogMatching
open Runs
open PartitionStorage (Message Env)
open ReplicaProgress (Sound partitionOf_setPartition_self run_sound)

variable {i : ℕ} {value : Str} {events : List Event} {leader : Int} {pm : PartitionMetadata}
  {u : LeaderUpdate} {updates : List LeaderUpdate}

section Partition

variable (topic : Str) (partition : Int)

def answered (c : Cluster) (leader : Int) (i : ℕ) (now : Time) : Option (Int × Str) :=
  match (c leader).produces[i]? with
  | some (.awaiting offset value) =>
      if (pollAckAll id now (c leader).broker.replication topic partition offset).2 then
        some (offset, value)
      else none
  | _ => none

def heir (c : Cluster) (k leader : Int) : Option Int :=
  ((c k).view topic partition).bind (fun pm => pm.replicas.find? (fun id =>
    decide (id ≠ leader) && isBrokerEligible (c k).broker.controller.metadata.brokers id))

/-- The replica that broker `k` would elect in the place of the leader holds the record. -/
def Survives (c : Cluster) (k leader offset : Int) (value : Str) : Prop :=
  ∀ pm updates, (c k).view topic partition = some pm → pm.leaderID = leader →
    electionUpdates (c k).broker.controller.metadata topic = .ok updates →
    ∀ u ∈ updates, u.partition = partition → 0 ≤ u.leaderID →
      ((c u.leaderID).log topic partition)[offset.toNat]? = some ⟨offset, value⟩

def Event.appending : Event → Option (Int × ℕ × Env)
  | .append b i env => some (b, i, env)
  | _ => none

def stores (n : Node) (i : ℕ) (env : Env) : Bool :=
  match n.produces[i]? with
  | some (.admitted value) => writes env n.broker.storage topic partition value
  | _ => true

def Stores (c : Cluster) (e : Event) : Prop :=
  ∀ q ∈ Event.appending e, stores topic partition (c q.1) q.2.1 q.2.2

/-- An orderly step whose writes succeed. -/
structure Careful (c : Cluster) (e : Event) : Prop where
  orderly : Orderly topic partition c e
  stores : Stores topic partition c e

/-- The replica that would be elected is in sync after the poll. -/
def HeirInSync (c : Cluster) (k leader : Int) (i : ℕ) (now : Time) : Prop :=
  ∀ id ∈ heir topic partition c k leader,
    (((step topic partition c (.poll leader i now) leader).progress topic partition).followers.get
      id).any ReplicaState.inSync

/-- The step does not change which replica would be elected. -/
def KeepsHeir (k leader : Int) (c : Cluster) (e : Event) : Prop :=
  heir topic partition (step topic partition c e) k leader = heir topic partition c k leader

section Decidable

variable (c : Cluster) (e : Event)

instance : Decidable (Stores topic partition c e) :=
  inferInstanceAs (Decidable (∀ _ ∈ _, _))

instance : Decidable (Careful topic partition c e) :=
  decidable_of_iff (Orderly topic partition c e ∧ Stores topic partition c e)
    ⟨fun h => ⟨h.1, h.2⟩, fun h => ⟨h.orderly, h.stores⟩⟩

instance (k leader : Int) : Decidable (KeepsHeir topic partition k leader c e) :=
  inferInstanceAs (Decidable (_ = _))

instance (k leader : Int) (i : ℕ) (now : Time) :
    Decidable (HeirInSync topic partition c k leader i now) :=
  inferInstanceAs (Decidable (∀ _ ∈ _, _))

end Decidable

def Logged (c : Cluster) : Prop :=
  ∀ b offset value,
    .stored offset value ∈ (c b).produces ∨ .awaiting offset value ∈ (c b).produces →
    0 ≤ offset ∧ ((c b).log topic partition)[offset.toNat]? = some ⟨offset, value⟩

structure Backed (c : Cluster) : Prop where
  steady : Steady topic partition c
  id : ∀ b, (c b).broker.localBrokerID = b
  managers : ∀ b, ∃ cfg ops,
    (c b).broker.replication = run ReplicaProgress.step (newManager cfg) ops
  recorded : Recorded topic partition c
  logged : Logged topic partition c

variable {topic partition} {c : Cluster} {e : Event}

theorem getElem?_of_prefix {α : Type} {front whole : List α} (h : front <+: whole) {a : α}
    (hget : front[i]? = some a) : whole[i]? = some a := by
  obtain ⟨later, rfl⟩ := h
  rw [List.getElem?_append_left (List.getElem?_eq_some_iff.mp hget).1]
  exact hget

theorem Started.backed (hstart : Started topic partition c) : Backed topic partition c where
  steady := ClusterLogs.Started.steady hstart
  id := hstart.id
  managers b := by
    obtain ⟨cfg, hcfg⟩ := hstart.replication b
    exact ⟨cfg, [], hcfg⟩
  recorded := recorded_started hstart
  logged b offset value h := by
    rw [hstart.produces b] at h
    rcases h with h | h <;> cases h

/-- The record that a producer's append has stored. -/
theorem append_logged (hsteady : Steady topic partition c) {b : Int} {env : Env}
    (hretains : Retains topic partition c (.append b i env))
    (hstores : Stores topic partition c (.append b i env))
    (hadmitted : (c b).produces[i]? = some (.admitted value)) :
    0 ≤ (PartitionStorage.produceToPartition env (c b).broker.storage topic partition value).2.2 ∧
      ((step topic partition c (.append b i env) b).log topic partition)[
        (PartitionStorage.produceToPartition env (c b).broker.storage topic partition
          value).2.2.toNat]? =
        some ⟨(PartitionStorage.produceToPartition env (c b).broker.storage topic partition
          value).2.2, value⟩ := by
  have hwrites := hstores (b, i, env) rfl
  simp only [stores, hadmitted] at hwrites
  have hafter : (step topic partition c (.append b i env) b).broker.storage =
      (PartitionStorage.produceToPartition env (c b).broker.storage topic partition value).1 := by
    dsimp only [step]
    rw [modify_self]
    simp only [Node.append, hadmitted]
  have hkeep := hretains b rfl
  rw [hafter] at hkeep
  obtain ⟨-, hanswer, hlog⟩ := produceToPartition_whole env (hsteady.whole b) value hkeep
  unfold Node.log
  rw [hafter, hlog, hanswer, if_pos hwrites]
  dsimp only
  rw [Int.toNat_natCast, List.getElem?_concat_length]
  exact ⟨Int.natCast_nonneg _, rfl⟩

theorem Logged.step (h : Logged topic partition c) (hsteady : Steady topic partition c)
    (hcareful : Careful topic partition c e) :
    Logged topic partition (step topic partition c e) := by
  have hgrow := fun b => (hsteady.extends hcareful.orderly.retains b).2
  have hold : ∀ b offset value,
      .stored offset value ∈ (c b).produces ∨ .awaiting offset value ∈ (c b).produces →
      0 ≤ offset ∧ ((ReplicaCluster.step topic partition c e b).log topic
        partition)[offset.toNat]? = some ⟨offset, value⟩ := by
    intro b offset value hp
    obtain ⟨hoffset, hget⟩ := h b offset value hp
    exact ⟨hoffset, getElem?_of_prefix (hgrow b) hget⟩
  intro b offset value hp
  rcases hp with hp | hp
  · rcases mem_produces_step hp with hin | hstaged
    · exact hold b offset value (.inl hin)
    · cases hstaged with
      | stored i env _ hadmitted =>
        exact append_logged hsteady hcareful.orderly.retains hcareful.stores hadmitted
  · rcases mem_produces_step hp with hin | hstaged
    · exact hold b offset value (.inr hin)
    · cases hstaged with
      | awaiting i now _ _ hstored =>
        exact hold b offset value (.inl (List.mem_of_getElem? hstored))

theorem Backed.step (h : Backed topic partition c) (hcareful : Careful topic partition c e) :
    Backed topic partition (step topic partition c e) where
  steady := h.steady.step hcareful.orderly
  id := id_step h.id
  managers b := by
    obtain ⟨cfg, hops⟩ := h.managers b
    exact ⟨cfg, reached_step topic partition e hops⟩
  recorded := h.recorded.step h.steady h.id hcareful.orderly
  logged := h.logged.step h.steady hcareful

theorem Backed.run (h : Backed topic partition c)
    (hvalid : Valid (ReplicaCluster.step topic partition) (Careful topic partition) c events) :
    Backed topic partition (run (ReplicaCluster.step topic partition) c events) :=
  run_invariant (fun _ _ hc he => hc.step he) h hvalid

theorem Backed.extends_run (h : Backed topic partition c)
    (hvalid : Valid (ReplicaCluster.step topic partition) (Careful topic partition) c events) :
    ∀ b, (c b).log topic partition <+:
      (Runs.run (ReplicaCluster.step topic partition) c events b).log topic partition :=
  run_related (R := fun c c' : Cluster => ∀ b, (c b).log topic partition <+:
      (c' b).log topic partition) (fun _ _ => List.prefix_refl _)
    (fun _ _ _ h h' b => (h b).trans (h' b)) (fun _ _ hc he => ⟨Backed.step hc he, fun b =>
      (hc.steady.extends he.orderly.retains b).2⟩) h hvalid

/-- Whoever is in sync when a request is answered has its record. -/
theorem answered_agreed (h : Backed topic partition c) {f offset : Int} {now : Time}
    (hcareful : Careful topic partition c (.poll leader i now))
    (hanswered : answered topic partition c leader i now = some (offset, value))
    (hsync : (((step topic partition c (.poll leader i now) leader).progress topic
      partition).followers.get f).any ReplicaState.inSync) :
    0 ≤ offset ∧
      ((c leader).log topic partition)[offset.toNat]? = some ⟨offset, value⟩ ∧
      Agreed topic partition (step topic partition c (.poll leader i now)) leader f offset := by
  unfold answered at hanswered
  split at hanswered
  · rename_i offset' value' hawaiting
    split at hanswered
    · rename_i hcommitted
      cases hanswered
      obtain ⟨hoffset, hget⟩ := h.logged leader offset value
        (.inr (List.mem_of_getElem? hawaiting))
      refine ⟨hoffset, hget, ?_⟩
      have hnext := h.step hcareful
      obtain ⟨r, hr, hrsync⟩ := (Option.any_eq_true _ _).mp hsync
      have hagreed := hnext.recorded leader f r hr
      have hmanager : (step topic partition c (.poll leader i now) leader).broker.replication =
          (pollAckAll id now (c leader).broker.replication topic partition offset).1 := by
        dsimp only [ReplicaCluster.step]
        rw [modify_self]
        simp only [Node.poll, hawaiting]
        rfl
      obtain ⟨cfg, ops, hops⟩ := hnext.managers leader
      have hsound : Sound ((step topic partition c (.poll leader i now) leader).progress topic
          partition) := by
        unfold Node.progress
        rw [hops]
        exact run_sound cfg ops topic partition
      have hleast := hsound.watermark.2 (.inr ⟨f, r, hr, hrsync, rfl⟩)
      have hmark : offset ≤ ((step topic partition c (.poll leader i now) leader).progress topic
          partition).highWatermark := by
        unfold Node.progress
        rw [hmanager]
        dsimp only [pollAckAll, refresh]
        rw [partitionOf_setPartition_self]
        exact of_decide_eq_true (Bool.and_eq_true_iff.mp hcommitted).1
      exact hagreed.mono (Int.le_trans hmark hleast)
    · cases hanswered
  · cases hanswered

theorem electPartition_some {brokers : FMap Int BrokerMetadata} {pid : Int}
    (h : electPartition brokers pid pm = some u) :
    u.partition = pid ∧ isBrokerEligible brokers pm.leaderID = false ∧
      u.leaderID = electFromReplicas brokers pm.replicas := by
  simp only [electPartition] at h
  by_cases helig : isBrokerEligible brokers pm.leaderID = true
  · simp [helig] at h
  · rw [if_neg helig] at h
    by_cases hsame : electFromReplicas brokers pm.replicas = pm.leaderID
    · rw [if_pos hsame] at h
      cases h
    · rw [if_neg hsame] at h
      cases h
      exact ⟨rfl, Bool.eq_false_iff.mpr helig, rfl⟩

theorem mem_electionUpdates {metadata : MetadataSnapshot}
    (h : electionUpdates metadata topic = .ok updates) (hu : u ∈ updates) :
    ∃ pm, (topicOf metadata topic).partitions.get u.partition = some pm ∧
      isBrokerEligible metadata.brokers pm.leaderID = false ∧
      u.leaderID = electFromReplicas metadata.brokers pm.replicas := by
  unfold electionUpdates at h
  split at h
  · cases h
  · split at h
    · cases h
    · rename_i md hmd
      cases h
      obtain ⟨pid, -, hpid⟩ := List.mem_filterMap.mp hu
      obtain ⟨pm, hpm, helect⟩ := Option.bind_eq_some_iff.mp hpid
      obtain ⟨hpartition, hfenced, hleader⟩ := electPartition_some helect
      refine ⟨pm, ?_, hfenced, hleader⟩
      rw [topicOf, hmd, hpartition]
      exact hpm

/-- An election that replaces the leader picks the heir. -/
theorem elected_heir {k : Int} (hview : (c k).view topic partition = some pm)
    (hleader : pm.leaderID = leader)
    (hupdates : electionUpdates (c k).broker.controller.metadata topic = .ok updates)
    (hu : u ∈ updates) (hpartition : u.partition = partition) (hid : 0 ≤ u.leaderID) :
    heir topic partition c k leader = some u.leaderID := by
  obtain ⟨pm', hpm', hfenced, helected⟩ := mem_electionUpdates hupdates hu
  rw [hpartition] at hpm'
  cases hview.symm.trans hpm'
  have hsame : (fun id : Int => decide (id ≠ leader) &&
      isBrokerEligible (c k).broker.controller.metadata.brokers id) =
      isBrokerEligible (c k).broker.controller.metadata.brokers := by
    funext id
    by_cases hleads : id = leader
    · rw [hleads, ← hleader, hfenced, Bool.and_false]
    · simp [hleads]
  unfold heir
  rw [hview, Option.bind_some, hsame]
  rw [helected] at hid ⊢
  unfold electFromReplicas at hid ⊢
  cases hfind : pm.replicas.find?
      (isBrokerEligible (c k).broker.controller.metadata.brokers) with
  | none =>
    rw [hfind] at hid
    dsimp only [Option.getD] at hid
    omega
  | some id => rfl

/-- If the replica that would be elected is in sync when a request is answered, and
no later step changes which one that is, then the record survives the leader. -/
theorem acked_survives {start : Cluster} (hstart : Started topic partition start)
    (before after : List Event) (k leader : Int) (i : ℕ) (now : Time) (offset : Int) (value : Str)
    (hvalid : Valid (step topic partition) (Careful topic partition) start
      (before ++ .poll leader i now :: after))
    (hanswered : answered topic partition (run (step topic partition) start before) leader i now =
      some (offset, value))
    (hsync : HeirInSync topic partition (run (step topic partition) start before) k leader i now)
    (hkept : Valid (step topic partition) (KeepsHeir topic partition k leader)
      (run (step topic partition) start before) (.poll leader i now :: after)) :
    Survives topic partition
      (run (step topic partition) start (before ++ .poll leader i now :: after)) k leader offset
      value := by
  obtain ⟨hbefore, hpoll, hafter⟩ := (valid_append ..).mp hvalid
  have hmid := (Started.backed hstart).run hbefore
  rw [run_append, run_cons]
  generalize run (step topic partition) start before = mid at *
  intro pm updates hview hleader hupdates u hu hpartition hid
  have hheir := elected_heir hview hleader hupdates hu hpartition hid
  have hsame := run_related (I := fun _ => True) (R := fun c c' : Cluster =>
      heir topic partition c' k leader = heir topic partition c k leader) (fun _ => rfl)
    (fun _ _ _ h h' => h'.trans h) (fun _ _ _ he => ⟨trivial, he⟩) trivial hkept
  rw [run_cons, hheir] at hsame
  obtain ⟨hoffset, hget, hagreed⟩ := answered_agreed hmid hpoll hanswered (hsync _ hsame.symm)
  have hnext := hmid.step hpoll
  have hgrow := hnext.extends_run hafter
  have hheld := hagreed.extends hgrow
  have hleaderLog := getElem?_of_prefix
    ((hmid.steady.extends hpoll.orderly.retains leader).2.trans (hgrow leader)) hget
  refine getElem?_of_prefix hheld.behind ?_
  rw [List.getElem?_take_of_lt (by omega)]
  exact hleaderLog

end Partition

/-- The peers of a broker as `bootstrapPeers` registers them. -/
def enlist (b : Int) : List Event :=
  [0, 1, 2].map (fun id => .control b 0 (.registerBroker ⟨id, lit "a", 1, 1, 1, false⟩))

def replicated (followers : List Int) : List Event :=
  enlist 2 ++ appoint 0 0 ++ produce 0 0 "x" ++
    followers.flatMap (fun f => appoint f 0 ++ reconcile f ++ cycle f 1)

def fenced : List Event := [.control 2 4 (.setBrokerFence 0 true)]

/-- Broker 2 has the record and the request is answered, but broker 1 comes first. -/
theorem acked_record_lost :
    answered (lit "orders") 0 (run (step (lit "orders") 0) (assemble defaults) (replicated [2]))
        0 0 3 = some (0, lit "x") ∧
      ¬ Survives (lit "orders") 0 (run (step (lit "orders") 0) (assemble defaults)
        (replicated [2] ++ .poll 0 0 3 :: fenced)) 2 0 0 (lit "x") := by
  refine ⟨by decide, fun h => ?_⟩
  have hlost := h ⟨0, 0, [0, 1, 2], [0, 1, 2]⟩ [⟨0, 1, [1, 2]⟩] (by decide) rfl
    (by decide) ⟨0, 1, [1, 2]⟩ (List.mem_singleton.mpr rfl) rfl (by decide)
  exact absurd hlost (by decide)

/-- A record that both followers hold survives the failover. -/
theorem acked_survives_replicated :
    answered (lit "orders") 0
        (run (step (lit "orders") 0) (assemble defaults) (replicated [1, 2])) 0 0 3 =
          some (0, lit "x") ∧
      Survives (lit "orders") 0 (run (step (lit "orders") 0) (assemble defaults)
        (replicated [1, 2] ++ .poll 0 0 3 :: fenced)) 2 0 0 (lit "x") :=
  ⟨by decide +kernel, acked_survives (assemble_started defaults (lit "orders") 0)
    (replicated [1, 2]) fenced 2 0 0 3 0 (lit "x") (by decide +kernel) (by decide +kernel)
    (by decide +kernel) (by decide +kernel)⟩

end Flux.FailoverDurability
