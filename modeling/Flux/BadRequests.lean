import Flux.LeaderElections
import Flux.ReplicaProgress
import Flux.TopicCreation

/-!
The answer BAD_REQUEST. A handler that gives it has not touched a component, or
its one call has failed without a change. The handlers that create an unknown
topic are left to a module of their own.
-/
namespace Flux.BadRequests

open GoRuntime GoStrings FiniteMap ReplicationManager ReplicaProgress
open ClusterMetadata Protocol Interleavings BrokerNode BrokerContracts RequestHandlers
open ControllerSteps TopicCreation MetadataShape LeaderElections

variable {c : Prop} {p q : Handler Str} {n partition : Int} {md : TopicMetadata}

def Bad (req : Request) (response : Str) : Prop := ∃ message, response = badRequest req message

structure SameProgress (ps ps' : PartitionState) : Prop where
  role : ps'.role = ps.role
  leaderOffset : ps'.leaderOffset = ps.leaderOffset
  highWatermark : ps'.highWatermark = ps.highWatermark
  followers : ∀ id, (ps'.followers.get id).map ReplicaState.offset =
    (ps.followers.get id).map ReplicaState.offset

structure Same (b b' : Broker) : Prop where
  storage : b'.storage = b.storage
  controller : b'.controller = b.controller
  coordinator : b'.coordinator = b.coordinator
  progress : ∀ topic partition, SameProgress (partitionOf b.replication topic partition)
    (partitionOf b'.replication topic partition)

theorem SameProgress.refl (ps : PartitionState) : SameProgress ps ps :=
  ⟨rfl, rfl, rfl, fun _ => rfl⟩

theorem Same.refl (b : Broker) : Same b b := ⟨rfl, rfl, rfl, fun _ _ => .refl _⟩

/-- If the request is refused as a bad one, nothing has changed. -/
def Unharmed (req : Request) (p : Handler Str) (b : Broker) : Prop :=
  ∀ b' response, p.run b = .ok (b', response) → Bad req response → Same b b'

section Responses

variable (req : Request)

theorem not_bad_ok (payload : Str) : ¬ Bad req (ok req.correlationID payload) := by
  rintro ⟨message, h⟩
  exact ok_ne_err _ _ _ _ h

theorem not_bad_err {code : String} {c : UInt8} (hcode : (lit code).head? = some c) (hc : c ≠ 66)
    (message : Str) : ¬ Bad req (err req.correlationID (lit code) message) := by
  rintro ⟨message', h⟩
  simp only [badRequest, err, List.append_cancel_left_eq, List.cons.injEq, true_and] at h
  have hhead := congrArg List.head? h
  rw [List.head?_append, hcode] at hhead
  exact hc (Option.some.inj hhead)

end Responses

abbrev Quiet (req : Request) (p : Handler Str) (b : Broker) : Prop :=
  Program.Yields (fun b' response => Bad req response → Same b b') p b

abbrev Good (req : Request) (p : Handler Str) : Prop :=
  ∀ b, Program.Yields (fun _ response => ¬ Bad req response) p b

section Rules

variable {req : Request} {α : Type} {b : Broker}

theorem quiet_pure (response : Str) : Quiet req (pure response) b := fun _ => .refl b

theorem unharmed_of_quiet (h : Quiet req p b) : Unharmed req p b :=
  fun _ _ hrun => h.run hrun

theorem good_ok (payload : Str) : Good req (pure (ok req.correlationID payload)) :=
  fun _ => not_bad_ok req payload

theorem good_notLeader : Good req (pure (notLeader req)) :=
  fun _ => not_bad_err req (c := 78) (by decide) (by decide) _

theorem good_bind {p : Handler α} {k : α → Handler Str} (hk : ∀ a, Good req (k a)) :
    Good req (p >>= k) :=
  fun b => Program.upholds_bind (Program.yields_trivial p b) (fun b' a _ => hk a b')

theorem good_ite [Decidable c] (hp : Good req p) (hq : Good req q) :
    Good req (if c then p else q) := by
  split
  · exact hp
  · exact hq

theorem Good.quiet (hp : Good req p) : Quiet req p b :=
  (hp b).weaken (fun _ _ hgood hbad => absurd hbad hgood)

theorem quiet_ite [Decidable c] (hp : Quiet req p b) (hq : Quiet req q b) :
    Quiet req (if c then p else q) b := by
  split
  · exact hp
  · exact hq

theorem quiet_withInt (value : Str) (field : String) {next : Int → Handler Str}
    (hnext : ∀ n, Quiet req (next n) b) : Quiet req (withInt req value field next) b := by
  unfold withInt
  split
  · exact quiet_pure _
  · exact hnext _

theorem good_groupAnswer (render : α → Str) (r : Except Groups.GroupError α) :
    Good req (groupAnswer req render r) := by
  intro b
  cases r with
  | error e => exact not_bad_err req (c := 71) (by decide) (by decide) _
  | ok a => exact not_bad_ok req _

/-- A call that fails without a change, and then the answer. -/
theorem quiet_answer {p : Handler (Except Str α)} (code : String) (render : α → Str)
    (hp : Program.Yields (fun b' r => ∀ e, r = .error e → b' = b) p b) :
    Quiet req (p >>= answer req code render) b := by
  refine Program.upholds_bind hp (fun b' r hr => ?_)
  cases r with
  | error e =>
    rw [hr e rfl]
    exact quiet_pure _
  | ok a => exact fun hbad => absurd hbad (not_bad_ok req _)

theorem fails_onController {op : RaftMetadataStore → RaftMetadataStore × Except Str ApplyResult}
    (hop : ∀ store e, (op store).2 = .error e → (op store).1 = store) :
    Program.Yields (fun b' r => ∀ e, r = .error e → b' = b) (onController op) b := by
  refine Program.yields_modify (fun e he => ?_)
  dsimp only at he ⊢
  rw [hop b.controller e he]

theorem fails_callCreateTopic (now : Time) (topic : Str) (partitions replicationFactor : Int) :
    Program.Yields (fun b' r => ∀ e, r = .error e → b' = b)
      (callCreateTopic now topic partitions replicationFactor) b := by
  refine Program.yields_atomically (fun b' r hop e he => ?_)
  cases hcreate : createTopic now b.controller topic partitions replicationFactor with
  | error e =>
    rw [hcreate] at hop
    cases hop
  | ok created =>
    rw [hcreate] at hop
    cases hop
    rcases createTopic_cases hcreate with ⟨-, e', rfl⟩ | ⟨-, result, rfl⟩
    · rfl
    · cases he

end Rules

section Handlers

variable (env : Surroundings) (req : Request) (b : Broker)

theorem quiet_handleJoin : Quiet req (handleJoin env req) b := by
  unfold handleJoin
  split
  · refine quiet_ite (quiet_pure _) ?_
    split
    · exact quiet_pure _
    · exact (good_bind (fun result => good_ok _)).quiet
  · exact quiet_pure _

theorem quiet_memberRequest (usage : String) {next : Str → Str → Str → Int → Handler Str}
    (hnext : ∀ groupName topic consumerID generation,
      Good req (next groupName topic consumerID generation)) :
    Quiet req (memberRequest req usage next) b := by
  unfold memberRequest
  split
  · exact quiet_withInt _ _ (fun generation => (hnext _ _ _ generation).quiet)
  · exact quiet_pure _

theorem quiet_handleCommit : Quiet req (handleCommit env req) b := by
  unfold handleCommit
  split
  · refine quiet_withInt _ _ (fun generation => quiet_withInt _ _ (fun partition => ?_))
    refine quiet_withInt _ _ (fun offset => (good_bind (fun result => ?_)).quiet)
    cases result with
    | error e => exact fun _ => not_bad_err req (c := 71) (by decide) (by decide) _
    | ok u => exact good_bind (fun _ => good_ok _)
  · exact quiet_pure _

theorem quiet_handleOffset : Quiet req (handleOffset req) b := by
  unfold handleOffset
  split
  · exact quiet_withInt _ _ (fun partition => (good_bind (fun offset => good_ok _)).quiet)
  · exact quiet_pure _

/-- An acknowledgement that fails leaves every partition as it reads. -/
theorem ackReplica_error {seen now : Time} {m : Manager} {topic : Str} {replicaID offset : Int}
    {e : Str} (h : (ackReplica seen now m topic partition replicaID offset).2 = .error e)
    (topic' : Str) (partition' : Int) :
    partitionOf (ackReplica seen now m topic partition replicaID offset).1 topic' partition' =
      partitionOf m topic' partition' := by
  have hsame : ∀ topic' partition', partitionOf (setPartition m topic partition
      (partitionOf m topic partition)) topic' partition' = partitionOf m topic' partition' := by
    intro topic' partition'
    by_cases hkey : (topic', partition') = (topic, partition)
    · cases hkey
      exact partitionOf_setPartition_self m topic partition _
    · exact partitionOf_setPartition_ne m topic partition _ hkey
  unfold ackReplica at h ⊢
  split at h
  · rename_i hinvalid
    rw [if_pos hinvalid]
  · rename_i hvalid
    rw [if_neg hvalid]
    dsimp only at h ⊢
    cases hrole : (partitionOf m topic partition).role with
    | follower => exact hsame topic' partition'
    | leader =>
      rw [hrole] at h
      dsimp only at h ⊢
      cases hget : (partitionOf m topic partition).followers.get replicaID with
      | none => exact hsame topic' partition'
      | some r =>
        rw [hget] at h
        cases h

theorem quiet_ackRequest (usage idField offsetField : String)
    (render : Str → Int → Int → Int → Str) :
    Quiet req (ackRequest env req usage idField offsetField render) b := by
  unfold ackRequest
  split
  · rename_i topic partitionText idText offsetText hargs
    refine quiet_withInt _ _ (fun partition => quiet_withInt _ _ (fun replicaID => ?_))
    refine quiet_withInt _ _ (fun offset => ?_)
    have hacked : Program.Yields (fun b' r => ∀ e, r = .error e → Same b b')
        (onReplication (fun m =>
          ackReplica (env.clock 0) (env.clock 1) m topic partition replicaID offset)) b := by
      refine Program.yields_modify (fun e he => ⟨rfl, rfl, rfl, fun topic' partition' => ?_⟩)
      dsimp only
      rw [ackReplica_error he]
      exact .refl _
    refine Program.upholds_bind hacked (fun b' r hr => ?_)
    cases r with
    | error e => exact fun _ => hr e rfl
    | ok u => exact (good_bind (fun st => good_ok _) b').weaken (fun _ _ h hbad => absurd hbad h)
  · exact quiet_pure _

theorem good_fetchFrom (topic : Str) (partition followerID offset maxMessages : Int) :
    Good req (fetchFrom env req topic partition followerID offset maxMessages) :=
  good_bind (fun _ => good_ite (good_bind (fun _ => good_bind (fun _ => good_ok _)))
    good_notLeader)

theorem quiet_handleBrokerFetch : Quiet req (handleBrokerFetch env req) b := by
  unfold handleBrokerFetch
  split
  · refine quiet_ite (quiet_pure _) ?_
    refine quiet_withInt _ _ (fun partition => quiet_withInt _ _ (fun followerID => ?_))
    refine quiet_withInt _ _ (fun offset => ?_)
    split
    · exact (good_fetchFrom env req _ _ _ _ _).quiet
    · exact quiet_withInt _ _ (fun maxMessages =>
        quiet_ite (quiet_pure _) (good_fetchFrom env req _ _ _ _ _).quiet)
  · exact quiet_pure _

theorem quiet_handleAdminCreateTopic : Quiet req (handleAdminCreateTopic env req) b := by
  unfold handleAdminCreateTopic
  split
  · exact quiet_withInt _ _ (fun partitions => quiet_withInt _ _ (fun replicationFactor =>
      quiet_answer _ _ (fails_callCreateTopic _ _ _ _)))
  · exact quiet_pure _

theorem quiet_handleAdminRegisterBroker : Quiet req (handleAdminRegisterBroker env req) b := by
  unfold handleAdminRegisterBroker
  split
  · refine quiet_ite (quiet_pure _) ?_
    refine quiet_withInt _ _ (fun brokerID => quiet_withInt _ _ (fun port => ?_))
    split
    · exact quiet_pure _
    · refine quiet_answer _ _ (fails_onController (fun store e he => ?_))
      rcases registerBroker_cases (env.clock 0) store brokerID _ port _ with
        ⟨e', hfail⟩ | ⟨r, -, hdone⟩
      · rw [hfail]
      · rw [hdone] at he
        cases he
  · exact quiet_pure _

theorem quiet_brokerRequest (usage label : String)
    {change : Int → RaftMetadataStore → RaftMetadataStore × Except Str ApplyResult}
    (hchange : ∀ id store e, (change id store).2 = .error e → (change id store).1 = store) :
    Quiet req (brokerRequest req usage label change) b := by
  unfold brokerRequest
  split
  · exact quiet_withInt _ _ (fun brokerID =>
      quiet_answer _ _ (fails_onController (hchange brokerID)))
  · exact quiet_pure _

theorem heartbeatBroker_error (now : Time) (id : Int) (store : RaftMetadataStore) (e : Str)
    (h : (heartbeatBroker now store id).2 = .error e) :
    (heartbeatBroker now store id).1 = store := by
  rcases heartbeatBroker_cases now store id with ⟨e', hfail⟩ | ⟨broker, r, -, hdone⟩
  · rw [hfail]
  · rw [hdone] at h
    cases h

theorem setBrokerFence_error (now : Time) (fenced : Bool) (id : Int) (store : RaftMetadataStore)
    (e : Str) (h : (setBrokerFence now store id fenced).2 = .error e) :
    (setBrokerFence now store id fenced).1 = store := by
  rcases setBrokerFence_cases now store id fenced with ⟨e', hfail⟩ | ⟨broker, r, -, hdone⟩
  · rw [hfail]
  · rw [hdone] at h
    cases h

theorem quiet_handleAdminSetPartitionLeader :
    Quiet req (handleAdminSetPartitionLeader env req) b := by
  unfold handleAdminSetPartitionLeader
  split
  · refine quiet_withInt _ _ (fun partition => quiet_withInt _ _ (fun leaderID => ?_))
    split
    · exact quiet_pure _
    · refine quiet_answer _ _ (fails_onController (fun store e he => ?_))
      rcases setPartitionLeader_cases (env.clock 0) store _ partition leaderID _ with
        ⟨-, e', hfail⟩ | ⟨md, p, r, -, -, -, -, -, hdone⟩
      · rw [hfail]
      · rw [hdone] at he
        cases he
  · exact quiet_pure _

variable {b} (hshape : WellFormed b.controller.metadata)

include hshape

theorem quiet_handleAdminReconcileBrokerHealth :
    Quiet req (handleAdminReconcileBrokerHealth env req) b := by
  unfold handleAdminReconcileBrokerHealth
  split
  · exact quiet_withInt _ _ (fun timeoutMs =>
      quiet_answer _ _ (reconcileBrokerHealth_fails env _ hshape.enrolled))
  · exact quiet_pure _

theorem quiet_handleAdminElectTopicLeaders :
    Quiet req (handleAdminElectTopicLeaders env req) b := by
  unfold handleAdminElectTopicLeaders
  split
  · rename_i topic hargs
    refine quiet_answer _ _ ?_
    cases hmd : b.controller.metadata.topics.get topic with
    | none => exact (electTopicLeaders_unknown env hmd).weaken (fun b' r hr e _ => hr.1)
    | some md =>
      refine (electTopicLeaders_settles env hshape hmd).weaken (fun b' r hr e he => ?_)
      cases he
      exact hr.elim
  · exact quiet_pure _

end Handlers

section Produce

variable (env : Surroundings) (req : Request)

theorem good_appendAsLeader (mode : AckMode) (topic : Str) (partition : Int) (value : Str) :
    Good req (appendAsLeader env req mode topic partition value) := by
  refine good_bind (fun produced => good_bind (fun _ => good_bind (fun waited => ?_)))
  cases waited with
  | error e => exact fun _ => not_bad_err req (c := 82) (by decide) (by decide) _
  | ok u => exact good_bind (fun hw => good_ok _)

theorem good_toLeader (mode : AckMode) (topic value : Str) (partition : Int)
    (pm : PartitionMetadata) :
    Good req (do
      let b ← (Program.read id : Handler Broker)
      if pm.leaderID ≠ b.localBrokerID then pure (notLeader req)
      else do
        let leads ← onReplication (fun m => isLeader m topic partition)
        if leads then appendAsLeader env req mode topic partition value
        else pure (notLeader req)) :=
  good_bind (fun _ => good_ite good_notLeader
    (good_bind (fun _ => good_ite (good_appendAsLeader env req mode topic partition value)
      good_notLeader)))

theorem quiet_produceTo (mode : AckMode) (topic key value : Str) (md : TopicMetadata)
    (b : Broker) : Quiet req (produceTo env req mode topic key value md) b := by
  have hcompute : Program.Yields (fun b' _ => b' = b)
      (compute (PartitionStorage.getPartition key md.partitions.keys.length)) b :=
    yields_compute (fun _ _ => rfl)
  refine Program.upholds_bind hcompute ?_
  rintro b' partition rfl
  cases md.partitions.get partition with
  | none => exact quiet_pure _
  | some pm => exact (good_toLeader env req mode topic value partition pm).quiet

/-- Every key falls on a partition of a topic that numbers them from zero. -/
theorem getPartition_mem (hn : 0 < n)
    (hkeys : ∀ p, (∃ pm, md.partitions.get p = some pm) ↔ 0 ≤ p ∧ p < n) {key : Str}
    (h : PartitionStorage.getPartition key md.partitions.keys.length = .ok partition) :
    ∃ pm, md.partitions.get partition = some pm := by
  have hperm : md.partitions.keys.Perm (firstIDs n) := by
    refine (List.perm_ext_iff_of_nodup (FMap.keys_nodup _) ?_).mpr (fun p => ?_)
    · exact List.Nodup.map Nat.cast_injective List.nodup_range
    · rw [mem_firstIDs, FMap.mem_keys_iff, hkeys]
  have hlen : (md.partitions.keys.length : Int) = n := by
    rw [hperm.length_eq, firstIDs, List.length_map, List.length_range]
    omega
  rw [hlen] at h
  unfold PartitionStorage.getPartition goMod at h
  rw [if_neg (by omega)] at h
  cases h
  exact (hkeys _).mpr ⟨Int.tmod_nonneg n (by omega), Int.tmod_lt_of_pos _ hn⟩

theorem good_produceTo (hn : 0 < n)
    (hkeys : ∀ p, (∃ pm, md.partitions.get p = some pm) ↔ 0 ≤ p ∧ p < n) (mode : AckMode)
    (topic key value : Str) : Good req (produceTo env req mode topic key value md) := by
  intro b
  have hcompute : Program.Yields (fun _ partition => ∃ pm, md.partitions.get partition = some pm)
      (compute (PartitionStorage.getPartition key md.partitions.keys.length)) b :=
    yields_compute (fun _ h => getPartition_mem hn hkeys h)
  refine Program.upholds_bind hcompute ?_
  rintro b' partition ⟨pm, hpm⟩
  rw [hpm]
  exact good_toLeader env req mode topic value partition pm b'

end Produce

end Flux.BadRequests
