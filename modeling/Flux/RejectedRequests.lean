import Flux.LateChecks

/-!
What a request leaves behind when it is refused as a bad one. The handlers that
create an unknown topic do so before their last checks, and SET_PARTITION_ROLE
gives the partition its role before the control plane is asked. Every other
handler leaves everything as it was.
-/
namespace Flux.RejectedRequests

open GoRuntime GoStrings FiniteMap ReplicationManager ReplicaProgress ClusterMetadata
open Protocol Interleavings BrokerNode BrokerContracts RequestHandlers BrokerRuns
open ControllerSteps MetadataShape BadRequests LateChecks

def Standing (now : Time) (m : Manager) (topic : Str) (partition : Int) (role : Role) : Prop :=
  (partitionOf m topic partition).role = role ∧
    (recompute m.cfg now (partitionOf m topic partition)).highWatermark =
      (partitionOf m topic partition).highWatermark

def RoleHarmless (env : Surroundings) (b : Broker) (req : Request) : Prop :=
  ∀ topic partitionText roleText partition,
    req.args = [topic, partitionText, roleText] → atoi partitionText = some partition →
      (Creating b topic → Staffable b ∧ -1 ≤ b.localBrokerID ∧ 0 ≤ partition ∧
        partition < b.defaultPartitions ∧ readRole (toLower roleText) ≠ none) ∧
      ∀ md, b.controller.metadata.topics.get topic = some md →
        ∀ role, readRole (toLower roleText) = some role →
          md.partitions.get partition = none ∨ b.localBrokerID < -1 →
            Standing (env.clock 1) b.replication topic partition role

section Roles

/-- A partition that takes a role keeps everything but what its watermark and the
marks of its followers depend on. -/
theorem recompute_turned (cfg : ReplicationConfig) (now : Time) (ps : PartitionState)
    (role : Role) :
    recompute cfg now (ps.turned role) = { recompute cfg now ps with role := role } := by
  cases role with
  | leader => rfl
  | follower =>
    simp only [recompute, PartitionState.turned, FMap.mapValues_mapValues]
    rfl

theorem sameProgress_turned_iff (cfg : ReplicationConfig) (now : Time) (ps : PartitionState)
    (role : Role) :
    SameProgress ps (recompute cfg now (ps.turned role)) ↔
      ps.role = role ∧ (recompute cfg now ps).highWatermark = ps.highWatermark := by
  rw [recompute_turned]
  refine ⟨fun h => ⟨h.role.symm, h.highWatermark⟩, fun h => ⟨h.1.symm, rfl, h.2, fun id => ?_⟩⟩
  dsimp only [recompute]
  rw [FMap.get_mapValues, Option.map_map]
  rfl

def turnedTo (b : Broker) (now : Time) (topic : Str) (partition : Int) (role : Role) : Broker :=
  let turned := (partitionOf b.replication topic partition).turned role
  { b with
    replication := setPartition b.replication topic partition
      (recompute b.replication.cfg now turned) }

theorem same_turnedTo_iff (b : Broker) (now : Time) (topic : Str) (partition : Int)
    (role : Role) :
    Same b (turnedTo b now topic partition role) ↔
      Standing now b.replication topic partition role := by
  rw [Standing, ← sameProgress_turned_iff]
  unfold turnedTo
  constructor
  · intro h
    have hprogress := h.progress topic partition
    rwa [partitionOf_setPartition_self] at hprogress
  · refine fun h => ⟨rfl, rfl, rfl, fun topic' partition' => ?_⟩
    dsimp only
    by_cases hkey : (topic', partition') = (topic, partition)
    · cases hkey
      rw [partitionOf_setPartition_self]
      exact h
    · rw [partitionOf_setPartition_ne _ _ _ _ hkey]
      exact .refl _

theorem unsettable_iff {store : RaftMetadataStore} {topic : Str} {md : TopicMetadata}
    (htopic : topic ≠ []) (hmd : store.metadata.topics.get topic = some md)
    (hnatural : ∀ p pm, md.partitions.get p = some pm → 0 ≤ p) (partition leaderID : Int) :
    Unsettable store topic partition leaderID ↔
      md.partitions.get partition = none ∨ leaderID < -1 := by
  unfold Unsettable
  rw [hmd, Option.bind_some]
  constructor
  · rintro (hempty | hneg | hlow | hnone)
    · exact absurd hempty htopic
    · refine .inl ?_
      cases hpm : md.partitions.get partition with
      | none => rfl
      | some pm =>
        have hlow := hnatural partition pm hpm
        omega
    · exact .inr hlow
    · exact .inl hnone
  · rintro (hnone | hlow)
    · exact .inr (.inr (.inr hnone))
    · exact .inr (.inr (.inl hlow))

variable (env : Surroundings) (req : Request) (topic : Str) (partition : Int) (roleText : Str)

/-- SET_PARTITION_ROLE once its topic is there. -/
def assumeRole : Handler Str := do
  match ← onReplication (fun m =>
      setRole (env.clock 1) m topic partition (toLower roleText)) with
  | .error e => pure (badRequest req e)
  | .ok () => do
      let b ← Program.read id
      match ← callSetPartitionLeader (env.clock 2) topic partition b.localBrokerID
          [b.localBrokerID] with
      | .error e => pure (badRequest req e)
      | .ok _ => do
          let st ← onReplication (fun m => status env.order (env.clock 3) m topic partition)
          pure (ok req.correlationID (field "topic=" (topic ++ field " partition="
            (itoa partition ++ field " role=" (st.role.text ++ field " hw="
              (itoa st.highWatermark))))))

variable {env req topic partition roleText} {b : Broker}

theorem assumeRole_invalid (hrole : readRole (toLower roleText) = none) :
    (assumeRole env req topic partition roleText).run b =
      .ok (b, badRequest req (lit "invalid role")) := by
  have hset : (onReplication (fun m =>
      setRole (env.clock 1) m topic partition (toLower roleText))).run b =
      .ok (b, .error (lit "invalid role")) := by
    simp only [onReplication, Program.modify, Program.atomically, Program.run, setRole, hrole]
  rw [assumeRole, Program.run_bind hset]
  rfl

section Valid

variable {role : Role} (hrole : readRole (toLower roleText) = some role)

include hrole

theorem run_setRole :
    (onReplication (fun m => setRole (env.clock 1) m topic partition (toLower roleText))).run b =
      .ok (turnedTo b (env.clock 1) topic partition role, .ok ()) := by
  simp only [onReplication, Program.modify, Program.atomically, Program.run, setRole, hrole,
    turnedTo]

/-- The control plane refuses, and the role is set. -/
theorem assumeRole_refused (hwhy : Unsettable b.controller topic partition b.localBrokerID) :
    ∃ e, (assumeRole env req topic partition roleText).run b =
      .ok (turnedTo b (env.clock 1) topic partition role, badRequest req e) := by
  rcases setPartitionLeader_cases (env.clock 2) b.controller topic partition b.localBrokerID
    [b.localBrokerID] with ⟨-, e, hfail⟩ | ⟨md, p, r, htopic, hlow, hleader, hmd, hp, -⟩
  · refine ⟨e, ?_⟩
    have hread : (Program.read id : Handler Broker).run
        (turnedTo b (env.clock 1) topic partition role) =
          .ok (turnedTo b (env.clock 1) topic partition role,
            turnedTo b (env.clock 1) topic partition role) := rfl
    have hset : (callSetPartitionLeader (env.clock 2) topic partition b.localBrokerID
        [b.localBrokerID]).run (turnedTo b (env.clock 1) topic partition role) =
          .ok (turnedTo b (env.clock 1) topic partition role, .error e) := by
      have hfail' : setPartitionLeader (env.clock 2)
          (turnedTo b (env.clock 1) topic partition role).controller topic partition
            b.localBrokerID [b.localBrokerID] = (b.controller, .error e) := hfail
      simp only [callSetPartitionLeader, onController, Program.modify, Program.atomically,
        Program.run, hfail']
      rfl
    rw [assumeRole, Program.run_bind (run_setRole hrole)]
    refine (Program.run_bind hread).trans ((Program.run_bind hset).trans rfl)
  · rcases hwhy with hempty | hneg | hless | hnone
    · exact absurd hempty htopic
    · omega
    · omega
    · rw [hmd, Option.bind_some, hp] at hnone
      cases hnone

/-- A change of role that the controller accepts is not refused. -/
theorem assumeRole_accepted (hwhy : ¬ Unsettable b.controller topic partition b.localBrokerID) :
    Program.Yields (fun _ response => ¬ Bad req response)
      (assumeRole env req topic partition roleText) b := by
  have hturned : Program.Yields (fun b' r => r = .ok () ∧ b'.controller = b.controller ∧
      b'.localBrokerID = b.localBrokerID) (onReplication (fun m =>
        setRole (env.clock 1) m topic partition (toLower roleText))) b := by
    refine Program.yields_modify ?_
    dsimp only
    rw [setRole, hrole]
    exact ⟨rfl, rfl, rfl⟩
  refine Program.upholds_bind hturned ?_
  rintro b' r ⟨rfl, hcontroller, hlocal⟩
  refine Program.yields_read_bind ?_
  dsimp only [id]
  rw [hlocal]
  rcases setPartitionLeader_cases (env.clock 2) b'.controller topic partition b.localBrokerID
    [b.localBrokerID] with ⟨hwhy', -⟩ | ⟨md, p, r, -, -, -, -, -, hdone⟩
  · rw [hcontroller] at hwhy'
    exact absurd hwhy' hwhy
  · have hled : Program.Yields (fun _ r => ∃ a, r = .ok a) (callSetPartitionLeader (env.clock 2)
        topic partition b.localBrokerID [b.localBrokerID]) b' := yields_onController hdone ⟨r, rfl⟩
    refine Program.upholds_bind hled ?_
    rintro b'' r ⟨a, rfl⟩
    exact good_bind (fun st => good_ok _) b''

end Valid

/-- SET_PARTITION_ROLE of a known topic. -/
theorem assumeRole_unharmed_iff (hshape : WellFormed b.controller.metadata) {md : TopicMetadata}
    (hmd : b.controller.metadata.topics.get topic = some md) :
    Unharmed req (assumeRole env req topic partition roleText) b ↔
      ∀ role, readRole (toLower roleText) = some role →
        md.partitions.get partition = none ∨ b.localBrokerID < -1 →
          Standing (env.clock 1) b.replication topic partition role := by
  have htopic : topic ≠ [] := by
    rintro rfl
    rw [hshape.named] at hmd
    cases hmd
  have hwhy := unsettable_iff htopic hmd
    (fun p pm hpm => hshape.natural topic md hmd p ((FMap.mem_keys_iff _ _).mpr ⟨pm, hpm⟩))
    partition b.localBrokerID
  cases hrole : readRole (toLower roleText) with
  | none =>
    refine iff_of_true (fun b' response hrun _ => ?_) nofun
    rw [assumeRole_invalid hrole] at hrun
    cases hrun
    exact .refl b
  | some role =>
    by_cases hunsettable : Unsettable b.controller topic partition b.localBrokerID
    · have hrefused : ∃ e, (assumeRole env req topic partition roleText).run b =
          .ok (turnedTo b (env.clock 1) topic partition role, badRequest req e) :=
        assumeRole_refused hrole hunsettable
      obtain ⟨e, hrun⟩ := hrefused
      constructor
      · intro h role' hrole' _
        cases hrole'
        exact (same_turnedTo_iff b _ topic partition role).mp (h _ _ hrun ⟨e, rfl⟩)
      · intro h b' response hrun' _
        rw [hrun] at hrun'
        cases hrun'
        exact (same_turnedTo_iff b _ topic partition role).mpr (h role rfl (hwhy.mp hunsettable))
    · refine iff_of_true (fun b' response hrun hbad => ?_)
        (fun _ _ hmissing => absurd (hwhy.mpr hmissing) hunsettable)
      exact absurd hbad ((assumeRole_accepted hrole hunsettable).run hrun)

end Roles

/-- When a refused change of role does no harm. -/
theorem role_unharmed_iff (env : Surroundings) {b : Broker} {req : Request}
    (hshape : WellFormed b.controller.metadata) :
    Unharmed req (handleSetPartitionRole env req) b ↔ RoleHarmless env b req := by
  unfold handleSetPartitionRole RoleHarmless
  split
  · rename_i topic partitionText roleText hargs
    refine (unharmed_withInt_iff partitionText "partition" (fun partition _ =>
      unharmed_ensure_iff env hshape (-1 ≤ b.localBrokerID ∧ 0 ≤ partition ∧
          partition < b.defaultPartitions ∧ readRole (toLower roleText) ≠ none) _ (fun _ => rfl)
        (fun md hmd => assumeRole_unharmed_iff hshape hmd) ?_ ?_)).trans ?_
    · rintro hcreating ⟨hlocal, hlow, hhigh, hrole⟩ b' md hfresh
      obtain ⟨role, hrole⟩ := Option.ne_none_iff_exists'.mp hrole
      obtain ⟨pm, hpm⟩ := (hfresh.partitions partition).mpr ⟨hlow, hhigh⟩
      refine assumeRole_accepted hrole (fun hwhy => ?_)
      rw [unsettable_iff hcreating.2.1 hfresh.stored
        (fun p pm hpm => ((hfresh.partitions p).mp ⟨pm, hpm⟩).1), hpm, hfresh.local_eq] at hwhy
      rcases hwhy with hnone | hless
      · cases hnone
      · omega
    · intro hcreating hnot b' md hfresh
      show ∃ c response, (assumeRole env req topic partition roleText).run b' = _ ∧ _
      cases hrole : readRole (toLower roleText) with
      | none => exact ⟨b', _, assumeRole_invalid hrole, ⟨_, rfl⟩, rfl⟩
      | some role =>
        have hwhy : Unsettable b'.controller topic partition b'.localBrokerID := by
          rw [unsettable_iff hcreating.2.1 hfresh.stored
            (fun p pm hpm => ((hfresh.partitions p).mp ⟨pm, hpm⟩).1), hfresh.local_eq]
          by_cases hlocal : b.localBrokerID < -1
          · exact .inr hlocal
          · refine .inl ?_
            cases hpm : md.partitions.get partition with
            | none => rfl
            | some pm =>
              obtain ⟨hlow, hhigh⟩ := (hfresh.partitions partition).mp ⟨pm, hpm⟩
              exact absurd ⟨by omega, hlow, hhigh, by rw [hrole]; exact Option.some_ne_none _⟩ hnot
        obtain ⟨e, hrun⟩ := assumeRole_refused hrole hwhy
        exact ⟨_, _, hrun, ⟨e, rfl⟩, rfl⟩
    · constructor
      · intro h _ _ _ partition hargs' hpartition
        cases hargs.symm.trans hargs'
        exact h partition hpartition
      · exact fun h partition hpartition =>
          h topic partitionText roleText partition hargs hpartition
  · rename_i hnot
    exact iff_of_true (unharmed_of_quiet (quiet_pure _))
      (fun topic partitionText roleText _ hargs =>
        absurd hargs (hnot topic partitionText roleText))

/-- The requests that change nothing if they are refused as bad ones. -/
def Harmless (env : Surroundings) (b : Broker) (req : Request) : Prop :=
  (req.command = lit "PRODUCE" → ProduceHarmless b req) ∧
  (req.command = lit "CONSUME" → ConsumeHarmless b req) ∧
  (req.command = lit "SET_PARTITION_ROLE" → RoleHarmless env b req)

/-- Every other request. -/
theorem others_quiet (env : Surroundings) {req : Request} {b : Broker}
    (hshape : WellFormed b.controller.metadata) (hproduce : req.command ≠ lit "PRODUCE")
    (hconsume : req.command ≠ lit "CONSUME") (hrole : req.command ≠ lit "SET_PARTITION_ROLE") :
    Quiet req (handleRequest env req) b := by
  have hmember : ∀ (usage : String) {α : Type}
      (op : Str → Str → Str → Int → Handler (Except Groups.GroupError α)) (render : α → Str),
      Quiet req (memberRequest req usage (fun groupName topic consumerID generation =>
        op groupName topic consumerID generation >>= groupAnswer req render)) b :=
    fun usage _ _ render => quiet_memberRequest req b usage
      (fun _ _ _ _ => good_bind (fun result => good_groupAnswer render result))
  rw [handleRequest, if_neg hproduce, if_neg hconsume]
  refine quiet_ite (quiet_handleJoin env req b) ?_
  refine quiet_ite (hmember _ _ _) (quiet_ite (hmember _ _ _) (quiet_ite (hmember _ _ _) ?_))
  refine quiet_ite (quiet_handleCommit env req b) (quiet_ite (quiet_handleOffset req b) ?_)
  refine quiet_ite (quiet_ackRequest env req b _ _ _ _) ?_
  refine quiet_ite (quiet_handleBrokerFetch env req b) ?_
  refine quiet_ite (quiet_ackRequest env req b _ _ _ _) ?_
  rw [if_neg hrole]
  refine quiet_ite (quiet_handleAdminCreateTopic env req b) ?_
  refine quiet_ite (quiet_handleAdminRegisterBroker env req b) ?_
  refine quiet_ite (quiet_brokerRequest req b _ _ (heartbeatBroker_error _)) ?_
  refine quiet_ite (quiet_handleAdminReconcileBrokerHealth env req hshape) ?_
  refine quiet_ite (quiet_brokerRequest req b _ _ (setBrokerFence_error _ _)) ?_
  refine quiet_ite (quiet_brokerRequest req b _ _ (setBrokerFence_error _ _)) ?_
  refine quiet_ite (quiet_handleAdminSetPartitionLeader env req b) ?_
  refine quiet_ite (quiet_handleAdminElectTopicLeaders env req hshape) ?_
  refine quiet_ite (quiet_ite (quiet_pure _) (good_bind (fun s => good_ok _)).quiet) ?_
  exact quiet_pure _

/-- A request that is refused as a bad one has changed nothing, from whatever state
the broker is in, just when it is a harmless one. -/
theorem rejected_unharmed_iff {b : Broker} (hreached : Reached b) (env : Surroundings)
    (req : Request) : Unharmed req (handleRequest env req) b ↔ Harmless env b req := by
  have hshape := hreached.wellFormed
  by_cases hproduce : req.command = lit "PRODUCE"
  · rw [handleRequest, if_pos hproduce, produce_unharmed_iff env hshape, Harmless, hproduce]
    exact ⟨fun h => ⟨fun _ => h, fun heq => absurd heq (by decide),
      fun heq => absurd heq (by decide)⟩, fun h => h.1 rfl⟩
  · by_cases hconsume : req.command = lit "CONSUME"
    · rw [handleRequest, if_neg hproduce, if_pos hconsume, consume_unharmed_iff env hshape,
        Harmless, hconsume]
      exact ⟨fun h => ⟨fun heq => absurd heq (by decide), fun _ => h,
        fun heq => absurd heq (by decide)⟩, fun h => h.2.1 rfl⟩
    · by_cases hrole : req.command = lit "SET_PARTITION_ROLE"
      · have hrequest : handleRequest env req = handleSetPartitionRole env req := by
          rw [handleRequest, hrole]
          rfl
        rw [hrequest, role_unharmed_iff env hshape, Harmless, hrole]
        exact ⟨fun h => ⟨fun heq => absurd heq (by decide),
          fun heq => absurd heq (by decide), fun _ => h⟩, fun h => h.2.2 rfl⟩
      · exact iff_of_true (unharmed_of_quiet (others_quiet env hshape hproduce hconsume hrole))
          ⟨fun heq => absurd heq hproduce, fun heq => absurd heq hconsume,
            fun heq => absurd heq hrole⟩

theorem reached_alone : Reached aloneBroker :=
  ⟨quiet, BrokerRuns.alone, [], 0, FMap.empty, .holds FMap.empty, ⟨FMap.empty⟩, [], _, rfl, rfl⟩

theorem rejected_unharmed_alone :
    Reached aloneBroker ∧ ∀ env req,
      Unharmed req (handleRequest env req) aloneBroker ↔ Harmless env aloneBroker req :=
  ⟨reached_alone, rejected_unharmed_iff reached_alone⟩

def misdirected : Request := ⟨lit "V1", lit "1", lit "CONSUME", [lit "orders", lit "7", lit "0"]⟩

/-- The request is refused, and the topic has been created. -/
theorem rejected_consume_creates :
    Reached aloneBroker ∧ ¬ Unharmed misdirected (handleRequest quiet misdirected) aloneBroker := by
  refine ⟨reached_alone, fun h => ?_⟩
  have hrefused : ((handleRequest quiet misdirected).run aloneBroker).toOption.map
      (fun r => (r.2, r.1.controller.index)) =
        some (badRequest misdirected (lit "invalid partition"),
          aloneBroker.controller.index + 2) := by decide
  cases hrun : (handleRequest quiet misdirected).run aloneBroker with
  | error e =>
    rw [hrun] at hrefused
    cases hrefused
  | ok r =>
    rw [hrun] at hrefused
    have hpair := Option.some.inj hrefused
    have hresponse : r.2 = badRequest misdirected (lit "invalid partition") :=
      congrArg Prod.fst hpair
    have hindex : r.1.controller.index = aloneBroker.controller.index + 2 := congrArg Prod.snd hpair
    rw [(h r.1 r.2 hrun ⟨_, hresponse⟩).controller] at hindex
    omega

end Flux.RejectedRequests
