import Flux.RejectedRequests
import Flux.RoleFailover

/-!
The two records of leadership: the leader in the metadata and the role in the
replication manager. Three steps write them, and each leaves some partitions
alone, so the records agree afterwards only under a condition on the state before
the step.
-/
namespace Flux.LeadershipRecords

open GoRuntime GoStrings FiniteMap ReplicationManager ClusterMetadata Protocol Interleavings
open BrokerNode BrokerContracts ClusterRuntime RequestHandlers BrokerRuns ControllerSteps
open TopicCreation LeaderAgreement MetadataShape LeaderElections BadRequests LateChecks
open RejectedRequests RoleReconciliation RoleFailover

variable {tick : Tick} {partitionText : Str}

def AgreesAt (b : Broker) (topic : Str) (partition : Int) (pm : PartitionMetadata) : Prop :=
  roleOf b topic partition = .leader ↔ pm.leaderID = b.localBrokerID

def Agrees (b : Broker) : Prop :=
  ∀ topic partition pm, Listed b.controller.metadata topic partition pm →
    AgreesAt b topic partition pm

/-- SET_PARTITION_ROLE makes the records agree if it makes this broker the leader
and they agree on all other partitions, those of a topic it creates among them. -/
def RoleAgrees (env : Surroundings) (b : Broker) (topic : Str) (partition : Int) (role : Role) :
    Prop :=
  role = .leader ∧
  (∀ t p pm, Listed b.controller.metadata t p pm → (t, p) ≠ (topic, partition) →
    AgreesAt b t p pm) ∧
  (b.controller.metadata.topics.get topic = none →
    ∀ p, 0 ≤ p → p < b.defaultPartitions → p ≠ partition →
      (roleOf b topic p = .leader ↔ dealt (candidates env b) p = b.localBrokerID))

/-- A reconcile leaves alone the partitions without a leader and those this broker
does not replicate. -/
def ReconcileAgrees (b : Broker) : Prop :=
  ∀ topic partition pm, Listed b.controller.metadata topic partition pm →
    pm.leaderID ≠ b.localBrokerID → b.localBrokerID ∉ pm.replicas ∨ pm.leaderID < 0 →
      roleOf b topic partition = .follower

/-- A failover makes this broker the leader of what it led before the election. -/
def FailoverAgrees (b : Broker) (leaderID : Int) : Prop :=
  ∀ topic partition pm, Listed b.controller.metadata topic partition pm →
    (pm.leaderID = b.localBrokerID ∨ roleOf b topic partition = .leader ↔
      successor b.controller.metadata leaderID pm = b.localBrokerID)

/-- The role that a partition has is the one a reconcile gives it. -/
def Steady (b : Broker) (topic : Str) (partition : Int) (pm : PartitionMetadata) : Prop :=
  (pm.leaderID = b.localBrokerID → roleOf b topic partition = .leader) ∧
  (pm.leaderID ≠ b.localBrokerID → b.localBrokerID ∈ pm.replicas → 0 ≤ pm.leaderID →
    roleOf b topic partition = .follower)

section Runtime

variable {b b' : Broker}

/-- When a reconciliation leaves the records in agreement. -/
theorem reconcile_agrees_iff (hrun : (reconcileRoles tick).run b = .ok (b', ())) :
    Agrees b' ↔ ReconcileAgrees b := by
  obtain ⟨htopics, hlocal, hroles⟩ := (yields_reconcileRoles tick b).run hrun
  have hlisted : ∀ t p pm, Listed b'.controller.metadata t p pm ↔
      Listed b.controller.metadata t p pm := by
    intro t p pm
    unfold Listed
    rw [htopics]
  unfold Agrees ReconcileAgrees AgreesAt
  refine forall_congr' (fun t => forall_congr' (fun p => forall_congr' (fun pm => ?_)))
  rw [hlisted, hlocal]
  refine imp_congr_right (fun h => ?_)
  rw [hroles t p pm h, reconciled]
  by_cases hleads : pm.leaderID = b.localBrokerID
  · simp [hleads]
  · by_cases hstranger : b.localBrokerID ∉ pm.replicas ∨ pm.leaderID < 0
    · cases hrole : roleOf b t p with
      | leader => simp [hleads, hstranger]
      | follower => simp [hleads]
    · simp [hleads, hstranger]

/-- When a reconciliation leaves the role of a partition alone. -/
theorem reconcile_keeps_iff (hrun : (reconcileRoles tick).run b = .ok (b', ())) {topic : Str}
    {partition : Int} {pm : PartitionMetadata}
    (h : Listed b.controller.metadata topic partition pm) :
    roleOf b' topic partition = roleOf b topic partition ↔ Steady b topic partition pm := by
  obtain ⟨-, -, hroles⟩ := (yields_reconcileRoles tick b).run hrun
  rw [hroles topic partition pm h, reconciled, Steady]
  by_cases hleads : pm.leaderID = b.localBrokerID
  · simp [hleads, eq_comm]
  · by_cases hstranger : b.localBrokerID ∉ pm.replicas ∨ pm.leaderID < 0
    · rw [if_neg hleads, if_pos hstranger]
      refine iff_of_true rfl ⟨fun heq => absurd heq hleads, fun _ hmem hlow => ?_⟩
      rcases hstranger with hnot | hneg
      · exact absurd hmem hnot
      · omega
    · rw [if_neg hleads, if_neg hstranger]
      obtain ⟨hmem, hlow⟩ := not_or.mp hstranger
      exact ⟨fun heq => ⟨fun hk => absurd hk hleads, fun _ _ _ => heq.symm⟩,
        fun hk => (hk.2 hleads (not_not.mp hmem) (by omega)).symm⟩

/-- When a failover leaves the records in agreement. -/
theorem failover_agrees_iff (hshape : WellFormed b.controller.metadata) {leaderID : Int}
    (hrun : (tryFailoverForWorker tick leaderID).run b = .ok (b', ())) :
    Agrees b' ↔ FailoverAgrees b leaderID := by
  obtain ⟨hlocal, hlisted, hroles⟩ := (yields_tryFailoverForWorker tick leaderID hshape).run hrun
  have hpartition : ∀ t p pm, Listed b.controller.metadata t p pm →
      (AgreesAt b' t p (settled (setBrokerFence (tick.env.clock 0) b.controller leaderID
        true).1.metadata.brokers p pm) ↔
        (pm.leaderID = b.localBrokerID ∨ roleOf b t p = .leader ↔
          successor b.controller.metadata leaderID pm = b.localBrokerID)) := by
    intro t p pm h
    rw [AgreesAt, hroles t p pm h, settled_leaderID, elected_fenced hshape.enrolled, hlocal,
      failedOver]
    by_cases hleads : pm.leaderID = b.localBrokerID
    · simp [hleads]
    · simp [hleads]
  constructor
  · exact fun h t p pm hpm =>
      (hpartition t p pm hpm).mp (h t p _ ((hlisted t p _).mpr ⟨pm, hpm, rfl⟩))
  · intro h t p pm' hpm'
    obtain ⟨pm, hpm, rfl⟩ := (hlisted t p pm').mp hpm'
    exact (hpartition t p pm hpm).mpr (h t p pm hpm)

end Runtime

section Command

variable {env : Surroundings} {req : Request} {topic : Str} {partition : Int} {roleText : Str}
  {role : Role} {b b' : Broker} {payload : Str}

structure Assumed (b : Broker) (topic : Str) (partition : Int) (role : Role) (b' : Broker) :
    Prop where
  local_eq : b'.localBrokerID = b.localBrokerID
  led : ∀ pm, Listed b'.controller.metadata topic partition pm → pm.leaderID = b.localBrokerID
  listed : ∃ pm, Listed b'.controller.metadata topic partition pm
  others : ∀ t p pm, (t, p) ≠ (topic, partition) →
    (Listed b'.controller.metadata t p pm ↔ Listed b.controller.metadata t p pm)
  roles : ∀ t p, roleOf b' t p = if (t, p) = (topic, partition) then role else roleOf b t p

theorem role_status (order : List Int → List Int) (now : Time) (m : Manager) (topic topic' : Str)
    (partition partition' : Int) :
    (partitionOf (status order now m topic partition).1 topic' partition').role =
      (partitionOf m topic' partition').role := by
  unfold status refresh
  dsimp only
  rw [role_setPartition]
  split
  · rename_i hkey
    cases hkey
    rfl
  · rfl

theorem roleOf_turnedTo (b : Broker) (now : Time) (topic : Str) (partition : Int) (role : Role)
    (t : Str) (p : Int) :
    roleOf (turnedTo b now topic partition role) t p =
      if (t, p) = (topic, partition) then role else roleOf b t p := by
  unfold roleOf turnedTo
  dsimp only
  rw [role_setPartition]
  exact if_congr Iff.rfl (turned_role _ role) rfl

theorem listed_led {store : RaftMetadataStore} {md : TopicMetadata} {pm : PartitionMetadata}
    (hmd : store.metadata.topics.get topic = some md)
    (hpm : md.partitions.get partition = some pm) (led : PartitionMetadata) (t : Str) (p : Int)
    (pm' : PartitionMetadata) :
    Listed { store.metadata with
        topics := store.metadata.topics.set topic
          { md with partitions := md.partitions.set partition led } } t p pm' ↔
      if (t, p) = (topic, partition) then pm' = led else Listed store.metadata t p pm' := by
  unfold Listed
  dsimp only
  by_cases ht : t = topic
  · subst ht
    by_cases hp : p = partition
    · subst hp
      simp [eq_comm]
    · simp [hp, hmd]
  · simp [ht]

/-- What a change of role that succeeds has done. -/
theorem assumeRole_assumes (hrole : readRole (toLower roleText) = some role)
    (hrun : (assumeRole env req topic partition roleText).run b =
      .ok (b', ok req.correlationID payload)) : Assumed b topic partition role b' := by
  by_cases hwhy : Unsettable b.controller topic partition b.localBrokerID
  · obtain ⟨e, hrefused⟩ := assumeRole_refused hrole hwhy
    rw [hrefused] at hrun
    have hresponse : badRequest req e = ok req.correlationID payload :=
      congrArg Prod.snd (Except.ok.inj hrun)
    exact absurd ⟨e, hresponse.symm⟩ (not_bad_ok req payload)
  · have hturned : Program.Yields (fun c r => r = .ok () ∧
        c = turnedTo b (env.clock 1) topic partition role) (onReplication (fun m =>
          setRole (env.clock 1) m topic partition (toLower roleText))) b := by
      refine Program.yields_modify ?_
      dsimp only
      rw [setRole, hrole]
      exact ⟨rfl, rfl⟩
    have hyields : Program.Yields (fun c _ => Assumed b topic partition role c)
        (assumeRole env req topic partition roleText) b := by
      refine Program.upholds_bind hturned ?_
      rintro c r ⟨rfl, rfl⟩
      refine Program.yields_read_bind ?_
      rcases setPartitionLeader_cases (env.clock 2) b.controller topic partition b.localBrokerID
        [b.localBrokerID] with ⟨hwhy', -⟩ | ⟨md, pm, r, -, -, -, hmd, hpm, hdone⟩
      · exact absurd hwhy' hwhy
      · have hled : Program.Yields (fun c a => (∃ result, a = .ok result) ∧
            Assumed b topic partition role c) (callSetPartitionLeader (env.clock 2) topic partition
              b.localBrokerID [b.localBrokerID])
              (turnedTo b (env.clock 1) topic partition role) := by
          refine yields_onController hdone ⟨⟨r, rfl⟩, rfl, fun pm' hpm' => ?_, ?_,
            fun t p pm' hkey => ?_, fun t p => roleOf_turnedTo b _ topic partition role t p⟩
          · have heq := (listed_led hmd hpm _ topic partition pm').mp hpm'
            rw [if_pos rfl] at heq
            rw [heq]
            rfl
          · exact ⟨_, (listed_led hmd hpm _ topic partition _).mpr (by rw [if_pos rfl])⟩
          · have hiff := listed_led hmd hpm (pm.led b.localBrokerID [b.localBrokerID]) t p pm'
            rwa [if_neg hkey] at hiff
        refine Program.upholds_bind hled ?_
        rintro c a ⟨⟨result, rfl⟩, hassumed⟩
        have hstatus : Program.Yields (fun c' _ => Assumed b topic partition role c')
            (onReplication (fun m => status env.order (env.clock 3) m topic partition)) c :=
          Program.yields_modify ⟨hassumed.local_eq, hassumed.led, hassumed.listed,
            hassumed.others, fun t p =>
              (role_status env.order _ _ _ _ _ _).trans (hassumed.roles t p)⟩
        exact Program.upholds_bind hstatus (fun _ _ h => h)
    exact hyields.run hrun

/-- The records agree after the command, seen from the broker with the topic. -/
theorem Assumed.agrees_iff (h : Assumed b topic partition role b') :
    Agrees b' ↔ role = .leader ∧ ∀ t p pm, Listed b.controller.metadata t p pm →
      (t, p) ≠ (topic, partition) → AgreesAt b t p pm := by
  unfold Agrees AgreesAt
  constructor
  · intro hagrees
    obtain ⟨pm, hpm⟩ := h.listed
    refine ⟨?_, fun t p pm' hpm' hkey => ?_⟩
    · have hpartition := hagrees topic partition pm hpm
      rw [h.roles, if_pos rfl, h.led pm hpm, h.local_eq] at hpartition
      exact hpartition.mpr rfl
    · have hpartition := hagrees t p pm' ((h.others t p pm' hkey).mpr hpm')
      rwa [h.roles, if_neg hkey, h.local_eq] at hpartition
  · rintro ⟨hrole, hothers⟩ t p pm hpm
    rw [h.roles, h.local_eq]
    by_cases hkey : (t, p) = (topic, partition)
    · cases hkey
      rw [if_pos rfl, h.led pm hpm]
      exact iff_of_true hrole rfl
    · rw [if_neg hkey]
      exact hothers t p pm ((h.others t p pm hkey).mp hpm) hkey

/-- A request that succeeds: the topic is made sure of, and then the role assumed. -/
theorem role_request_runs (hcommand : req.command = lit "SET_PARTITION_ROLE")
    (hargs : req.args = [topic, partitionText, roleText])
    (hpartition : atoi partitionText = some partition)
    (hrun : (handleRequest env req).run b = .ok (b', ok req.correlationID payload)) :
    ∃ c md, (ensureTopicMetadata env topic).run b = .ok (c, .ok md) ∧
      (assumeRole env req topic partition roleText).run c =
        .ok (b', ok req.correlationID payload) := by
  have hrequest : handleRequest env req = handleSetPartitionRole env req := by
    rw [handleRequest, hcommand]
    rfl
  rw [hrequest, handleSetPartitionRole, hargs] at hrun
  simp only [withInt, parseInt, hpartition] at hrun
  obtain ⟨c, r, hensured, hrest⟩ := Program.run_bind_ok hrun
  cases r with
  | error e =>
    have hresponse : badRequest req e = ok req.correlationID payload :=
      congrArg Prod.snd (Except.ok.inj hrest)
    exact absurd ⟨e, hresponse.symm⟩ (not_bad_ok req payload)
  | ok md => exact ⟨c, md, hensured, hrest⟩

/-- When a change of role leaves the records in agreement. -/
theorem role_agrees_iff (hshape : WellFormed b.controller.metadata)
    (hcommand : req.command = lit "SET_PARTITION_ROLE")
    (hargs : req.args = [topic, partitionText, roleText])
    (hpartition : atoi partitionText = some partition)
    (hrole : readRole (toLower roleText) = some role)
    (hrun : (handleRequest env req).run b = .ok (b', ok req.correlationID payload)) :
    Agrees b' ↔ RoleAgrees env b topic partition role := by
  obtain ⟨c, md, hensured, hassume⟩ := role_request_runs hcommand hargs hpartition hrun
  rw [(assumeRole_assumes hrole hassume).agrees_iff, RoleAgrees]
  refine and_congr_right (fun _ => ?_)
  cases hmd : b.controller.metadata.topics.get topic with
  | some md' =>
    rw [ensure_known env hshape hmd] at hensured
    cases hensured
    exact ⟨fun h => ⟨h, nofun⟩, fun h => h.1⟩
  | none =>
    obtain ⟨-, hopened, hstored⟩ := ensured_opened hmd hensured
    obtain ⟨md', hmd', hpartitions⟩ := hopened.opened
    have hlocal : c.localBrokerID = b.localBrokerID := by rw [hopened.elsewhere]
    have hroles : ∀ t p, roleOf c t p = roleOf b t p := by
      intro t p
      unfold roleOf
      rw [hopened.elsewhere]
    have hlisted : ∀ t p pm, t ≠ topic → (Listed c.controller.metadata t p pm ↔
        Listed b.controller.metadata t p pm) := by
      intro t p pm ht
      unfold Listed
      rw [hopened.topics t ht]
    have hnew : ∀ p pm, Listed c.controller.metadata topic p pm →
        0 ≤ p ∧ p < b.defaultPartitions ∧ pm.leaderID = dealt (candidates env b) p := by
      rintro p pm ⟨md'', hmd'', hpm⟩
      rw [hmd'] at hmd''
      cases hmd''
      rw [hpartitions] at hpm
      split at hpm
      · rename_i hrange
        cases hpm
        refine ⟨hrange.1, hrange.2, ?_⟩
        rw [stage, if_pos (by omega)]
        rfl
      · cases hpm
    unfold AgreesAt
    constructor
    · refine fun h => ⟨fun t p pm hpm hkey => ?_, fun _ p hlow hhigh hne => ?_⟩
      · have ht : t ≠ topic := by
          rintro rfl
          obtain ⟨md'', hmd'', -⟩ := hpm
          rw [hmd] at hmd''
          cases hmd''
        have hpartition' := h t p pm ((hlisted t p pm ht).mpr hpm) hkey
        rwa [hroles, hlocal] at hpartition'
      · have hget : Listed c.controller.metadata topic p
            (stage b.defaultReplicationFactor (candidates env b) b.defaultPartitions.toNat p) :=
          ⟨md', hmd', by rw [hpartitions, if_pos ⟨hlow, hhigh⟩]⟩
        have hpartition' := h topic p _ hget (fun hkey => hne (congrArg Prod.snd hkey))
        rwa [hroles, hlocal, (hnew p _ hget).2.2] at hpartition'
    · rintro ⟨hold, hcreated⟩ t p pm hpm hkey
      rw [hroles, hlocal]
      by_cases ht : t = topic
      · subst ht
        obtain ⟨hlow, hhigh, hdealt⟩ := hnew p pm hpm
        rw [hdealt]
        exact hcreated rfl p hlow hhigh (fun hp => hkey (by rw [hp]))
      · exact hold t p pm ((hlisted t p pm ht).mp hpm) hkey

/-- The reconcile right after the command keeps the role if it is that of the leader. -/
theorem role_kept_iff {b'' : Broker} (hcommand : req.command = lit "SET_PARTITION_ROLE")
    (hargs : req.args = [topic, partitionText, roleText])
    (hpartition : atoi partitionText = some partition)
    (hrole : readRole (toLower roleText) = some role)
    (hrun : (handleRequest env req).run b = .ok (b', ok req.correlationID payload))
    (hreconcile : (reconcileRoles tick).run b' = .ok (b'', ())) :
    roleOf b'' topic partition = role ↔ role = .leader := by
  obtain ⟨c, md, -, hassume⟩ := role_request_runs hcommand hargs hpartition hrun
  have hassumed := assumeRole_assumes hrole hassume
  obtain ⟨-, -, hroles⟩ := (yields_reconcileRoles tick b').run hreconcile
  obtain ⟨pm, hpm⟩ := hassumed.listed
  rw [hroles topic partition pm hpm, reconciled, hassumed.led pm hpm, hassumed.local_eq,
    if_pos rfl, eq_comm]

end Command

/-- When the records agree after each of the three steps, and when a reconcile
leaves a role as it is. -/
theorem leadership_agrees_iff {b : Broker} (hreached : Reached b) :
    (∀ env req topic partitionText roleText partition role payload b',
      req.command = lit "SET_PARTITION_ROLE" → req.args = [topic, partitionText, roleText] →
      atoi partitionText = some partition → readRole (toLower roleText) = some role →
      (handleRequest env req).run b = .ok (b', ok req.correlationID payload) →
        (Agrees b' ↔ RoleAgrees env b topic partition role) ∧
        ∀ tick b'', (reconcileRoles tick).run b' = .ok (b'', ()) →
          (roleOf b'' topic partition = role ↔ role = .leader)) ∧
    (∀ tick b', (reconcileRoles tick).run b = .ok (b', ()) →
      (Agrees b' ↔ ReconcileAgrees b) ∧
      ∀ topic partition pm, Listed b.controller.metadata topic partition pm →
        (roleOf b' topic partition = roleOf b topic partition ↔
          Steady b topic partition pm)) ∧
    ∀ tick leaderID b', (tryFailoverForWorker tick leaderID).run b = .ok (b', ()) →
      (Agrees b' ↔ FailoverAgrees b leaderID) := by
  have hshape := hreached.wellFormed
  refine ⟨?_, fun tick b' hrun => ⟨reconcile_agrees_iff hrun, fun topic partition pm h =>
    reconcile_keeps_iff hrun h⟩, fun tick leaderID b' hrun => failover_agrees_iff hshape hrun⟩
  intro env req topic partitionText roleText partition role payload b' hcommand hargs hpartition
    hrole hrun
  exact ⟨role_agrees_iff hshape hcommand hargs hpartition hrole hrun,
    fun tick b'' hreconcile => role_kept_iff hcommand hargs hpartition hrole hrun hreconcile⟩

def demoted : Request :=
  ⟨lit "V1", lit "1", lit "SET_PARTITION_ROLE", [lit "orders", lit "0", lit "follower"]⟩

def records (b : Broker) : Role × Option Int × Int :=
  (roleOf b (lit "orders") 0,
    ((b.controller.metadata.topics.get (lit "orders")).bind (fun md =>
      md.partitions.get 0)).map PartitionMetadata.leaderID,
    b.localBrokerID)

def calmTick : Tick where
  env := quiet
  names keys := keys
  names_perm keys := List.Perm.refl keys
  fetch _ := .ok ⟨0, []⟩
  ack _ := .ok ()

/-- A demoted leader leads again after a reconciliation. -/
theorem demoted_runs :
    ∃ b' b'', (handleRequest quiet demoted).run aloneBroker =
        .ok (b', ok demoted.correlationID (lit "topic=orders partition=0 role=follower hw=-1")) ∧
      records b' = (.follower, some 0, 0) ∧ (reconcileRoles calmTick).run b' = .ok (b'', ()) ∧
      roleOf b'' (lit "orders") 0 = .leader := by
  have hdemoted : ((handleRequest quiet demoted).run aloneBroker).toOption.map
      (fun r => (r.2, records r.1)) =
        some (ok demoted.correlationID (lit "topic=orders partition=0 role=follower hw=-1"),
          .follower, some 0, 0) := by decide
  have hpromoted : (((handleRequest quiet demoted).run aloneBroker).toOption.bind
      (fun r => ((reconcileRoles calmTick).run r.1).toOption)).map
        (fun r => roleOf r.1 (lit "orders") 0) = some .leader := by decide
  cases hrun : (handleRequest quiet demoted).run aloneBroker with
  | error e =>
    rw [hrun] at hdemoted
    cases hdemoted
  | ok r =>
    rw [hrun] at hdemoted hpromoted
    have hpair := Option.some.inj hdemoted
    simp only [Except.toOption, Option.bind_some] at hpromoted
    cases hreconcile : (reconcileRoles calmTick).run r.1 with
    | error e =>
      rw [hreconcile] at hpromoted
      cases hpromoted
    | ok r' =>
      rw [hreconcile] at hpromoted
      have hresponse : r.2 = ok demoted.correlationID
          (lit "topic=orders partition=0 role=follower hw=-1") := congrArg Prod.fst hpair
      refine ⟨r.1, r'.1, ?_, congrArg Prod.snd hpair, hreconcile, Option.some.inj hpromoted⟩
      rw [← hresponse]

section Promoted

def promotion : List Moment :=
  .start (.line quiet (lit "V1|1|SET_PARTITION_ROLE|orders 0 leader")) ::
    List.replicate 12 (.advance 0)

def promoted : Broker :=
  ((runs aloneBroker promotion).toOption.map Pool.state).getD aloneBroker

def repeated : Request :=
  ⟨lit "V1", lit "2", lit "SET_PARTITION_ROLE", [lit "orders", lit "0", lit "leader"]⟩

theorem reached_promoted : Reached promoted := by
  have hsome : (runs aloneBroker promotion).toOption.isSome := by decide
  refine ⟨quiet, BrokerRuns.alone, [], 0, FMap.empty, .holds FMap.empty, ⟨FMap.empty⟩, promotion,
    ?_⟩
  change ∃ pool, runs aloneBroker promotion = .ok pool ∧ pool.state = promoted
  unfold promoted
  cases hruns : runs aloneBroker promotion with
  | error e =>
    rw [hruns] at hsome
    cases hsome
  | ok pool => exact ⟨pool, rfl, rfl⟩

theorem orders_promoted : ∃ md, promoted.controller.metadata.topics.get (lit "orders") = some md ∧
    md.partitions.keys = [0] ∧ md.partitions.get 0 = some ⟨0, 0, [0], [0]⟩ := by
  have hmap : (promoted.controller.metadata.topics.get (lit "orders")).map (fun md =>
      (md.partitions.keys, md.partitions.get 0)) = some ([0], some ⟨0, 0, [0], [0]⟩) := by
    decide
  obtain ⟨md, hmd, hpair⟩ := Option.map_eq_some_iff.mp hmap
  exact ⟨md, hmd, congrArg Prod.fst hpair, congrArg Prod.snd hpair⟩

theorem listed_promoted (t : Str) (p : Int) (pm : PartitionMetadata) :
    Listed promoted.controller.metadata t p pm ↔
      (t, p) = (lit "orders", 0) ∧ pm = ⟨0, 0, [0], [0]⟩ := by
  obtain ⟨md, hmd, hkeys, hzero⟩ := orders_promoted
  constructor
  · rintro ⟨md', hmd', hpm⟩
    have ht := (FMap.mem_keys_iff _ t).mpr ⟨md', hmd'⟩
    rw [show promoted.controller.metadata.topics.keys = [lit "orders"] by decide,
      List.mem_singleton] at ht
    subst ht
    cases hmd.symm.trans hmd'
    have hp := (FMap.mem_keys_iff _ p).mpr ⟨pm, hpm⟩
    rw [hkeys, List.mem_singleton] at hp
    subst hp
    exact ⟨rfl, Option.some.inj (hpm.symm.trans hzero)⟩
  · rintro ⟨hkey, rfl⟩
    cases hkey
    exact ⟨md, hmd, hzero⟩

theorem run_promoted {α : Type} (p : Handler α) (h : (p.run promoted).toOption.isSome) :
    ∃ b' a, p.run promoted = .ok (b', a) ∧ (p.run promoted).toOption.map Prod.snd = some a := by
  cases hrun : p.run promoted with
  | error e =>
    rw [hrun] at h
    cases h
  | ok r => exact ⟨r.1, r.2, rfl, rfl⟩

/-- The three steps on a partition whose records agree. -/
theorem leadership_agrees_promoted :
    Reached promoted ∧
    (∃ b' payload, (handleRequest quiet repeated).run promoted =
      .ok (b', ok repeated.correlationID payload) ∧ Agrees b') ∧
    (∃ b', (reconcileRoles calmTick).run promoted = .ok (b', ()) ∧ Agrees b' ∧
      roleOf b' (lit "orders") 0 = roleOf promoted (lit "orders") 0) ∧
    ∃ b', (tryFailoverForWorker calmTick 7).run promoted = .ok (b', ()) ∧ Agrees b' := by
  obtain ⟨hrequest, hreconcile, hfailover⟩ := leadership_agrees_iff reached_promoted
  have hlocal : promoted.localBrokerID = 0 := by decide
  have hrole : roleOf promoted (lit "orders") 0 = .leader := by decide
  refine ⟨reached_promoted, ?_, ?_, ?_⟩
  · obtain ⟨b', response, hrun, hresponse⟩ :=
      run_promoted (handleRequest quiet repeated) (by decide)
    have hok : ((handleRequest quiet repeated).run promoted).toOption.map Prod.snd =
        some (ok repeated.correlationID (lit "topic=orders partition=0 role=leader hw=-1")) := by
      decide
    cases Option.some.inj (hresponse.symm.trans hok)
    refine ⟨b', _, hrun, ((hrequest quiet repeated _ _ _ 0 .leader _ b' rfl rfl (by decide)
      (by decide) hrun).1).mpr ⟨rfl, fun t p pm hpm hne => ?_, fun hnone => ?_⟩⟩
    · exact absurd ((listed_promoted t p pm).mp hpm).1 hne
    · exact absurd hnone (by decide)
  · obtain ⟨b', u, hrun, -⟩ := run_promoted (reconcileRoles calmTick) (by decide)
    obtain ⟨hagrees, hkept⟩ := hreconcile calmTick b' hrun
    refine ⟨b', hrun, hagrees.mpr (fun t p pm hpm hne => ?_), ?_⟩
    · rw [((listed_promoted t p pm).mp hpm).2, hlocal] at hne
      exact absurd rfl hne
    · refine (hkept _ _ _ ((listed_promoted _ _ _).mpr ⟨rfl, rfl⟩)).mpr
        ⟨fun _ => hrole, fun hne => ?_⟩
      exact absurd hlocal.symm hne
  · obtain ⟨b', u, hrun, -⟩ := run_promoted (tryFailoverForWorker calmTick 7) (by decide)
    refine ⟨b', hrun, (hfailover calmTick 7 b' hrun).mpr (fun t p pm hpm => ?_)⟩
    obtain ⟨hkey, rfl⟩ := (listed_promoted t p pm).mp hpm
    cases hkey
    exact iff_of_true (.inl hlocal.symm) (by decide)

end Promoted

/-- The request succeeds, the records disagree, and the next reconcile makes the
broker the leader again. -/
theorem demotion_disagrees :
    Reached aloneBroker ∧ ∃ b' b'' payload,
      (handleRequest quiet demoted).run aloneBroker =
        .ok (b', ok demoted.correlationID payload) ∧ ¬ Agrees b' ∧
      (reconcileRoles calmTick).run b' = .ok (b'', ()) ∧
      roleOf b' (lit "orders") 0 = .follower ∧ roleOf b'' (lit "orders") 0 = .leader := by
  obtain ⟨b', b'', hrun, hrecords, hreconcile, hpromoted⟩ := demoted_runs
  have hrole : roleOf b' (lit "orders") 0 = .follower := congrArg Prod.fst hrecords
  have hlocal : b'.localBrokerID = 0 := congrArg (fun r => r.2.2) hrecords
  have hleader : ((b'.controller.metadata.topics.get (lit "orders")).bind (fun md =>
      md.partitions.get 0)).map PartitionMetadata.leaderID = some 0 :=
    congrArg (fun r => r.2.1) hrecords
  obtain ⟨pm, hpm, hled⟩ := Option.map_eq_some_iff.mp hleader
  obtain ⟨md, hmd, hget⟩ := Option.bind_eq_some_iff.mp hpm
  refine ⟨reached_alone, b', b'', _, hrun, fun hagrees => ?_, hreconcile, hrole, hpromoted⟩
  have hpartition := (hagrees (lit "orders") 0 pm ⟨md, hmd, hget⟩).mpr (hled.trans hlocal.symm)
  rw [hrole] at hpartition
  cases hpartition

end Flux.LeadershipRecords
