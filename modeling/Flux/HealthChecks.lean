import Flux.ElectionOutcomes

/-!
A check of the brokers' health without interruption. It sets the fence of every
broker to whether the broker is stale, and counts the fences that changed. The
timeout comes in milliseconds and is multiplied into a 64-bit number of
nanoseconds: above 9223372036854 ms the product is another duration.
-/
namespace Flux.HealthChecks

open GoRuntime GoStrings FiniteMap Protocol ClusterMetadata Interleavings BrokerNode BrokerContracts
open BrokerConfig RequestHandlers ControllerSteps MetadataRuns ElectionOutcomes BrokerRuns

variable {timeoutText : Str}

def Refenced (before after : MetadataSnapshot) (id : Int) : Prop :=
  (after.brokers.get id).map BrokerMetadata.fenced ≠
    (before.brokers.get id).map BrokerMetadata.fenced

instance (before after : MetadataSnapshot) (id : Int) :
    Decidable (Refenced before after id) := by
  unfold Refenced
  infer_instance

structure Checked (stale : BrokerMetadata → Bool) (before after : MetadataSnapshot) (count : ℕ) :
    Prop where
  topics : after.topics = before.topics
  brokers : ∀ id, after.brokers.get id =
    (before.brokers.get id).map (fun broker => { broker with fenced := stale broker })
  count : count = (before.brokers.keys.filter (fun id => Refenced before after id)).length

def Overdue (now : Time) (timeoutMs : Int) (broker : BrokerMetadata) : Prop :=
  broker.lastHeartbeat = zeroTime ∨ timeoutMs * 1000000 < now - broker.lastHeartbeat

instance (now : Time) (timeoutMs : Int) (broker : BrokerMetadata) :
    Decidable (Overdue now timeoutMs broker) := by
  unfold Overdue
  infer_instance

/-- The comparison as `ReconcileBrokerHealth` makes it. -/
def Stale (now : Time) (timeout : Int) (broker : BrokerMetadata) : Bool :=
  broker.lastHeartbeat = zeroTime ∨ timeout < timeSub now broker.lastHeartbeat

section Loop

variable {b b' : Broker} {now : Time} {timeout : Int}

structure Fencing (now : Time) (timeout : Int) (b : Broker) (updates : List (Int × Bool))
    (b' : Broker) : Prop where
  decided : ∀ u ∈ updates, ∃ broker, b.controller.metadata.brokers.get u.1 = some broker ∧
    u.2 = Stale now timeout broker
  once : (updates.map Prod.fst).Nodup
  topics : b'.controller.metadata.topics = b.controller.metadata.topics
  brokers : ∀ id, b'.controller.metadata.brokers.get id =
    (b.controller.metadata.brokers.get id).map (fun broker =>
      if id ∈ updates.map Prod.fst then broker
      else { broker with fenced := Stale now timeout broker })

theorem Fencing.setFence {u : Int × Bool} {rest : List (Int × Bool)}
    (h : Fencing now timeout b (u :: rest) b') (henrolled : Enrolled b.controller.metadata)
    (clock : Time) :
    Program.Yields (fun b'' r =>
      match r with
      | .error _ => False
      | .ok _ => Fencing now timeout b rest b'') (callSetBrokerFence clock u.1 u.2) b' := by
  obtain ⟨broker, hbroker, hstale⟩ := h.decided u (List.mem_cons_self ..)
  obtain ⟨hid, hlow⟩ := henrolled u.1 broker hbroker
  obtain ⟨hfresh, honce⟩ := List.nodup_cons.mp h.once
  have hget : b'.controller.metadata.brokers.get u.1 = some broker := by
    rw [h.brokers, hbroker, Option.map_some, List.map_cons, if_pos (List.mem_cons_self ..)]
  obtain ⟨r, hset⟩ := setBrokerFence_known clock hget hlow u.2
  refine yields_onController hset ?_
  refine ⟨fun v hv => h.decided v (List.mem_cons_of_mem _ hv), honce, h.topics, fun id => ?_⟩
  dsimp only [moved]
  rw [hid, FMap.get_set]
  split
  · rename_i heq
    rw [heq, hbroker, Option.map_some, if_neg hfresh, hstale, ← hid]
  · rename_i hne
    have hsame : (id ∈ (u :: rest).map Prod.fst) ↔ id ∈ rest.map Prod.fst := by
      rw [List.map_cons, List.mem_cons]
      exact or_iff_right hne
    rw [h.brokers]
    simp only [hsame]

theorem Fencing.loop {items : List (Int × Bool)} (h : Fencing now timeout b items b')
    (henrolled : Enrolled b.controller.metadata) (clock : Time) :
    Program.Yields (fun b'' r =>
      match r with
      | .error _ => False
      | .ok _ => Fencing now timeout b [] b'')
      (attemptAll (fun u => callSetBrokerFence clock u.1 u.2) items 0) b' := by
  refine upholds_attemptAll (Fencing now timeout b) (fun _ => False) ?_ h 0
  intro u rest c hnext
  refine (hnext.setFence henrolled clock).weaken (fun c' r hr => ?_)
  cases r with
  | error e => exact hr
  | ok result => exact hr

theorem reconcileBroker_eq (now : Time) (timeout : Int) (broker : BrokerMetadata) :
    reconcileBroker now timeout broker =
      if broker.fenced = Stale now timeout broker then none else some (Stale now timeout broker) :=
  rfl

theorem mem_healthUpdates {u : Int × Bool} {metadata : MetadataSnapshot}
    (hu : u ∈ healthUpdates now timeout metadata) :
    ∃ broker, metadata.brokers.get u.1 = some broker ∧ u.2 = Stale now timeout broker := by
  obtain ⟨id, -, hupdate⟩ := List.mem_filterMap.mp hu
  obtain ⟨fenced, hfenced, rfl⟩ := Option.map_eq_some_iff.mp hupdate
  obtain ⟨broker, hbroker, hreconcile⟩ := Option.bind_eq_some_iff.mp hfenced
  rw [reconcileBroker_eq] at hreconcile
  split at hreconcile
  · cases hreconcile
  · cases hreconcile
    exact ⟨broker, hbroker, rfl⟩

theorem healthUpdates_once (now : Time) (timeout : Int) (metadata : MetadataSnapshot) :
    ((healthUpdates now timeout metadata).map Prod.fst).Nodup := by
  have hkeys : (sortInts metadata.brokers.keys).Nodup :=
    (List.perm_insertionSort _ _).nodup_iff.mpr (FMap.keys_nodup _)
  refine List.Nodup.map_on ?_ (hkeys.filterMap ?_)
  · intro u hu v hv hsame
    obtain ⟨broker, hbroker, hstale⟩ := mem_healthUpdates hu
    obtain ⟨broker', hbroker', hstale'⟩ := mem_healthUpdates hv
    rw [← hsame, hbroker] at hbroker'
    cases hbroker'
    exact Prod.ext hsame (hstale.trans hstale'.symm)
  · intro id id' u hu hu'
    obtain ⟨fenced, -, rfl⟩ := Option.map_eq_some_iff.mp hu
    obtain ⟨fenced', -, heq⟩ := Option.map_eq_some_iff.mp hu'
    exact (congrArg Prod.fst heq).symm

/-- A broker needs no update if its fence is right already. -/
theorem fencing_start (now : Time) (timeout : Int) (b : Broker) :
    Fencing now timeout b (healthUpdates now timeout b.controller.metadata) b := by
  refine ⟨fun u hu => mem_healthUpdates hu, healthUpdates_once .., rfl, fun id => ?_⟩
  cases hbroker : b.controller.metadata.brokers.get id with
  | none => rfl
  | some broker =>
    rw [Option.map_some]
    split
    · rfl
    · rename_i hnot
      have hright : broker.fenced = Stale now timeout broker := by
        by_contra hwrong
        refine hnot (List.mem_map.mpr ⟨(id, Stale now timeout broker),
          List.mem_filterMap.mpr ⟨id, ?_, ?_⟩, rfl⟩)
        · exact (List.perm_insertionSort _ _).mem_iff.mpr
            ((FMap.mem_keys_iff _ _).mpr ⟨broker, hbroker⟩)
        · rw [hbroker, Option.bind_some, reconcileBroker_eq, if_neg hwrong, Option.map_some]
      rw [← hright]

/-- One command is sent for each fence that changes. -/
theorem healthUpdates_length {before after : MetadataSnapshot}
    (hget : ∀ id, after.brokers.get id = (before.brokers.get id).map
      (fun broker => { broker with fenced := Stale now timeout broker })) :
    (healthUpdates now timeout before).length =
      (before.brokers.keys.filter (fun id => Refenced before after id)).length := by
  have hsome : ∀ id, (((before.brokers.get id).bind (reconcileBroker now timeout)).map
      (fun fenced => (id, fenced))).isSome = decide (Refenced before after id) := by
    intro id
    simp only [Refenced, hget]
    cases before.brokers.get id with
    | none => simp
    | some broker =>
      rw [Option.bind_some, reconcileBroker_eq]
      split
      · rename_i hright
        simp [← hright]
      · rename_i hwrong
        simp [Ne.symm hwrong]
  have hperm : (sortInts before.brokers.keys).Perm before.brokers.keys :=
    List.perm_insertionSort _ _
  rw [healthUpdates, List.length_filterMap_eq_countP, List.countP_eq_length_filter]
  simp only [hsome]
  exact (hperm.filter _).length_eq

/-- A check with a positive timeout goes through. -/
theorem reconcileBrokerHealth_checks (env : Surroundings) (htimeout : 0 < timeout)
    (henrolled : Enrolled b.controller.metadata) :
    ∃ b' count, (reconcileBrokerHealth env timeout).run b = .ok (b', .ok count) ∧
      Checked (Stale (env.clock 0) timeout) b.controller.metadata b'.controller.metadata
        count := by
  have hread : Program.run snapshot b = .ok (b, b.controller.metadata) := rfl
  have hreturns := returns_attemptAll (fun u : Int × Bool =>
    Program.returns_modify (fun b : Broker => ({ b with
      controller := (setBrokerFence (env.clock 1) b.controller u.1 u.2).1 },
      (setBrokerFence (env.clock 1) b.controller u.1 u.2).2)))
    (healthUpdates (env.clock 0) timeout b.controller.metadata) b 0
  obtain ⟨b', r, hrun⟩ := hreturns
  have hloop := ((fencing_start (env.clock 0) timeout b).loop henrolled (env.clock 1)).run hrun
  have hcount := (yields_attemptAll_count _ _ b 0).run hrun
  cases r with
  | error e => exact hloop.elim
  | ok count =>
    refine ⟨b', count, ?_, hloop.topics, fun id => ?_, ?_⟩
    · rw [reconcileBrokerHealth, if_neg (by omega), Program.run_bind hread]
      exact hrun
    · rw [hloop.brokers]
      simp
    · rw [hcount count rfl, Nat.zero_add]
      refine healthUpdates_length (fun id => ?_)
      rw [hloop.brokers]
      simp

end Loop

section Request

variable {env : Surroundings} {b : Broker} {timeoutMs : Int}

def reconcileRequest (correlationID timeoutText : Str) : Request :=
  ⟨version, correlationID, lit "ADMIN_RECONCILE_BROKER_HEALTH", [timeoutText]⟩

/-- The request is answered with the count, and every broker is fenced as it is
overdue or not. -/
def Reconciles (env : Surroundings) (correlationID timeoutText : Str) (timeoutMs : Int)
    (b : Broker) : Prop :=
  ∃ (b' : Broker) (count : ℕ),
    (handleRequest env (reconcileRequest correlationID timeoutText)).run b =
      .ok (b', ok correlationID (lit "reconciled=" ++ itoa count)) ∧
    Checked (fun broker => decide (Overdue (env.clock 0) timeoutMs broker))
      b.controller.metadata b'.controller.metadata count

theorem handleRequest_reconcile (env : Surroundings) (correlationID : Str)
    (htext : atoi timeoutText = some timeoutMs) :
    handleRequest env (reconcileRequest correlationID timeoutText) = (do
      let changes ← reconcileBrokerHealth env (duration timeoutMs millisecond)
      answer (reconcileRequest correlationID timeoutText) "BAD_REQUEST"
        (fun n : ℕ => field "reconciled=" (itoa n)) changes) := by
  have hdispatch : handleRequest env (reconcileRequest correlationID timeoutText) =
      handleAdminReconcileBrokerHealth env (reconcileRequest correlationID timeoutText) := rfl
  rw [hdispatch]
  simp only [handleAdminReconcileBrokerHealth, reconcileRequest, withInt, parseInt, htext]

/-- Below the bound the product is exact and the comparison is the intended one. -/
theorem stale_eq (now : Time) (hlow : 0 < timeoutMs) (hhigh : timeoutMs ≤ 9223372036854)
    (broker : BrokerMetadata) :
    Stale now (duration timeoutMs millisecond) broker =
      decide (Overdue now timeoutMs broker) := by
  have hexact : duration timeoutMs millisecond = timeoutMs * 1000000 := by
    unfold duration wrap64 millisecond
    rw [Int.bmod_eq_of_le]
    · omega
    · omega
  refine decide_eq_decide.mpr (or_congr Iff.rfl ?_)
  rw [hexact, timeSub]
  omega

/-- A timeout that fits is checked as it is given. -/
theorem reconciles_of_small (env : Surroundings) (correlationID : Str)
    (htext : atoi timeoutText = some timeoutMs) (hlow : 0 < timeoutMs)
    (hhigh : timeoutMs ≤ 9223372036854) (henrolled : Enrolled b.controller.metadata) :
    Reconciles env correlationID timeoutText timeoutMs b := by
  have hpositive : 0 < duration timeoutMs millisecond := by
    unfold duration wrap64 millisecond
    rw [Int.bmod_eq_of_le]
    · omega
    · omega
    · omega
  obtain ⟨b', count, hrun, hchecked⟩ := reconcileBrokerHealth_checks env hpositive henrolled
  refine ⟨b', count, ?_, ?_⟩
  · rw [handleRequest_reconcile env correlationID htext, Program.run_bind hrun]
    rfl
  · have hsame : Stale (env.clock 0) (duration timeoutMs millisecond) =
        fun broker => decide (Overdue (env.clock 0) timeoutMs broker) :=
      funext (fun broker => stale_eq _ hlow hhigh broker)
    rw [← hsame]
    exact hchecked

end Request

section Wrapped

def onlyBroker : List Call := [.registerBroker 0 0 (lit "h") 1 1]

def readings (now : Time) : Surroundings := { quiet with clock := fun _ => now }

variable {timeoutMs : Int}

/-- A product that is not positive is refused. -/
theorem not_reconciles_of_refused (htext : atoi timeoutText = some timeoutMs)
    (hsign : duration timeoutMs millisecond ≤ 0) (env : Surroundings) (b : Broker) :
    ¬ Reconciles env (lit "1") timeoutText timeoutMs b := by
  rintro ⟨b', count, hrun, -⟩
  have hrefused : (reconcileBrokerHealth env (duration timeoutMs millisecond)).run b =
      .ok (b, .error (lit "timeout must be > 0")) := by
    rw [reconcileBrokerHealth, if_pos hsign]
    rfl
  rw [handleRequest_reconcile _ _ htext, Program.run_bind hrefused] at hrun
  have hreply : err (lit "1") (lit "BAD_REQUEST") (lit "timeout must be > 0") =
      ok (lit "1") (lit "reconciled=" ++ itoa count) := congrArg Prod.snd (Except.ok.inj hrun)
  exact ok_ne_err _ _ _ _ hreply.symm

/-- A product that is too small fences a broker that is not overdue. -/
theorem not_reconciles_of_early (htext : atoi timeoutText = some timeoutMs)
    (hsign : 0 < duration timeoutMs millisecond) {now : Int}
    (hlate : duration timeoutMs millisecond < timeSub now 0) (hearly : now ≤ timeoutMs * 1000000) :
    ¬ Reconciles (readings now) (lit "1") timeoutText timeoutMs
      { aloneBroker with controller := reached onlyBroker } := by
  rintro ⟨b', count, hrun, hchecked⟩
  obtain ⟨b'', count', hrun', hchecked'⟩ := reconcileBrokerHealth_checks (readings now) hsign
    (b := { aloneBroker with controller := reached onlyBroker })
    (wellFormed_reached onlyBroker).enrolled
  rw [handleRequest_reconcile _ _ htext, Program.run_bind hrun'] at hrun
  have hsame : b'' = b' := congrArg Prod.fst (Except.ok.inj hrun)
  rw [hsame] at hchecked'
  obtain ⟨broker, hbroker, hbeat⟩ : ∃ broker, (reached onlyBroker).metadata.brokers.get 0 =
      some broker ∧ broker.lastHeartbeat = 0 := ⟨_, rfl, rfl⟩
  have hfence := (hchecked.brokers 0).symm.trans (hchecked'.brokers 0)
  dsimp only at hfence
  rw [hbroker, Option.map_some, Option.map_some, Option.some.injEq] at hfence
  have hflags := congrArg BrokerMetadata.fenced hfence
  simp only [Overdue, Stale, hbeat, decide_eq_decide] at hflags
  rcases hflags.mpr (.inr hlate) with hzero | hoverdue
  · exact absurd hzero (by decide)
  · have hclock : (readings now).clock 0 = now := rfl
    rw [hclock] at hoverdue
    omega

theorem not_reconciles_of_large (htext : atoi timeoutText = some timeoutMs)
    (hlow : 9223372036854 < timeoutMs) :
    ∃ now, ¬ Reconciles (readings now) (lit "1") timeoutText timeoutMs
      { aloneBroker with controller := reached onlyBroker } := by
  by_cases hsign : 0 < duration timeoutMs millisecond
  · have hbound : duration timeoutMs millisecond < 2 ^ 63 := by
      unfold duration wrap64
      have := Int.bmod_lt (x := timeoutMs * millisecond) (m := 2 ^ 64) (by omega)
      omega
    have heven : duration timeoutMs millisecond % 2 = 0 := by
      unfold duration wrap64 millisecond
      rw [Int.bmod_def]
      split <;> omega
    refine ⟨duration timeoutMs millisecond + 1, not_reconciles_of_early htext hsign ?_ ?_⟩
    · rw [timeSub]
      omega
    · omega
  · exact ⟨0, not_reconciles_of_refused htext (by omega) _ _⟩

end Wrapped

/-- A timeout is taken as it is meant, whatever the metadata and the clock, just if
its number of nanoseconds has 63 bits. -/
theorem reconciles_iff {timeoutText : Str} {timeoutMs : Int}
    (htext : atoi timeoutText = some timeoutMs) (hlow : 0 < timeoutMs) :
    (∀ env correlationID (b : Broker) calls, Reconciles env correlationID timeoutText timeoutMs
      { b with controller := reached calls }) ↔ timeoutMs ≤ 9223372036854 := by
  constructor
  · intro h
    by_contra hhigh
    obtain ⟨now, hnot⟩ := not_reconciles_of_large htext (by omega)
    exact hnot (h (readings now) (lit "1") aloneBroker onlyBroker)
  · intro hhigh env correlationID b calls
    exact reconciles_of_small env correlationID htext hlow hhigh (wellFormed_reached calls).enrolled

/-- A timeout of one second. -/
theorem reconciles_iff_second :
    (∀ env correlationID (b : Broker) calls, Reconciles env correlationID (lit "1000") 1000
      { b with controller := reached calls }) ↔ (1000 : Int) ≤ 9223372036854 :=
  reconciles_iff (by decide) (by decide)

/-- The largest timeout is refused, and one of some 584 years and a millisecond
fences a broker that was heard of half a second ago. -/
theorem long_timeouts_fence :
    ¬ Reconciles (readings 0) (lit "1") (lit "9223372036854775807") 9223372036854775807
      { aloneBroker with controller := reached onlyBroker } ∧
    ¬ Reconciles (readings 500000000) (lit "1") (lit "18446744073710") 18446744073710
      { aloneBroker with controller := reached onlyBroker } :=
  ⟨not_reconciles_of_refused (by decide) (by decide) _ _,
    not_reconciles_of_early (by decide) (by decide) (by decide)
      (by decide)⟩

end Flux.HealthChecks
