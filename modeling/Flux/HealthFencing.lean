import Flux.BrokerRuns
import Flux.BrokerContracts
import Flux.ControllerSteps

/-!
Fencing amid heartbeats. `ReconcileBrokerHealth` decides from one snapshot and
then sends a command for each broker, and a heartbeat or a registration may land
in between. A fence is cleared rightly as long as no stale broker registers with
its fence up, and it is set rightly as long as no broker that was found stale
comes back before its command.
-/
namespace Flux.HealthFencing

open GoRuntime FiniteMap ClusterMetadata Interleavings BrokerNode BrokerRuns
open BrokerContracts ControllerSteps

def StaleTime (now : Time) (timeout : Int) (last : Time) : Prop :=
  last = zeroTime ∨ timeout < timeSub now last

instance (now : Time) (timeout : Int) (last : Time) : Decidable (StaleTime now timeout last) := by
  unfold StaleTime
  infer_instance

/-- Where a fence goes up, the broker is stale. -/
def FencesStale (now : Time) (timeout : Int) (b b' : Broker) : Prop :=
  ∀ id broker broker', b.controller.metadata.brokers.get id = some broker →
    b'.controller.metadata.brokers.get id = some broker' →
      broker.fenced = false → broker'.fenced = true → StaleTime now timeout broker.lastHeartbeat

/-- Where a fence comes down, the broker is not stale. -/
def ClearsLive (now : Time) (timeout : Int) (b b' : Broker) : Prop :=
  ∀ id broker broker', b.controller.metadata.brokers.get id = some broker →
    b'.controller.metadata.brokers.get id = some broker' →
      broker.fenced = true → broker'.fenced = false → ¬ StaleTime now timeout broker.lastHeartbeat

inductive Beat
  | heartbeat (now : Time) (id : Int)
  | register (now : Time) (broker : BrokerMetadata)

def Beat.id : Beat → Int
  | .heartbeat _ id => id
  | .register _ broker => broker.id

def Beat.time : Beat → Time
  | .heartbeat now _ => now
  | .register now broker => stamped now broker

def Beat.fenced : Beat → Bool
  | .heartbeat _ _ => false
  | .register _ broker => broker.fenced

def Beat.land (b : Broker) : Beat → Broker
  | .heartbeat now id => { b with controller := (heartbeatBroker now b.controller id).1 }
  | .register now broker =>
      { b with controller := (b.controller.apply now (.registerBroker broker)).1 }

/-- Something lands, of the kind `kind` says. -/
def Lands (kind : Broker → Beat → Prop) (b b' : Broker) : Prop :=
  ∃ beat : Beat, kind b beat ∧ b' = beat.land b

/-- The broker was not stale at the start of the reconcile, or what lands is no
newer sign of life. -/
def Timely (now : Time) (timeout : Int) (b : Broker) (beat : Beat) : Prop :=
  ∀ broker, b.controller.metadata.brokers.get beat.id = some broker →
    StaleTime now timeout broker.lastHeartbeat → StaleTime now timeout beat.time

/-- What lands with the fence up is a sign of life. `RegisterBroker` of the
controller leaves the fence down. -/
def Lively (now : Time) (timeout : Int) (_ : Broker) (beat : Beat) : Prop :=
  beat.fenced = true → ¬ StaleTime now timeout beat.time

/-- What lands changes nothing but the record of its broker. -/
theorem land_cases {b : Broker} (henrolled : Enrolled b.controller.metadata) (beat : Beat) :
    Enrolled (beat.land b).controller.metadata ∧
    ((beat.land b).controller = b.controller ∨
      ∃ broker, broker.lastHeartbeat = beat.time ∧ broker.fenced = beat.fenced ∧
        (beat.land b).controller.metadata.brokers =
          b.controller.metadata.brokers.set beat.id broker) := by
  cases beat with
  | heartbeat now id =>
    refine ⟨henrolled.heartbeatBroker now id, ?_⟩
    rcases heartbeatBroker_cases now b.controller id with ⟨e, hfail⟩ | ⟨broker, r, hbroker, hdone⟩
    · exact .inl (congrArg Prod.fst hfail)
    · refine .inr ⟨{ broker with lastHeartbeat := now, fenced := false }, rfl, rfl, ?_⟩
      simp only [Beat.land, hdone, moved, Beat.id, (henrolled id broker hbroker).1]
  | register now broker =>
    rcases registerCommand_cases now b.controller broker with ⟨e, hfail⟩ | ⟨r, hid, hdone⟩
    · have hsame : (Beat.land b (.register now broker)).controller = b.controller :=
        congrArg Prod.fst hfail
      exact ⟨hsame ▸ henrolled, .inl hsame⟩
    · have hmoved := congrArg Prod.fst hdone
      refine ⟨?_, .inr ⟨{ broker with lastHeartbeat := stamped now broker }, rfl, rfl, ?_⟩⟩
      · simp only [Beat.land, hmoved, moved]
        exact henrolled.set rfl hid
      · simp only [Beat.land, hmoved, moved, Beat.id]

def Suits (now : Time) (timeout : Int) (timely lively : Prop) (items : List (Int × Bool))
    (id : Int) (broker : BrokerMetadata) : Prop :=
  (timely → (id, true) ∈ items → StaleTime now timeout broker.lastHeartbeat) ∧
    (lively → (id, false) ∈ items → broker.fenced = true →
      ¬ StaleTime now timeout broker.lastHeartbeat)

structure Pending (now : Time) (timeout : Int) (timely lively : Prop) (items : List (Int × Bool))
    (b : Broker) : Prop where
  enrolled : Enrolled b.controller.metadata
  once : ∀ id, (id, true) ∈ items → (id, false) ∉ items
  known : ∀ u ∈ items, b.controller.metadata.brokers.get u.1 ≠ none
  suits : ∀ id broker, b.controller.metadata.brokers.get id = some broker →
    Suits now timeout timely lively items id broker

def Rightly (now : Time) (timeout : Int) (timely lively : Prop) (b b' : Broker) : Prop :=
  (timely → FencesStale now timeout b b') ∧ (lively → ClearsLive now timeout b b')

section Reconcile

variable {now : Time} {timeout : Int} {timely lively : Prop} {items : List (Int × Bool)}
  {b b' : Broker}

/-- A heartbeat that lands leaves what is pending right. -/
theorem Pending.land (h : Pending now timeout timely lively items b) (beat : Beat)
    (htimely : timely → Timely now timeout b beat)
    (hlively : lively → Lively now timeout b beat) :
    Pending now timeout timely lively items (beat.land b) := by
  obtain ⟨henrolled, hsame | ⟨broker, htime, hfenced, hbrokers⟩⟩ := land_cases h.enrolled beat
  · exact ⟨henrolled, h.once, by rw [hsame]; exact h.known, by rw [hsame]; exact h.suits⟩
  · refine ⟨henrolled, h.once, fun u hu => ?_, fun id broker' hget => ?_⟩
    · rw [hbrokers, FMap.get_set]
      split
      · exact Option.some_ne_none _
      · exact h.known u hu
    · rw [hbrokers, FMap.get_set] at hget
      split at hget
      · rename_i heq
        cases hget
        subst heq
        rw [Suits, htime, hfenced]
        refine ⟨fun ht hid => ?_, fun hl _ hup => hlively hl hup⟩
        obtain ⟨before, hbefore⟩ := Option.ne_none_iff_exists'.mp (h.known _ hid)
        exact htimely ht before hbefore ((h.suits _ before hbefore).1 ht hid)
      · exact h.suits id broker' hget

/-- A call that changes the record of at most one broker is right if it is right
about that one. -/
theorem rightly_of_get {id : Int}
    (hsame : ∀ id', id' ≠ id → b'.controller.metadata.brokers.get id' =
      b.controller.metadata.brokers.get id')
    (h : ∀ broker broker', b.controller.metadata.brokers.get id = some broker →
      b'.controller.metadata.brokers.get id = some broker' →
        (timely → broker.fenced = false → broker'.fenced = true →
          StaleTime now timeout broker.lastHeartbeat) ∧
        (lively → broker.fenced = true → broker'.fenced = false →
          ¬ StaleTime now timeout broker.lastHeartbeat)) :
    Rightly now timeout timely lively b b' := by
  have hother : ∀ id' broker broker', id' ≠ id →
      b.controller.metadata.brokers.get id' = some broker →
        b'.controller.metadata.brokers.get id' = some broker' →
          broker.fenced ≠ !broker'.fenced := by
    intro id' broker broker' hne hget hget'
    rw [hsame id' hne, hget] at hget'
    cases hget'
    simp
  refine ⟨fun ht id' broker broker' hget hget' hdown hup => ?_,
    fun hl id' broker broker' hget hget' hup hdown => ?_⟩
  · by_cases hid : id' = id
    · subst hid
      exact (h broker broker' hget hget').1 ht hdown hup
    · exact absurd (by rw [hdown, hup]; rfl) (hother id' broker broker' hid hget hget')
  · by_cases hid : id' = id
    · subst hid
      exact (h broker broker' hget hget').2 hl hup hdown
    · exact absurd (by rw [hdown, hup]; rfl) (hother id' broker broker' hid hget hget')

theorem rightly_same (h : b'.controller = b.controller) :
    Rightly now timeout timely lively b b' := by
  refine rightly_of_get (fun _ (_ : _ ≠ (0 : Int)) => by rw [h])
    (fun broker broker' hget hget' => ?_)
  rw [h, hget] at hget'
  cases hget'
  refine ⟨fun _ hdown hup => ?_, fun _ hup hdown => ?_⟩
  · rw [hdown] at hup
    cases hup
  · rw [hdown] at hup
    cases hup

theorem Pending.tail {u : Int × Bool} (h : Pending now timeout timely lively (u :: items) b) :
    Pending now timeout timely lively items b :=
  ⟨h.enrolled, fun id hid hid' => h.once id (.tail _ hid) (.tail _ hid'),
    fun v hv => h.known v (.tail _ hv), fun id broker hget =>
      ⟨fun ht hid => (h.suits id broker hget).1 ht (.tail _ hid),
        fun hl hid => (h.suits id broker hget).2 hl (.tail _ hid)⟩⟩

/-- A fence that the check sets is a right one. -/
theorem Pending.setFence {u : Int × Bool} (h : Pending now timeout timely lively (u :: items) b)
    (clock : Time) :
    Rightly now timeout timely lively b
        { b with controller := (setBrokerFence clock b.controller u.1 u.2).1 } ∧
      Pending now timeout timely lively items
        { b with controller := (setBrokerFence clock b.controller u.1 u.2).1 } := by
  have hrest := h.tail
  rcases setBrokerFence_cases clock b.controller u.1 u.2 with
    ⟨e, hfail⟩ | ⟨broker, r, hbroker, hdone⟩
  · rw [hfail]
    exact ⟨rightly_same rfl, hrest⟩
  · have hid := (h.enrolled u.1 broker hbroker).1
    have hget : ∀ id, ({ b with controller := (setBrokerFence clock b.controller u.1 u.2).1 } :
        Broker).controller.metadata.brokers.get id =
          if id = u.1 then some { broker with fenced := u.2 }
          else b.controller.metadata.brokers.get id := by
      intro id
      simp only [hdone, moved, hid, FMap.get_set]
    have hflag : ∀ {fenced : Bool}, u.2 = fenced → (u.1, fenced) ∈ u :: items := by
      rintro _ rfl
      exact .head _
    obtain ⟨hstale, hlive⟩ := h.suits u.1 broker hbroker
    refine ⟨rightly_of_get (fun id hne => by rw [hget, if_neg hne]) ?_,
      h.enrolled.setBrokerFence clock u.1 u.2, hrest.once, fun v hv => ?_, ?_⟩
    · intro before after hbefore hafter
      rw [hbroker] at hbefore
      rw [hget, if_pos rfl] at hafter
      cases hbefore
      cases hafter
      exact ⟨fun ht _ hup => hstale ht (hflag hup),
        fun hl hup hdown => hlive hl (hflag hdown) hup⟩
    · rw [hget]
      split
      · exact Option.some_ne_none _
      · exact hrest.known v hv
    · intro id broker' hbroker'
      rw [hget] at hbroker'
      split at hbroker'
      · rename_i heq
        cases hbroker'
        subst heq
        refine ⟨(hrest.suits u.1 broker hbroker).1, fun _ hmem hup => ?_⟩
        exact absurd (.tail _ hmem) (h.once u.1 (hflag hup))
      · exact hrest.suits id broker' hbroker'

/-- The commands that a snapshot asks for suit the state it is taken from. -/
theorem pending_start (henrolled : Enrolled b.controller.metadata) (timely lively : Prop) :
    Pending now timeout timely lively (healthUpdates now timeout b.controller.metadata) b := by
  have hdecided : ∀ id fenced, (id, fenced) ∈ healthUpdates now timeout b.controller.metadata →
      ∃ broker, b.controller.metadata.brokers.get id = some broker ∧
        fenced = decide (StaleTime now timeout broker.lastHeartbeat) := by
    intro id fenced hu
    obtain ⟨id', -, hmap⟩ := List.mem_filterMap.mp hu
    obtain ⟨fenced', hbind, hpair⟩ := Option.map_eq_some_iff.mp hmap
    obtain ⟨broker, hbroker, hreconcile⟩ := Option.bind_eq_some_iff.mp hbind
    cases hpair
    refine ⟨broker, hbroker, ?_⟩
    unfold reconcileBroker at hreconcile
    dsimp only at hreconcile
    split at hreconcile
    · cases hreconcile
    · exact (Option.some.inj hreconcile).symm
  refine ⟨henrolled, fun id hup hdown => ?_, fun u hu => ?_, fun id broker hget => ⟨?_, ?_⟩⟩
  · obtain ⟨broker, hbroker, hstale⟩ := hdecided id true hup
    obtain ⟨broker', hbroker', hlive⟩ := hdecided id false hdown
    rw [hbroker] at hbroker'
    cases hbroker'
    rw [← hstale] at hlive
    cases hlive
  · obtain ⟨broker, hbroker, -⟩ := hdecided u.1 u.2 hu
    rw [hbroker]
    exact Option.some_ne_none _
  · intro _ hid
    obtain ⟨broker', hbroker', hstale⟩ := hdecided id true hid
    rw [hget] at hbroker'
    cases hbroker'
    exact of_decide_eq_true hstale.symm
  · intro _ hid _
    obtain ⟨broker', hbroker', hlive⟩ := hdecided id false hid
    rw [hget] at hbroker'
    cases hbroker'
    exact of_decide_eq_false hlive.symm

def Kind (now : Time) (timeout : Int) (timely lively : Prop) (b : Broker) (beat : Beat) : Prop :=
  (timely → Timely now timeout b beat) ∧ (lively → Lively now timeout b beat)

/-- Whatever lands in between, the check fences rightly. -/
theorem reconcile_upholds (env : Surroundings) (timeout : Int) (timely lively : Prop)
    (henrolled : Enrolled b.controller.metadata) :
    Program.Upholds (Lands (Kind (env.clock 0) timeout timely lively))
      (Rightly (env.clock 0) timeout timely lively) (fun _ _ => True)
      (reconcileBrokerHealth env timeout) b := by
  unfold reconcileBrokerHealth
  split
  · trivial
  · have hsnapshot : Program.Upholds (Lands (Kind (env.clock 0) timeout timely lively))
        (Rightly (env.clock 0) timeout timely lively) (fun b' metadata =>
          Enrolled b'.controller.metadata ∧ metadata = b'.controller.metadata) snapshot b := by
      refine Program.upholds_modify (fun t hlands => ⟨rightly_same rfl, ?_, rfl⟩)
      refine Program.stable (I := fun b => Enrolled b.controller.metadata) ?_ hlands henrolled
      rintro s t ⟨beat, -, rfl⟩ hs
      exact (land_cases hs beat).1
    refine Program.upholds_bind hsnapshot ?_
    rintro t metadata ⟨ht, rfl⟩
    refine (upholds_attemptAll (Pending (env.clock 0) timeout timely lively) (fun _ => True) ?_
      (pending_start ht timely lively) 0).weaken (fun _ _ _ => trivial)
    intro u rest b' hpending
    refine Program.upholds_modify (fun t hlands => ?_)
    have ht : Pending (env.clock 0) timeout timely lively (u :: rest) t := by
      refine Program.stable ?_ hlands hpending
      rintro s t ⟨beat, ⟨htimely, hlively⟩, rfl⟩ hs
      exact hs.land beat htimely hlively
    obtain ⟨hrightly, hnext⟩ := ht.setFence (env.clock 1)
    refine ⟨hrightly, ?_⟩
    dsimp only
    split
    · trivial
    · exact hnext

/-- The reconcile clears no fence of a stale broker if none registers with its
fence up, and it fences stale brokers only if none gives a newer sign of life. -/
theorem reconcile_fences_rightly (env : Surroundings) (timeout : Int)
    (henrolled : Enrolled b.controller.metadata) :
    (∀ t u, Program.Makes (Lands (Timely (env.clock 0) timeout))
      (reconcileBrokerHealth env timeout) b t u → FencesStale (env.clock 0) timeout t u) ∧
    ∀ t u, Program.Makes (Lands (Lively (env.clock 0) timeout)) (reconcileBrokerHealth env timeout)
      b t u → ClearsLive (env.clock 0) timeout t u := by
  refine ⟨fun t u hmakes => ?_, fun t u hmakes => ?_⟩
  · refine ((reconcile_upholds env timeout True False henrolled).makes (hmakes.mono ?_)).1 trivial
    rintro s t ⟨beat, htimely, rfl⟩
    exact ⟨beat, ⟨fun _ => htimely, False.elim⟩, rfl⟩
  · refine ((reconcile_upholds env timeout False True henrolled).makes (hmakes.mono ?_)).2 trivial
    rintro s t ⟨beat, hlively, rfl⟩
    exact ⟨beat, ⟨False.elim, fun _ => hlively⟩, rfl⟩

end Reconcile

theorem enrolled_alone : Enrolled aloneBroker.controller.metadata :=
  enrolled_new.registerBroker _ _ _ _ _

def later : Surroundings := { quiet with clock := fun _ => 100 }

def commanded (b : Broker) (id : Int) (fenced : Bool) : Broker :=
  { b with controller := (setBrokerFence 100 b.controller id fenced).1 }

def guarded : Broker := Beat.land aloneBroker (.register 95 ⟨1, [], 0, 0, zeroTime, true⟩)

theorem enrolled_guarded : Enrolled guarded.controller.metadata :=
  (land_cases enrolled_alone _).1

def joining : Beat := .register 100 ⟨2, [], 0, 0, zeroTime, false⟩

section Guarded

variable {kind : Broker → Beat → Prop} (hkind : kind guarded joining)

theorem makes_guarded {t u : Broker}
    (h : Program.Makes (Lands kind) (attemptAll (fun c : Int × Bool =>
      callSetBrokerFence (later.clock 1) c.1 c.2) [(0, true), (1, false)] 0) guarded t u) :
    Program.Makes (Lands kind) (reconcileBrokerHealth later 10) guarded t u := by
  have hupdates : healthUpdates (later.clock 0) 10 guarded.controller.metadata =
      [(0, true), (1, false)] := by decide
  unfold reconcileBrokerHealth
  rw [if_neg (by decide)]
  refine .inr ⟨guarded, guarded, guarded.controller.metadata, .refl, rfl, ?_⟩
  show Program.Makes _ (attemptAll _ (healthUpdates _ 10 guarded.controller.metadata) 0) _ _ _
  rw [hupdates]
  exact h

include hkind

theorem lands_joining : Relation.ReflTransGen (Lands kind) guarded (joining.land guarded) :=
  .single ⟨joining, hkind, rfl⟩

/-- The reconcile fences broker 0 after broker 2 has registered. -/
theorem makes_fence :
    Program.Makes (Lands kind) (reconcileBrokerHealth later 10) guarded (joining.land guarded)
      (commanded (joining.land guarded) 0 true) :=
  makes_guarded (.inl ⟨_, lands_joining hkind, rfl⟩)

/-- It clears the fence of broker 1 then. -/
theorem makes_clear :
    Program.Makes (Lands kind) (reconcileBrokerHealth later 10) guarded
      (commanded (joining.land guarded) 0 true)
      (commanded (commanded (joining.land guarded) 0 true) 1 false) := by
  obtain ⟨r, hr⟩ : ∃ r, (setBrokerFence 100 (joining.land guarded).controller 0 true).2 = .ok r :=
    ⟨_, rfl⟩
  refine makes_guarded (.inr ⟨_, commanded (joining.land guarded) 0 true, .ok r,
    lands_joining hkind, ?_, .inl ⟨_, .refl, rfl⟩⟩)
  exact congrArg (fun answer => Except.ok (commanded (joining.land guarded) 0 true, answer)) hr

end Guarded

theorem reconcile_fences_rightly_later :
    let arrived := joining.land guarded
    let fenced := commanded arrived 0 true
    let cleared := commanded fenced 1 false
    ((fenced.controller.metadata.brokers.get 0).map BrokerMetadata.fenced = some true ∧
      FencesStale 100 10 arrived fenced) ∧
      (cleared.controller.metadata.brokers.get 1).map BrokerMetadata.fenced = some false ∧
      ClearsLive 100 10 fenced cleared := by
  intro arrived fenced cleared
  have htimely : Timely 100 10 guarded joining := by
    intro broker hget
    have hunknown : guarded.controller.metadata.brokers.get 2 = none := by decide
    cases hunknown.symm.trans hget
  have hlively : Lively 100 10 guarded joining := fun hfenced => by cases hfenced
  obtain ⟨hfences, hclears⟩ := reconcile_fences_rightly later 10 enrolled_guarded
  exact ⟨⟨by decide, hfences _ _ (makes_fence htimely)⟩, by decide,
    hclears _ _ (makes_clear hlively)⟩

def revived : Broker := Beat.land aloneBroker (.heartbeat 100 0)

def overtaken : Broker := commanded revived 0 true

/-- A heartbeat that lands between the snapshot and the command is overruled. -/
theorem live_broker_fenced :
    Program.Makes (Lands (fun _ _ => True)) (reconcileBrokerHealth later 10) aloneBroker revived
        overtaken ∧
      ¬ FencesStale (later.clock 0) 10 revived overtaken := by
  constructor
  · have hupdates : healthUpdates (later.clock 0) 10 aloneBroker.controller.metadata =
        [(0, true)] := by decide
    unfold reconcileBrokerHealth
    rw [if_neg (by decide)]
    refine .inr ⟨aloneBroker, aloneBroker, aloneBroker.controller.metadata, .refl, rfl, ?_⟩
    show Program.Makes _ (attemptAll _ (healthUpdates _ 10 aloneBroker.controller.metadata) 0)
      _ _ _
    rw [hupdates]
    exact .inl ⟨_, .single ⟨.heartbeat 100 0, trivial, rfl⟩, rfl⟩
  · intro h
    have hfenced : ∃ broker broker', revived.controller.metadata.brokers.get 0 = some broker ∧
        overtaken.controller.metadata.brokers.get 0 = some broker' ∧ broker.fenced = false ∧
        broker'.fenced = true ∧ ¬ StaleTime (later.clock 0) 10 broker.lastHeartbeat :=
      ⟨_, _, rfl, rfl, rfl, rfl, by decide⟩
    obtain ⟨broker, broker', hget, hget', hdown, hup, hlive⟩ := hfenced
    exact hlive (h 0 broker broker' hget hget' hdown hup)

end Flux.HealthFencing
