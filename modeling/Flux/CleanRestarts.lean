import Flux.AcknowledgedWrites

/-!
What a restart brings back of the records that a producer was told of. While
every line that is written fits the buffer of the scanner that replays it, a
restart recovers every acknowledged record that retention has not removed, and
numbers go on above them.
-/
namespace Flux.CleanRestarts

open GoStrings FiniteMap BrokerConfig PartitionStorage Groups OffsetCommits Runs SegmentedLogs
open StorageReplay StorageAppends StorageRecovery StorageRuns StorageFrames Protocol BrokerNode
open GoRuntime BrokerRuns Receipts ProduceReceipts
open AcknowledgedWrites hiding step
open StorageCalls hiding step
open ProgramCalls

variable {r : Receipt} {b : Broker}

/-- A line of a connection, with what its handling meets outside the broker. -/
abbrev Delivery := Surroundings × Str

/-- One turn of the loop of `HandleConnection`. -/
def serve (b : Broker) (delivery : Delivery) : Broker :=
  match (handleLine delivery.1 delivery.2).run b with
  | .ok (b', _) => b'
  | .error _ => b

def replyTo (b : Broker) (delivery : Delivery) : Option Str :=
  match (handleLine delivery.1 delivery.2).run b with
  | .ok (_, response) => some response
  | .error _ => none

def Acknowledged (b : Broker) (deliveries : List Delivery) (r : Receipt) : Prop :=
  ∃ front delivery back response, deliveries = front ++ delivery :: back ∧
    replyTo (run serve b front) delivery = some response ∧ Acknowledges delivery.2 response r

structure Appending (env : Env) (r : Receipt) (s s' : Storage) : Prop where
  storage : s' = (produceToPartition env s r.topic r.partition r.value).1
  offset : r.offset = (stateOf env s r.topic r.partition).nextOffset

def Spared (s s' : Storage) : Prop :=
  ∀ topic partition, ∀ m ∈ messagesOf s topic partition, m ∈ messagesOf s' topic partition

def Roomy (b : Broker) (delivery : Delivery) : Prop :=
  ∀ req topic value, parseRequest delivery.2 = .ok req → Produces req topic value →
    Plain topic ∧ ∀ partition offset,
      Appending delivery.1.storage ⟨topic, partition, offset, value⟩ b.storage
        (serve b delivery).storage → Fits delivery.1.storage offset value

/-- File operations succeed, lines are short enough for the log and retention
removes nothing. -/
structure Gentle (b : Broker) (delivery : Delivery) : Prop where
  succeeds : Succeeds delivery.1.storage
  roomy : Roomy b delivery
  spared : Spared b.storage (serve b delivery).storage

structure Recovered (b : Broker) (deliveries : List Delivery) (s : Storage) : Prop where
  records : ∀ r, Acknowledged b deliveries r →
    ⟨r.offset, r.value⟩ ∈ messagesOf s r.topic r.partition
  next : ∀ r, Acknowledged b deliveries r → ∃ m ∈ messagesOf s r.topic r.partition,
    (∀ m' ∈ messagesOf s r.topic r.partition, m'.offset ≤ m.offset) ∧
      nextOffsetOf s r.topic r.partition = m.offset + 1

theorem produceToPartition_offset (env : Env) (s : Storage) (topic : Str) (partition : Int)
    (value : Str) : (produceToPartition env s topic partition value).2.2 =
      (stateOf env s topic partition).nextOffset := by
  have hensured : stateOf env (ensurePartitionState env s topic partition) topic partition =
      stateOf env s topic partition := stateOf_eq env topic partition (get2_setState ..)
  unfold produceToPartition
  dsimp only
  rw [hensured]
  split
  · split <;> rfl
  · rfl

theorem touches_storage (b b' : Broker) (h : Touches (fun _ _ => False) b b') :
    b'.storage = b.storage := by
  cases h with
  | storage hstored => exact absurd hstored id
  | same => rfl
  | replication m => rfl
  | coordinator c => rfl
  | workers w => rfl
  | controller hstore => rfl

structure Gains (delivery : Delivery) (r : Receipt) (b b' : Broker) : Prop where
  asked : ∃ req, parseRequest delivery.2 = .ok req ∧ Produces req r.topic r.value
  partition : Natural r.partition
  appending : Appending delivery.1.storage r b.storage b'.storage

theorem giving_gains (delivery : Delivery) :
    Giving (fun _ => True) (Gains delivery) delivery.1 delivery.2 :=
  fun req topic value hreq hproduces b partition _ hp =>
    ⟨⟨req, hreq, hproduces⟩, hp, rfl,
      produceToPartition_offset delivery.1.storage b.storage topic partition value⟩

/-- A line that is answered leaves the storage as it is and acknowledges nothing,
or appends the one record that it may acknowledge. -/
theorem serve_cases (b : Broker) (delivery : Delivery) :
    ((serve b delivery).storage = b.storage ∧
      ∀ response r, replyTo b delivery = some response → ¬ Acknowledges delivery.2 response r) ∨
    ∃ r, Gains delivery r b (serve b delivery) ∧
      ∀ response q, replyTo b delivery = some response → Acknowledges delivery.2 response q →
        q = r := by
  obtain ⟨env, text⟩ := delivery
  unfold serve replyTo
  cases hrun : (handleLine env text).run b with
  | error e => exact .inl ⟨rfl, fun response r hanswer => absurd hanswer (by simp)⟩
  | ok result =>
    obtain ⟨b', a⟩ := result
    have hissues : Issues (fun _ => True) (Touches (fun _ _ => False)) (Gains (env, text))
        (Truthful (.line env text)) (handleLine env text) none :=
      gives_handleLine (giving_gains (env, text))
    rcases hissues.run touches_storage hrun with
      ⟨hstorage, hpost⟩ | ⟨r, b₁, b₂, -, hfirst, hgains, hlast, hpost⟩
    · refine .inl ⟨hstorage, fun response r hanswer hack => ?_⟩
      cases hanswer
      exact absurd (hpost env text r rfl hack) (by simp)
    · refine .inr ⟨r, ⟨hgains.asked, hgains.partition, ?_⟩, fun response q hanswer hack => ?_⟩
      · have happending := hgains.appending
        rw [hfirst, ← hlast] at happending
        exact happending
      · cases hanswer
        exact (Option.some.inj (hpost env text q rfl hack)).symm

structure InLog (s : Storage) (r : Receipt) : Prop where
  topic : Plain r.topic
  partition : Natural r.partition
  recorded : ⟨r.offset, r.value⟩ ∈ messagesOf s r.topic r.partition

theorem InLog.spared {s s' : Storage} (h : Spared s s') (hr : InLog s r) : InLog s' r :=
  ⟨hr.topic, hr.partition, h _ _ _ hr.recorded⟩

/-- What a gentle request acknowledges is in the log. -/
theorem serve_step {n : ℕ} (hn : n + 1 < 2 ^ 63) (hsound : Sound n b.storage)
    {delivery : Delivery} (hgentle : Gentle b delivery) :
    Sound (n + 1) (serve b delivery).storage ∧
      ∀ response r, replyTo b delivery = some response → Acknowledges delivery.2 response r →
        InLog (serve b delivery).storage r := by
  rcases serve_cases b delivery with ⟨hsame, hsilent⟩ | ⟨r, hgains, honly⟩
  · rw [hsame]
    exact ⟨sound_succ hsound, fun response r hanswer hack =>
      absurd hack (hsilent response r hanswer)⟩
  · obtain ⟨⟨req, hreq, hproduces⟩, hp, happending⟩ := hgains
    obtain ⟨ht, hfits⟩ := hgentle.roomy req r.topic r.value hreq hproduces
    have hoffset := happending.offset
    have hadm : Admissible b.storage (.produce delivery.1.storage r.topic r.partition r.value) :=
      ⟨hgentle.succeeds, ht, hp, hproduces.lineSafe hreq,
        hoffset ▸ hfits r.partition r.offset happending⟩
    rw [← produceToPartition_offset delivery.1.storage b.storage r.topic r.partition r.value]
      at hoffset
    rw [happending.storage]
    refine ⟨(produced_spec hsound hn hadm).sound, fun response q hanswer hack => ?_⟩
    rw [honly response q hanswer hack]
    have hin := produced_in_log hsound hn hadm
    rw [← hoffset] at hin
    exact ⟨ht, hp, hin⟩

theorem acknowledged_cons {delivery : Delivery} {rest : List Delivery}
    (h : Acknowledged b (delivery :: rest) r) :
    (∃ response, replyTo b delivery = some response ∧ Acknowledges delivery.2 response r) ∨
      Acknowledged (serve b delivery) rest r := by
  obtain ⟨front, delivery', back, response, heq, hanswer, hack⟩ := h
  cases front with
  | nil =>
    cases heq
    exact .inl ⟨response, hanswer, hack⟩
  | cons first front =>
    cases heq
    exact .inr ⟨front, delivery', back, response, rfl, hanswer, hack⟩

/-- Along a run of gentle lines the records that are in their logs stay there, and
so do the acknowledged ones. -/
theorem run_keeps {deliveries : List Delivery} {n : ℕ} (hsound : Sound n b.storage)
    (hvalid : Valid serve Gentle b deliveries) (hn : n + deliveries.length < 2 ^ 63) :
    Sound (n + deliveries.length) (run serve b deliveries).storage ∧
      Spared b.storage (run serve b deliveries).storage ∧
      ∀ r, Acknowledged b deliveries r → InLog (run serve b deliveries).storage r := by
  induction deliveries generalizing n b with
  | nil =>
    refine ⟨hsound, fun _ _ _ hm => hm, fun r hr => ?_⟩
    obtain ⟨front, delivery, back, response, heq, -⟩ := hr
    exact absurd heq.symm (by simp)
  | cons delivery rest ih =>
    obtain ⟨hgentle, hrest⟩ := hvalid
    rw [List.length_cons] at hn ⊢
    obtain ⟨hnext, hrecorded⟩ := serve_step (by omega) hsound hgentle
    obtain ⟨hfinal, hspared, hlater⟩ := ih hnext hrest (by omega)
    have hcount : n + (rest.length + 1) = n + 1 + rest.length := by omega
    rw [hcount]
    refine ⟨hfinal, fun t p m hm => hspared t p m (hgentle.spared t p m hm), fun r hr => ?_⟩
    rcases acknowledged_cons hr with ⟨response, hanswer, hack⟩ | hr
    · exact (hrecorded response r hanswer hack).spared hspared
    · exact hlater r hr

section Restart

variable {n : ℕ} {s : Storage} (hsound : Sound n s) {topic : Str} {partition : Int}
  (ht : Plain topic) (hp : Natural partition)

include hsound ht hp

/-- A restart reads the logs as they were. -/
theorem messagesOf_loaded {env : Env} (hok : Succeeds env) (settings : Settings) :
    messagesOf (loaded env settings s.disk) topic partition = messagesOf s topic partition := by
  obtain ⟨L, hL, -⟩ := hsound.logs topic partition ht hp
  have hload := holds_loadData settings hok hsound.named.names (ht.key hp) ht.no_slash hL.stored
  rw [loaded, hload.messages, hL.messages]

/-- The next offset is one above the largest of a log that is not empty. -/
theorem next_above_largest (hne : messagesOf s topic partition ≠ []) :
    ∃ m ∈ messagesOf s topic partition,
      (∀ m' ∈ messagesOf s topic partition, m'.offset ≤ m.offset) ∧
        nextOffsetOf s topic partition = m.offset + 1 := by
  obtain ⟨L, hL, -⟩ := hsound.logs topic partition ht hp
  have hconsistent := consistent_of_holds hL
  obtain ⟨m, hm⟩ : ∃ m, (messagesOf s topic partition).getLast? = some m :=
    ⟨_, List.getLast?_eq_some_getLast hne⟩
  have hnext : nextOffsetOf s topic partition = m.offset + 1 := by
    rw [hconsistent.next, lastOffset, hm]
  refine ⟨m, List.mem_of_getLast? hm, fun m' hm' => ?_, hnext⟩
  have hlt : m'.offset < after Message.offset 0 (messagesOf s topic partition) :=
    hconsistent.consecutive.lt_after hm'
  rw [after, hm] at hlt
  change m'.offset < m.offset + 1 at hlt
  omega

end Restart

/-- After every run of lines that fit the log, for topics with plain names, a restart
recovers every acknowledged record, as long as retention removes none. -/
theorem acknowledged_records_recovered {env : Surroundings} (hok : Succeeds env.storage)
    (cfg : Config) (fallbackHost : Str) (fallbackPort : Int) (file : GroupsFile)
    (offsets : OffsetManager) (deliveries : List Delivery)
    (hvalid : Valid serve Gentle
      (newBroker env cfg fallbackHost fallbackPort FMap.empty file offsets) deliveries)
    (hlength : deliveries.length < 2 ^ 63) {env' : Env} (hok' : Succeeds env')
    (settings : Settings) :
    let b := newBroker env cfg fallbackHost fallbackPort FMap.empty file offsets
    let disk := (run serve b deliveries).storage.disk
    Spared (loaded env' settings disk) (newStorage env' settings disk) →
      Recovered b deliveries (newStorage env' settings disk) := by
  intro b disk hspared
  obtain ⟨hsound, -, hinlog⟩ := run_keeps (sound_empty hok (newSettings cfg)) hvalid (by omega)
  have hrestarted := (restarted_spec hsound hok' settings).sound
  have hrecord : ∀ r, Acknowledged b deliveries r →
      InLog (newStorage env' settings disk) r := by
    intro r hr
    have hin := hinlog r hr
    refine InLog.spared hspared ⟨hin.topic, hin.partition, ?_⟩
    rw [messagesOf_loaded hsound hin.topic hin.partition hok' settings]
    exact hin.recorded
  refine ⟨fun r hr => (hrecord r hr).recorded, fun r hr => ?_⟩
  obtain ⟨ht, hp, hin⟩ := hrecord r hr
  exact next_above_largest hrestarted ht hp (List.ne_nil_of_mem hin)

/-- Retention keeps the only segment of a partition. -/
theorem enforceRetention_eq_self {env : Env} {s : Storage}
    (h : ∀ key ∈ stateKeys s, (stateOf env s key.1 key.2).segments.tail = []) :
    enforceRetentionLocked env s = s := by
  have hsole : ∀ key ∈ env.visit (stateKeys s), retainPartition env s key = s := by
    intro key hkey
    have htail := h key ((env.visit_perm _).mem_iff.mp hkey)
    have hage : applyAgeRetention env s key.1 key.2 = s := by
      unfold applyAgeRetention
      split
      · rfl
      · cases hsegments : (stateOf env s key.1 key.2).segments with
        | nil => rfl
        | cons segID rest =>
          rw [hsegments] at htail
          cases htail
          rfl
    rw [retainPartition, hage]
    unfold applySizeRetention
    split
    · rfl
    · dsimp only
      cases hsegments : (stateOf env s key.1 key.2).segments with
      | nil => rfl
      | cons segID rest =>
        rw [hsegments] at htail
        cases htail
        rfl
  rw [enforceRetentionLocked]
  generalize env.visit (stateKeys s) = keys at hsole
  induction keys with
  | nil => rfl
  | cons key rest ih =>
    rw [List.foldl_cons, hsole key (List.mem_cons_self ..)]
    exact ih (fun key' hkey' => hsole key' (List.mem_cons_of_mem _ hkey'))

theorem sole_key {V : Type} {m : FMap Str (FMap Int V)} (a : Str) (b : Int) {t : Str} {p : Int}
    {v : V} (hkeys : m.keys = [a]) (hinner : (m.get a).map FMap.keys = some [b])
    (h : get2 m t p = some v) : t = a ∧ p = b := by
  obtain ⟨inner, hget, hv⟩ := Option.bind_eq_some_iff.mp h
  have ht := (FMap.mem_keys_iff m t).mpr ⟨inner, hget⟩
  rw [hkeys, List.mem_singleton] at ht
  subst ht
  rw [hget] at hinner
  have hp := (FMap.mem_keys_iff inner p).mpr ⟨v, hv⟩
  rw [Option.some.inj hinner, List.mem_singleton] at hp
  exact ⟨rfl, hp⟩

theorem roomy_of_acknowledges {text response : Str} (h : Acknowledges text response r)
    (ht : Plain r.topic) (hshort : Short r.value)
    (hnext : ∀ partition, InInt64 (stateOf quiet.storage b.storage r.topic partition).nextOffset) :
    Roomy b (quiet, text) := by
  intro req topic value hreq hproduces
  obtain ⟨-, htopic, hvalue⟩ := tameLine_of_acknowledges h ht hshort req topic value hreq hproduces
  obtain ⟨req', hw, hreq', hproduces', -⟩ := h
  cases hreq.symm.trans hreq'
  obtain ⟨rfl, rfl⟩ := hproduces.unique hproduces'
  refine ⟨htopic, fun partition offset happending => hvalue.fits _ ?_⟩
  have hoffset : offset = (stateOf quiet.storage b.storage r.topic partition).nextOffset :=
    happending.offset
  rw [hoffset]
  exact hnext partition

def once : Broker := serve aloneBroker (quiet, firstLine)

theorem gentle_first : Gentle aloneBroker (quiet, firstLine) where
  succeeds := calm_succeeds 0
  roomy := roomy_of_acknowledges (acknowledges_first 0 0) (by decide) (by decide)
    (fun _ => show InInt64 0 from ⟨by decide, by decide⟩)
  spared := fun topic partition m hm => absurd hm List.not_mem_nil

theorem gentle_second : Gentle once (quiet, secondLine) where
  succeeds := calm_succeeds 0
  roomy := by
    refine roomy_of_acknowledges (acknowledges_second 1 1) (by decide) (by decide)
      (fun partition => ?_)
    cases hget : get2 once.storage.partitionState (lit "orders") partition with
    | none =>
      rw [stateOf, hget]
      exact ⟨by decide, by decide⟩
    | some ps =>
      obtain ⟨-, rfl⟩ := sole_key (lit "orders") 0 (by decide +kernel) (by decide +kernel) hget
      rw [show (stateOf quiet.storage once.storage (lit "orders") 0).nextOffset = 1 by
        decide +kernel]
      exact ⟨by decide, by decide⟩
  spared := by
    intro topic partition m hm
    cases hget : get2 once.storage.data topic partition with
    | none =>
      rw [messagesOf, hget] at hm
      exact absurd hm List.not_mem_nil
    | some messages =>
      obtain ⟨rfl, rfl⟩ := sole_key (lit "orders") 0 (by decide +kernel) (by decide +kernel) hget
      rw [show messagesOf once.storage (lit "orders") 0 = [⟨0, lit "v"⟩] by decide +kernel] at hm
      rw [show messagesOf (serve once (quiet, secondLine)).storage (lit "orders") 0 =
        [⟨0, lit "v"⟩, ⟨1, lit "w"⟩] by decide +kernel]
      exact List.mem_of_mem_head? (List.mem_singleton.mp hm ▸ rfl)

/-- Two acknowledged records are there after the restart. -/
theorem acknowledged_records_recovered_two :
    let deliveries := [(quiet, firstLine), (quiet, secondLine)]
    Acknowledged aloneBroker deliveries ⟨lit "orders", 0, 0, lit "v"⟩ ∧
      Acknowledged aloneBroker deliveries ⟨lit "orders", 0, 1, lit "w"⟩ ∧
      Recovered aloneBroker deliveries (newStorage (calm 1) (newSettings alone)
        (run serve aloneBroker deliveries).storage.disk) := by
  intro deliveries
  refine ⟨⟨[], _, [(quiet, secondLine)], _, rfl, by decide +kernel, acknowledges_first 0 0⟩,
    ⟨[(quiet, firstLine)], _, [], _, rfl, by decide +kernel, acknowledges_second 1 1⟩, ?_⟩
  refine acknowledged_records_recovered (calm_succeeds 0) alone [] 0 (.holds FMap.empty)
    ⟨FMap.empty⟩ deliveries ⟨gentle_first, gentle_second, trivial⟩ (by decide) (calm_succeeds 1)
    (newSettings alone) ?_
  intro topic partition m hm
  rw [newStorage, enforceRetention_eq_self (by decide +kernel)]
  exact hm

end Flux.CleanRestarts
