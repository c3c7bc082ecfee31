import Flux.ClusterProgress
import Flux.FixedLeader
import Flux.LogMatching

/-!
Acknowledgements of followers. An acknowledgement is cut to the offset that the
leader's manager knows of, and a cycle without records sends none, so one that comes
early or is lost is never made up for. If none is, and workers are answered only
while the manager knows of every stored record, then the manager has recorded the
last offset of every follower that is caught up.
-/
namespace Flux.LostAcks

open GoRuntime GoStrings FiniteMap BrokerConfig ReplicationManager BrokerNode ReplicaCluster
open ClusterSteps ClusterCalls ClusterLogs ClusterProgress RuntimeSteps FixedLeader LogMatching Runs
open PartitionStorage (lastOffset Message)
open ReplicaProgress (Sound ackReplica_ok get_recompute partitionOf_setPartition_self run_sound
  run_followers run_cfg step_moves)

section Partition

variable (topic : Str) (partition leader : Int) {f : Int} {state : ReplicaWorkerState}

def recorded (n : Node) (f : Int) : Int :=
  ((n.progress topic partition).followers.get f).elim (-1) ReplicaState.offset

def Produce.unreported : Produce → Bool
  | .stored _ _ => true
  | _ => false

/-- If the answer to a follower brings nothing and every append of its leader was
reported, then its last offset is recorded. -/
def NoAckLost (c : Cluster) (f : Int) (seq : ℕ) : Prop :=
  caughtUp topic partition c f seq → ∀ state ∈ (c f).following topic partition,
    (∀ p ∈ (c state.leaderID).produces, Produce.unreported p = false) →
    lastOffset (c f).broker.storage topic partition ≤
      recorded topic partition (c state.leaderID) f

def Activity.acking : Activity → Bool
  | .stepping (.acking _) => true
  | _ => false

def Event.loser : Event → Option Int
  | .lose f => some f
  | _ => none

def Event.acker : Event → Option Int
  | .ack f _ _ => some f
  | _ => none

structure Delivered (c : Cluster) (e : Event) : Prop where
  sent : ∀ f ∈ Event.loser e, Activity.acking (c f).runtime = false
  taken : ∀ f ∈ Event.acker e, f < (c leader).broker.replication.cfg.replicationFactor ∧
    ((c leader).progress topic partition).role = .leader

/-- A faithful step that loses no acknowledgement. -/
structure Reliable (c : Cluster) (e : Event) : Prop where
  faithful : Faithful topic partition leader c e
  delivered : Delivered topic partition leader c e

section Decidable

variable (c : Cluster) (e : Event)

instance (f : Int) (seq : ℕ) : Decidable (NoAckLost topic partition c f seq) :=
  inferInstanceAs (Decidable (_ → ∀ _ ∈ _, _ → _))

instance : Decidable (Delivered topic partition leader c e) :=
  decidable_of_iff ((∀ f ∈ Event.loser e, Activity.acking (c f).runtime = false) ∧
      ∀ f ∈ Event.acker e, f < (c leader).broker.replication.cfg.replicationFactor ∧
        ((c leader).progress topic partition).role = .leader)
    ⟨fun h => ⟨h.1, h.2⟩, fun h => ⟨h.sent, h.taken⟩⟩

instance : Decidable (Reliable topic partition leader c e) :=
  decidable_of_iff (Faithful topic partition leader c e ∧ Delivered topic partition leader c e)
    ⟨fun h => ⟨h.1, h.2⟩, fun h => ⟨h.faithful, h.delivered⟩⟩

end Decidable

def Caught (c : Cluster) (f : Int) : Prop :=
  (((c f).log topic partition).length : Int) ≤ recorded topic partition (c leader) f + 1 ∨
    ((c f).log topic partition).length < (known topic partition (c leader)).length

def Told (c : Cluster) (f : Int) : Activity → Prop
  | .stepping (.acking _) => True
  | .asked st => Caught topic partition leader c f ∧
      (st.leaderOffset < ((c f).log topic partition).length →
        (((c f).log topic partition).length : Int) ≤ recorded topic partition (c leader) f + 1)
  | _ => Caught topic partition leader c f

structure Attentive (c : Cluster) : Prop where
  led : Led topic partition leader c
  manager : ∃ cfg ops,
    (c leader).broker.replication = run ReplicaProgress.step (newManager cfg) ops
  told : ∀ f, f ≠ leader → Told topic partition leader c f (c f).runtime

variable {topic partition leader} {c : Cluster} {e : Event}

theorem acked_ge (r : ReplicaState) {leaderOffset offset : Int} (h : offset ≤ leaderOffset)
    (seen : Time) : offset ≤ (r.acked leaderOffset offset seen).offset := by
  dsimp only [ReplicaState.acked]
  split
  · omega
  · split <;> omega

theorem Told.caught {activity : Activity} (h : Told topic partition leader c f activity)
    (hacking : Activity.acking activity = false) : Caught topic partition leader c f := by
  cases activity with
  | stepping cycle =>
    cases cycle with
    | acking offset => cases hacking
    | idle => exact h
    | applying record rest => exact h
  | asked st => exact h.1
  | idle => exact h
  | snapped pm => exact h
  | looked pm lastOffset => exact h
  | turned pm lastOffset => exact h
  | booted pm lastOffset => exact h
  | failing pm => exact h
  | granted => exact h

theorem told_ofCycle (h : Caught topic partition leader c f) (cycle : FollowerWorkers.Cycle) :
    Told topic partition leader c f (.ofCycle cycle) := by
  cases cycle with
  | idle => exact h
  | applying record rest => exact h
  | acking offset => trivial

theorem acking_of_cycle {activity : Activity} (h : activity.cycle = .idle) :
    Activity.acking activity = false := by
  cases activity with
  | stepping cycle =>
    cases cycle with
    | acking offset => cases h
    | idle => rfl
    | applying record rest => rfl
  | _ => rfl

section Attentive

variable (h : Attentive topic partition leader c)

include h

theorem Attentive.sound : Sound ((c leader).progress topic partition) := by
  obtain ⟨cfg, ops, hops⟩ := h.manager
  unfold Node.progress
  rw [hops]
  exact run_sound cfg ops topic partition

/-- Recorded offsets do not go back. -/
theorem Attentive.recorded_step (e : Event) (f : Int) :
    recorded topic partition (c leader) f ≤
      recorded topic partition (step topic partition c e leader) f := by
  have hadvanced : ReplicaProgress.Advanced ((c leader).progress topic partition)
      ((step topic partition c e leader).progress topic partition) := by
    unfold Node.progress
    rcases managed_step topic partition c e leader with ⟨hsame, -⟩ | ⟨op, -, hop, -⟩
    · rw [hsame]
      exact ReplicaProgress.Advanced.refl _
    · rw [hop]
      exact (step_moves _ op topic partition).advanced
  obtain ⟨cfg, ops, hops⟩ := h.manager
  obtain ⟨ops', hops'⟩ := reached_step topic partition e ⟨ops, hops⟩
  have hsound : Sound ((step topic partition c e leader).progress topic partition) := by
    unfold Node.progress
    rw [hops']
    exact run_sound cfg ops' topic partition
  unfold recorded
  cases hr : ((c leader).progress topic partition).followers.get f with
  | some r =>
    obtain ⟨r', hr', hle⟩ := hadvanced.follower f r hr
    rw [hr']
    exact hle
  | none =>
    cases hr' : ((step topic partition c e leader).progress topic partition).followers.get f with
    | none => exact Int.le_refl _
    | some r' => exact hsound.lower f r' hr'

theorem known_length_le :
    ((known topic partition (c leader)).length : Int) ≤
      ((c leader).progress topic partition).leaderOffset + 1 := by
  have hnatural := Int.le_trans h.sound.natural h.sound.le_leader
  have hlength := List.length_take_le
    (((c leader).progress topic partition).leaderOffset + 1).toNat ((c leader).log topic partition)
  unfold known
  omega

/-- A follower whose log stays as it is stays caught. -/
theorem Attentive.caught_step (hretains : Retains topic partition c e)
    (hcaught : Caught topic partition leader c f)
    (hlog : (step topic partition c e f).log topic partition = (c f).log topic partition) :
    Caught topic partition leader (step topic partition c e) f := by
  have hrecorded := h.recorded_step e f
  have hknown := (h.led.known_step hretains).length_le
  unfold Caught
  rw [hlog]
  rcases hcaught with hle | hlt
  · exact .inl (by omega)
  · exact .inr (by omega)

end Attentive

/-- A follower that has a record to apply is behind what the manager knows. -/
theorem Led.caught_applying (h : Led topic partition leader c)
    (hstate : (c f).following topic partition = some state)
    {record : TCPTransport.ReplicationRecord} {rest : List TCPTransport.ReplicationRecord}
    (happlying : (c f).runtime = .stepping (.applying record rest)) :
    Caught topic partition leader c f := by
  have hlinked := h.linked f state hstate
  have hfits := hlinked.inStep.fits
  rw [happlying, hlinked.topic_eq, hlinked.partition_eq] at hfits
  have hlength := hfits.length_le
  rw [List.length_cons, List.length_map, List.length_drop] at hlength
  refine .inr ?_
  unfold Node.log
  omega

/-- The leader's manager records the last offset of a follower that reports it. -/
theorem Attentive.recorded_ack (h : Attentive topic partition leader c) {seen now : Time}
    (hdelivered : Delivered topic partition leader c (.ack f seen now)) {offset : Int}
    (hacking : (c f).runtime = .stepping (.acking offset))
    (hstate : (c f).following topic partition = some state) :
    (((c f).log topic partition).length : Int) ≤
      recorded topic partition (step topic partition c (.ack f seen now) leader) f + 1 := by
  have hlinked := h.led.linked f state hstate
  obtain ⟨hf, hleader⟩ := h.led.hired f state hstate
  obtain ⟨hoffset, hlast⟩ := Linked.acking hlinked hacking
  have hfollower : state.worker.followerID = f := hlinked.follower.trans (h.led.id f)
  have hpositive := hlinked.positive
  rw [h.led.id f] at hpositive
  obtain ⟨hfactor, hrole⟩ := hdelivered.taken f rfl
  obtain ⟨cfg, ops, hops⟩ := h.manager
  have hsome : ((partitionOf (c leader).broker.replication topic partition).followers.get
      f).isSome := by
    rw [hops, run_followers]
    rw [hops, run_cfg] at hfactor
    exact ⟨hpositive, hfactor⟩
  obtain ⟨r, hr⟩ := Option.isSome_iff_exists.mp hsome
  have hmanager : (step topic partition c (.ack f seen now) leader).broker.replication =
      (ackReplica seen now (c leader).broker.replication topic partition f offset).1 := by
    dsimp only [step, ReplicaCluster.ack]
    simp only [hacking, hstate, hleader, hfollower]
    rw [modify_ne hf.symm, modify_self]
    rfl
  have hbehind := (h.led.behind f hf).length_le
  have hknown := known_length_le h
  have hcovered : offset ≤ ((c leader).progress topic partition).leaderOffset := by omega
  have hle := acked_ge r hcovered seen
  unfold recorded Node.progress
  rw [hmanager, ackReplica_ok ⟨hpositive, hfactor⟩ hrole hr, partitionOf_setPartition_self]
  dsimp only [recompute]
  rw [FMap.get_mapValues, FMap.get_set_self]
  dsimp only [Option.map, Option.elim]
  unfold Node.progress at hle
  omega

/-- The stages of a cycle keep what holds of the follower. -/
theorem Attentive.told_step (h : Attentive topic partition leader c)
    (hreliable : Reliable topic partition leader c e) (hf : f ≠ leader) :
    Told topic partition leader (step topic partition c e) f
      (step topic partition c e f).runtime := by
  have hretains := hreliable.faithful.retains
  have hled := h.led.step hreliable.faithful
  have htold := h.told f hf
  have hquiet : (c f).runtime.cycle = .idle →
      (step topic partition c e f).log topic partition = (c f).log topic partition := by
    intro hidle
    unfold Node.log
    rw [storage_idle (h.led.requests f hf) hidle]
  have hcaught : (c f).runtime.cycle = .idle →
      Caught topic partition leader (step topic partition c e) f :=
    fun hidle => h.caught_step hretains (htold.caught (acking_of_cycle hidle)) (hquiet hidle)
  have happlying : ∀ record rest, Caught topic partition leader c f →
      (step topic partition c e f).runtime = .stepping (.applying record rest) →
      Caught topic partition leader (step topic partition c e) f := by
    intro record rest hbefore hrun
    cases hfollowing : (step topic partition c e f).following topic partition with
    | some state => exact Led.caught_applying hled hfollowing hrun
    | none =>
      refine h.caught_step hretains hbefore ?_
      unfold Node.log
      rw [h.led.storage_unhired hf hfollowing]
  rcases moved_step topic partition c f e with hsame | hmoved
  · rw [hsame]
    cases hrun : (c f).runtime with
    | stepping cycle =>
      rw [hrun] at htold
      cases cycle with
      | idle => exact hcaught (by rw [hrun]; rfl)
      | applying record rest => exact happlying record rest htold (hsame.trans hrun)
      | acking offset => trivial
    | asked st =>
      have hidle : (c f).runtime.cycle = .idle := by
        rw [hrun]
        rfl
      refine ⟨hcaught hidle, fun hlt => ?_⟩
      rw [hrun] at htold
      rw [hquiet hidle] at hlt ⊢
      exact Int.le_trans (htold.2 hlt) (Int.add_le_add_right (h.recorded_step e f) 1)
    | idle => exact hcaught (by rw [hrun]; rfl)
    | snapped pm => exact hcaught (by rw [hrun]; rfl)
    | looked pm lastOffset => exact hcaught (by rw [hrun]; rfl)
    | turned pm lastOffset => exact hcaught (by rw [hrun]; rfl)
    | booted pm lastOffset => exact hcaught (by rw [hrun]; rfl)
    | failing pm => exact hcaught (by rw [hrun]; rfl)
    | granted => exact hcaught (by rw [hrun]; rfl)
  · generalize hrun : (step topic partition c e f).runtime = activity at hmoved ⊢
    cases hmoved with
    | reconcile pm hidle hview => exact hcaught (by rw [hidle]; rfl)
    | look pm hsnapped => exact hcaught (by rw [hsnapped]; rfl)
    | turn now pm lastOffset hlooked hpart => exact hcaught (by rw [hlooked]; rfl)
    | boot now pm lastOffset hturned => exact hcaught (by rw [hturned]; rfl)
    | failover pm hidle hview => exact hcaught (by rw [hidle]; rfl)
    | ask hidle => exact hcaught (by rw [hidle]; rfl)
    | idle e hidle => exact hcaught hidle
    | status now state hgranted hstate =>
      have hidle : (c f).runtime.cycle = .idle := by
        rw [hgranted]
        rfl
      refine ⟨hcaught hidle, fun hlt => ?_⟩
      rw [hquiet hidle] at hlt ⊢
      rw [(h.led.hired f state hstate).2] at hlt
      have hoffset : ((c leader).progress topic partition).leaderOffset <
          ((c f).log topic partition).length := hlt
      have hknown := known_length_le h
      have hrecorded := h.recorded_step (.status f now) f
      rcases htold.caught (acking_of_cycle hidle) with hle | hmore
      · omega
      · omega
    | reply seq state st hasked hstate =>
      exact told_ofCycle (hcaught (by rw [hasked]; rfl)) _
    | apply env record rest state hbusy hstate =>
      have hbefore := htold.caught (by rw [hbusy]; rfl)
      have hfailed := (apply_linked env (h.led.linked f) (h.led.whole f)
        (by simpa only [step, modify_self] using hretains f rfl)).2.2.1
      have happly : step topic partition c (.apply f env) f =
          (c f).apply topic partition env := by
        dsimp only [step]
        rw [modify_self]
      generalize (FollowerWorkers.applyRecord env (c f).broker.storage state.worker record
        rest).2.2 = cycle at hrun ⊢
      cases cycle with
      | idle =>
        refine h.caught_step hretains hbefore ?_
        rw [happly] at hrun ⊢
        exact hfailed (by rw [hrun]; rfl)
      | applying next later => exact happlying next later hbefore hrun
      | acking offset => trivial
    | ack seen now state offset hacking hstate =>
      refine .inl ?_
      rw [calm_log (.ack f seen now) (fun n hbusy => by cases hbusy)]
      exact h.recorded_ack hreliable.delivered hacking hstate
    | lose =>
      refine h.caught_step hretains (htold.caught (hreliable.delivered.sent f rfl)) ?_
      exact calm_log (.lose f) (fun n hbusy => by cases hbusy)

theorem Attentive.step (h : Attentive topic partition leader c)
    (hreliable : Reliable topic partition leader c e) :
    Attentive topic partition leader (step topic partition c e) where
  led := h.led.step hreliable.faithful
  manager := by
    obtain ⟨cfg, hops⟩ := h.manager
    exact ⟨cfg, reached_step topic partition e hops⟩
  told _ hf := h.told_step hreliable hf

theorem Started.attentive (hstart : Started topic partition c) :
    Attentive topic partition leader c := by
  obtain ⟨cfg, hcfg⟩ := hstart.replication leader
  have hmanager : (c leader).broker.replication =
      run ReplicaProgress.step (newManager cfg) [] := hcfg
  have hsound := run_sound cfg [] topic partition
  refine ⟨FixedLeader.Started.led hstart, ⟨cfg, [], hmanager⟩, fun f _ => ?_⟩
  rw [hstart.runtime f]
  refine .inl ?_
  rw [log_started hstart f]
  unfold recorded Node.progress
  rw [hmanager]
  cases hr : (partitionOf (run ReplicaProgress.step (newManager cfg) []) topic
      partition).followers.get f with
  | none => decide
  | some r =>
    have := hsound.lower f r hr
    dsimp only [List.length_nil, Option.elim]
    omega

/-- A fetch that brings nothing finds the follower past the offset that the leader's
manager named, or at the end of the leader's log. -/
theorem served_nil (h : Led topic partition leader c) {st : Status}
    (hstate : (c f).following topic partition = some state)
    (hserved : served topic partition c state st = .ok []) :
    st.leaderOffset < ((c f).log topic partition).length ∨
      ((c leader).log topic partition).length ≤ ((c f).log topic partition).length := by
  have hlinked := h.linked f state hstate
  have hnext := hlinked.inStep.next
  rw [hlinked.topic_eq, hlinked.partition_eq] at hnext
  have hlength : state.worker.nextOffset = ((c f).log topic partition).length := hnext
  have hbatch := hlinked.batch
  unfold served RecordReads.fetchRecords at hserved
  rw [(h.hired f state hstate).2] at hserved
  split at hserved
  · exact .inl (by omega)
  · rw [StorageReads.consume_eq_drop _ _ _ _ (by omega)] at hserved
    dsimp only [Except.bind] at hserved
    cases hcap : makeCap RecordReads.stringSize state.worker.maxBatch with
    | error e =>
      rw [hcap] at hserved
      cases hserved
    | ok u =>
      rw [hcap] at hserved
      have hnil := List.take_eq_nil_iff.mp (Except.ok.inj hserved)
      rcases hnil with hzero | hdrop
      · omega
      · refine .inr ?_
        have := List.drop_eq_nil_iff.mp hdrop
        unfold Node.log at hlength ⊢
        omega

/-- A follower that is caught up is served no records. -/
theorem caughtUp_served {seq : ℕ} (hcaught : caughtUp topic partition c f seq)
    (hlegible : legible topic partition c f seq)
    (hstate : (c f).following topic partition = some state) :
    ∃ st, (c f).runtime = .asked st ∧ served topic partition c state st = .ok [] := by
  unfold caughtUp at hcaught
  split at hcaught
  · rename_i st state' hasked hstate'
    cases hstate.symm.trans hstate'
    refine ⟨st, hasked, ?_⟩
    simp only [legible, hasked, hstate] at hlegible
    cases hserved : served topic partition c state st with
    | error e =>
      simp only [hserved] at hcaught
      cases hcaught
    | ok records =>
      simp only [hserved] at hcaught hlegible
      split at hcaught
      · cases hcaught
      · rename_i result hresult
        simp only [hresult, decide_eq_true_eq] at hcaught hlegible
        rw [hcaught] at hlegible
        rw [List.map_eq_nil_iff.mp hlegible.symm]
  · cases hcaught

variable (leader) in
/-- When a worker is answered without records in a run that loses no acknowledgement,
the leader's manager has recorded the last offset of the follower. -/
theorem no_ack_lost {start : Cluster} (hstart : Started topic partition start)
    (events : List Event) (f : Int) (seq : ℕ)
    (hvalid : Valid (step topic partition) (Reliable topic partition leader) start
      (events ++ [.reply f seq])) :
    NoAckLost topic partition (run (step topic partition) start events) f seq := by
  obtain ⟨hbefore, hreply, -⟩ := (valid_append ..).mp hvalid
  have hstep : ∀ (c : Cluster) (e : Event), Attentive topic partition leader c →
      Reliable topic partition leader c e →
        Attentive topic partition leader (step topic partition c e) :=
    fun _ _ hc he => hc.step he
  have h := run_invariant hstep (Started.attentive hstart) hbefore
  generalize run (step topic partition) start events = c at *
  intro hcaught state hstate _
  obtain ⟨hf, hleader⟩ := h.led.hired f state hstate
  obtain ⟨st, hasked, hserved⟩ :=
    caughtUp_served hcaught (hreply.faithful.legible (f, seq) rfl) hstate
  have htold := h.told f hf
  rw [hasked] at htold
  have hlast := FollowerWorkers.lastOffset_whole (h.led.whole f)
  have hlength : (PartitionStorage.messagesOf (c f).broker.storage topic partition).length =
      ((c f).log topic partition).length := rfl
  rw [hleader]
  rcases served_nil h.led hstate hserved with hpast | hend
  · have := htold.2 hpast
    omega
  · rcases htold.1 with hle | hmore
    · omega
    · have := (known_isPrefix topic partition (c leader)).length_le
      omega

end Partition

def joined : List Event := appoint 0 0 ++ appoint 1 0 ++ reconcile 1 ++ produce 0 0 "a"

def early : List Event :=
  joined ++ [.route 0 (lit "b"), .checkLeader 0 1, .append 0 1 (StorageAppends.calm 1)] ++
    cycle 1 2 ++
    [.report 0 1 1, .ask 1, .status 1 3]

/-- An acknowledgement that comes early is lost. -/
theorem early_ack_lost :
    ¬ NoAckLost (lit "orders") 0 (run (step (lit "orders") 0) (assemble defaults) early) 1 1 := by
  decide +kernel

def prompt : List Event :=
  joined ++ cycle 1 1 ++ produce 0 1 "b" ++ cycle 1 1 ++ [.ask 1, .status 1 3]

/-- Prompt acknowledgements are recorded. -/
theorem no_ack_lost_prompt :
    caughtUp (lit "orders") 0 (run (step (lit "orders") 0) (assemble defaults) prompt) 1 1 ∧
      NoAckLost (lit "orders") 0 (run (step (lit "orders") 0) (assemble defaults) prompt) 1 1 :=
  ⟨by decide +kernel, no_ack_lost 0 (assemble_started defaults (lit "orders") 0)
    prompt 1 1 (by decide +kernel)⟩

end Flux.LostAcks
