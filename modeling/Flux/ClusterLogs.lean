import Flux.ClusterSteps

/-!
The logs of a cluster. If workers start from a prefix of their leader's log, if a
broker with a worker takes no records from producers, if a worker reads what its
leader served, and if retention deletes nothing, then every log only grows, and
every follower's log stays a prefix of the log of the leader it follows.
-/
namespace Flux.ClusterLogs

open GoRuntime GoStrings FiniteMap PartitionStorage StorageReads RecordReads ReplicationManager
open BrokerNode TCPTransport FetchCodec MemoryLogs ReplicaCluster ClusterSteps
open FollowerWorkers (Cycle received applyRecord InStep)

section Partition

variable (topic : Str) (partition : Int) {logs : Int → List Message} {n : Node}
  {state : ReplicaWorkerState} {c : Cluster}

def Event.writer : Event → Option Int
  | .append b _ _ => some b
  | .apply f _ => some f
  | _ => none

def Retains (c : Cluster) (e : Event) : Prop :=
  ∀ b ∈ Event.writer e, Undropped topic partition (c b).broker.storage
    (step topic partition c e b).broker.storage

def legible (c : Cluster) (f : Int) (seq : ℕ) : Bool :=
  match (c f).runtime, (c f).following topic partition with
  | .asked st, some state =>
      match served topic partition c state st with
      | .error _ => true
      | .ok records =>
          match fetchResult (answerText topic partition seq state st records) with
          | .error _ => true
          | .ok result => result.records = records.map toRecord
  | _, _ => true

def Event.answer : Event → Option (Int × ℕ)
  | .reply f seq => some (f, seq)
  | _ => none

/-- The text of an answer spells out the records in it. -/
def Legible (c : Cluster) (e : Event) : Prop :=
  ∀ q ∈ Event.answer e, legible topic partition c q.1 q.2

def Event.producer : Event → Option Int
  | .append b _ _ => some b
  | _ => none

def Apart (c : Cluster) (e : Event) : Prop :=
  ∀ b ∈ Event.producer e, (c b).following topic partition = none

def Event.settler : Event → Option Int
  | .settle f => some f
  | _ => none

def Joins (c : Cluster) (e : Event) : Prop :=
  ∀ f ∈ Event.settler e, ∀ state ∈ ((c f).settle topic partition).following topic partition,
    (c f).following topic partition = some state ∨
      (c f).log topic partition <+: (c state.leaderID).log topic partition ∧
        state.worker.nextOffset = ((c f).log topic partition).length

/-- The conditions under which logs match. -/
structure Orderly (c : Cluster) (e : Event) : Prop where
  retains : Retains topic partition c e
  legible : Legible topic partition c e
  apart : Apart topic partition c e
  joins : Joins topic partition c e

section Decidable

variable (c : Cluster) (e : Event)

instance : Decidable (Retains topic partition c e) :=
  inferInstanceAs (Decidable (∀ _ ∈ _, _))

instance : Decidable (Legible topic partition c e) :=
  inferInstanceAs (Decidable (∀ _ ∈ _, _))

instance : Decidable (Apart topic partition c e) :=
  inferInstanceAs (Decidable (∀ _ ∈ _, _))

instance : Decidable (Joins topic partition c e) :=
  inferInstanceAs (Decidable (∀ _ ∈ _, ∀ _ ∈ _, _))

instance : Decidable (Orderly topic partition c e) :=
  decidable_of_iff (Retains topic partition c e ∧ Legible topic partition c e ∧
      Apart topic partition c e ∧ Joins topic partition c e)
    ⟨fun h => ⟨h.1, h.2.1, h.2.2.1, h.2.2.2⟩, fun h => ⟨h.retains, h.legible, h.apart, h.joins⟩⟩

end Decidable

structure Linked (logs : Int → List Message) (n : Node) (state : ReplicaWorkerState) : Prop where
  topic_eq : state.worker.topic = topic
  partition_eq : state.worker.partition = partition
  follower : state.worker.followerID = n.broker.localBrokerID
  positive : 0 < n.broker.localBrokerID
  batch : 0 < state.worker.maxBatch
  inStep : InStep (logs state.leaderID) n.broker.storage state.worker n.runtime.cycle

structure Steady (c : Cluster) : Prop where
  whole : ∀ b, Whole (c b).broker.storage topic partition
  linked : ∀ b state, (c b).following topic partition = some state →
    Linked topic partition (fun b => (c b).log topic partition) (c b) state

variable {topic partition}

theorem Linked.grow {logs' : Int → List Message} (h : Linked topic partition logs n state)
    (hgrow : ∀ b, logs b <+: logs' b) : Linked topic partition logs' n state :=
  ⟨h.topic_eq, h.partition_eq, h.follower, h.positive, h.batch, h.inStep.grow (hgrow _)⟩

theorem Linked.calm {n' : Node} (h : Linked topic partition logs n state)
    (hcalm : Calm topic partition n n') : Linked topic partition logs n' state := by
  refine ⟨h.topic_eq, h.partition_eq, hcalm.id ▸ h.follower, hcalm.id ▸ h.positive, h.batch, ?_⟩
  rw [hcalm.storage]
  rcases hcalm.cycle with hsame | hidle
  · rw [hsame]
    exact h.inStep
  · rw [hidle]
    exact h.inStep.stop

theorem whole_started (h : Started topic partition c) (b : Int) :
    Whole (c b).broker.storage topic partition :=
  FollowerWorkers.whole_absent (h.data b) (h.state b)

theorem log_started (h : Started topic partition c) (b : Int) : (c b).log topic partition = [] := by
  simp [Node.log, messagesOf, h.data b]

theorem Started.steady (h : Started topic partition c) : Steady topic partition c where
  whole := whole_started h
  linked b state hstate := by
    rw [h.workers b] at hstate
    cases hstate

section Storage

variable {c : Cluster} {e : Event}

/-- The records of an answer are consecutive records of the leader. -/
theorem served_behind {st : Status} {records : List Message} (hnext : 0 ≤ state.worker.nextOffset)
    (h : served topic partition c state st = .ok records) :
    records <+: ((c state.leaderID).log topic partition).drop state.worker.nextOffset.toNat := by
  unfold served fetchRecords at h
  split at h
  · cases h
    exact List.nil_prefix
  · rw [consume_eq_drop _ _ _ _ hnext] at h
    dsimp only [Except.bind] at h
    cases hcap : makeCap stringSize state.worker.maxBatch with
    | error e =>
      rw [hcap] at h
      cases h
    | ok u =>
      rw [hcap] at h
      cases h
      exact List.take_prefix _ _

theorem fetched_behind {f : Int} {seq : ℕ} {st : Status} (hasked : (c f).runtime = .asked st)
    (hstate : (c f).following topic partition = some state) (hnext : 0 ≤ state.worker.nextOffset)
    (hlegible : legible topic partition c f seq) :
    fetched topic partition c seq state st <+:
      (((c state.leaderID).log topic partition).drop state.worker.nextOffset.toNat).map
        toRecord := by
  unfold fetched
  simp only [legible, hasked, hstate] at hlegible
  split
  · exact List.nil_prefix
  · rename_i records hserved
    simp only [hserved] at hlegible
    split
    · exact List.nil_prefix
    · rename_i result hresult
      simp only [hresult, decide_eq_true_eq] at hlegible
      rw [hlegible]
      exact (served_behind hnext hserved).map toRecord

/-- A record of a producer. -/
theorem append_whole (i : ℕ) (env : Env) (h : Whole n.broker.storage topic partition)
    (hkeep : Undropped topic partition n.broker.storage
      (n.append topic partition i env).broker.storage) :
    Whole (n.append topic partition i env).broker.storage topic partition ∧
      n.log topic partition <+: (n.append topic partition i env).log topic partition := by
  unfold Node.append at hkeep ⊢
  split
  · rename_i value hadmitted
    simp only [hadmitted] at hkeep
    obtain ⟨hwhole, -, hlog⟩ := produceToPartition_whole env h value hkeep
    exact ⟨hwhole, _, hlog.symm⟩
  · exact ⟨h, List.prefix_refl _⟩

/-- A record that the worker applies. -/
theorem apply_linked (env : Env)
    (h : ∀ state, n.following topic partition = some state → Linked topic partition logs n state)
    (hwhole : Whole n.broker.storage topic partition)
    (hkeep : Undropped topic partition n.broker.storage
      (n.apply topic partition env).broker.storage) :
    Whole (n.apply topic partition env).broker.storage topic partition ∧
      n.log topic partition <+: (n.apply topic partition env).log topic partition ∧
      ((n.apply topic partition env).runtime.cycle = .idle →
        (n.apply topic partition env).log topic partition = n.log topic partition) ∧
      ∀ state', (n.apply topic partition env).following topic partition = some state' →
        Linked topic partition logs (n.apply topic partition env) state' := by
  rcases apply_cases topic partition n env with
    hsame | ⟨record, rest, state, hrun, hstate, heq⟩
  · rw [hsame]
    exact ⟨hwhole, List.prefix_refl _, fun _ => rfl, h⟩
  · obtain ⟨htopic, hpartition, hfollower, hpositive, hbatch, hin⟩ := h state hstate
    rw [heq] at hkeep ⊢
    rw [hrun] at hin
    have hspec := InStep.applyRecord env hin
    obtain ⟨htopic', hpartition', hfollower', hbatch'⟩ :=
      FollowerWorkers.applyRecord_worker (s := n.broker.storage) (w := state.worker) env
        record rest
    rw [htopic, hpartition] at hspec
    obtain ⟨hnext, hgrow, hfailed⟩ := hspec hkeep
    have hwhole' := hnext.whole
    rw [htopic', hpartition', htopic, hpartition] at hwhole'
    refine ⟨hwhole', hgrow, fun hidle => hfailed (by rwa [cycle_ofCycle] at hidle),
      fun state' hstate' => ?_⟩
    dsimp only [Node.following] at hstate'
    rw [FMap.get_set_self] at hstate'
    cases hstate'
    refine ⟨htopic'.trans htopic, hpartition'.trans hpartition, hfollower'.trans hfollower,
      hpositive, hbatch' ▸ hbatch, ?_⟩
    rw [cycle_ofCycle]
    exact hnext

theorem settle_storage (n : Node) :
    (n.settle topic partition).broker.storage = n.broker.storage := by
  rcases settle_cases topic partition n with
    hcalm | ⟨pm, lastOffset, state, -, -, heq⟩
  · exact hcalm.storage
  · rw [heq]

theorem reply_storage (c : Cluster) (f : Int) (seq : ℕ) :
    (reply topic partition c f seq f).broker.storage = (c f).broker.storage := by
  rcases reply_cases topic partition c f seq with hsame | ⟨state, st, -, -, heq⟩
  · rw [hsame]
  · rw [heq, modify_self]

/-- A log only grows and stays whole. -/
theorem extends_step {b : Int}
    (hlinked : ∀ state, (c b).following topic partition = some state →
      Linked topic partition logs (c b) state)
    (hwhole : Whole (c b).broker.storage topic partition) (hretains : Retains topic partition c e) :
    Whole (step topic partition c e b).broker.storage topic partition ∧
      (c b).log topic partition <+: (step topic partition c e b).log topic partition := by
  have hstay : ∀ n : Node, n.broker.storage = (c b).broker.storage →
      Whole n.broker.storage topic partition ∧
        (c b).log topic partition <+: n.log topic partition := by
    intro n hsame
    unfold Node.log
    rw [hsame]
    exact ⟨hwhole, List.prefix_refl _⟩
  have hkeep := hretains b
  have hcases := calm_or_busy topic partition c e b
  generalize step topic partition c e b = n at hkeep hcases ⊢
  rcases hcases with hcalm | hbusy
  · exact hstay _ hcalm.storage
  · cases hbusy with
    | append i env => exact append_whole i env hwhole (hkeep rfl)
    | apply env =>
      obtain ⟨hwhole', hgrow, -⟩ := apply_linked env hlinked hwhole (hkeep rfl)
      exact ⟨hwhole', hgrow⟩
    | reply seq => exact hstay _ (reply_storage c b seq)
    | settle => exact hstay _ (settle_storage (c b))

theorem Steady.extends (h : Steady topic partition c) (hretains : Retains topic partition c e)
    (b : Int) :
    Whole (step topic partition c e b).broker.storage topic partition ∧
      (c b).log topic partition <+: (step topic partition c e b).log topic partition :=
  extends_step (h.linked b) (h.whole b) hretains

theorem linked_reply {f : Int} {seq : ℕ}
    (hlinked : ∀ state, (c f).following topic partition = some state →
      Linked topic partition logs (c f) state)
    (hlogs : ∀ state, (c f).following topic partition = some state →
      (c state.leaderID).log topic partition <+: logs state.leaderID)
    (hlegible : legible topic partition c f seq)
    (hstate : (reply topic partition c f seq f).following topic partition = some state) :
    Linked topic partition logs (reply topic partition c f seq f) state := by
  rcases reply_cases topic partition c f seq with hsame | ⟨state', st, hasked, hfollowing, heq⟩
  · rw [hsame] at hstate ⊢
    exact hlinked state hstate
  · rw [heq, modify_self] at hstate ⊢
    cases hfollowing.symm.trans hstate
    obtain ⟨htopic, hpartition, hfollower, hpositive, hbatch, hin⟩ := hlinked state hfollowing
    have hidle : (c f).runtime.cycle = .idle := by rw [hasked]; rfl
    rw [hidle] at hin
    have hnext : 0 ≤ state.worker.nextOffset := by
      rw [hin.next]
      omega
    refine ⟨htopic, hpartition, hfollower, hpositive, hbatch, ?_⟩
    rw [cycle_ofCycle]
    exact hin.received ((fetched_behind hasked hfollowing hnext hlegible).trans
      (((hlogs state hfollowing).drop _).map toRecord))

/-- Workers stay linked when roles are settled. -/
theorem linked_settle
    (hlinked : ∀ state, n.following topic partition = some state →
      Linked topic partition logs n state) (hwhole : Whole n.broker.storage topic partition)
    (hjoins : ∀ state ∈ (n.settle topic partition).following topic partition,
      n.following topic partition = some state ∨ n.log topic partition <+: logs state.leaderID ∧
        state.worker.nextOffset = (n.log topic partition).length)
    (hstate : (n.settle topic partition).following topic partition = some state) :
    Linked topic partition logs (n.settle topic partition) state := by
  rcases settle_cases topic partition n with
    hcalm | ⟨pm, lastOffset, state', -, hhired, heq⟩
  · rcases hcalm.following with hsame | hnone
    · exact (hlinked state (hsame.symm.trans hstate)).calm hcalm
    · rw [hnone] at hstate
      cases hstate
  · have hcreates := hjoins state hstate
    rw [heq] at hstate ⊢
    have heq' : state' = state := by
      dsimp only [Node.following] at hstate
      rw [FMap.get_set_self] at hstate
      exact Option.some.inj hstate
    subst heq'
    rcases hcreates with hold | ⟨hbehind, hnext⟩
    · have hlink := hlinked state' hold
      exact ⟨hlink.topic_eq, hlink.partition_eq, hlink.follower, hlink.positive, hlink.batch,
        hlink.inStep.stop⟩
    · refine ⟨hhired.topic_eq, hhired.partition_eq, hhired.follower, hhired.positive, ?_, ?_⟩
      · rw [hhired.batch]
        decide
      · refine ⟨?_, ?_, ?_, trivial⟩
        · rw [hhired.topic_eq, hhired.partition_eq]
          exact hwhole
        · rw [hhired.topic_eq, hhired.partition_eq]
          exact hbehind
        · rw [hhired.topic_eq, hhired.partition_eq]
          exact hnext

/-- A step keeps a follower in step with logs that the leaders' logs are heading for. -/
theorem linked_step {b : Int}
    (hlinked : ∀ state, (c b).following topic partition = some state →
      Linked topic partition logs (c b) state)
    (hwhole : Whole (c b).broker.storage topic partition) (hretains : Retains topic partition c e)
    (hlegible : Legible topic partition c e)
    (hlogs : ∀ seq, e = .reply b seq → ∀ state, (c b).following topic partition = some state →
      (c state.leaderID).log topic partition <+: logs state.leaderID)
    (hapart : ∀ i env, e = .append b i env → ∀ state,
      (c b).following topic partition = some state → (c b).append topic partition i env = c b)
    (hjoins : e = .settle b → ∀ state ∈ ((c b).settle topic partition).following topic partition,
      (c b).following topic partition = some state ∨
        (c b).log topic partition <+: logs state.leaderID ∧
          state.worker.nextOffset = ((c b).log topic partition).length)
    (hstate : (step topic partition c e b).following topic partition = some state) :
    Linked topic partition logs (step topic partition c e b) state := by
  have hkeep := hretains b
  have hcases := calm_or_busy topic partition c e b
  generalize step topic partition c e b = n at hstate hkeep hcases ⊢
  rcases hcases with hcalm | hbusy
  · rcases hcalm.following with hsame | hnone
    · exact (hlinked state (hsame.symm.trans hstate)).calm hcalm
    · rw [hnone] at hstate
      cases hstate
  · cases hbusy with
    | append i env =>
      have hsame : ((c b).append topic partition i env).following topic partition =
          (c b).following topic partition := by
        unfold Node.append
        split <;> rfl
      have hquiet := hapart i env rfl state (hsame.symm.trans hstate)
      rw [hquiet] at hstate ⊢
      exact hlinked state hstate
    | apply env =>
      obtain ⟨-, -, -, hafter⟩ := apply_linked env hlinked hwhole (hkeep rfl)
      exact hafter state hstate
    | reply seq =>
      exact linked_reply hlinked (hlogs seq rfl) (hlegible (b, seq) rfl) hstate
    | settle => exact linked_settle hlinked hwhole (hjoins rfl) hstate

/-- One orderly step keeps every follower in step with its leader. -/
theorem Steady.step (h : Steady topic partition c) (horderly : Orderly topic partition c e) :
    Steady topic partition (step topic partition c e) where
  whole b := (h.extends horderly.retains b).1
  linked b state hstate := by
    have hgrow := fun b => (h.extends horderly.retains b).2
    refine linked_step (fun state hstate => (h.linked b state hstate).grow hgrow) (h.whole b)
      horderly.retains horderly.legible (fun _ _ state _ => hgrow state.leaderID) ?_ ?_ hstate
    · rintro i env rfl state hstate
      rw [horderly.apart b rfl] at hstate
      cases hstate
    · rintro rfl state hcreates
      rcases horderly.joins b rfl state hcreates with hold | ⟨hbehind, hnext⟩
      · exact .inl hold
      · exact .inr ⟨hbehind.trans (hgrow _), hnext⟩

end Storage

end Partition

end Flux.ClusterLogs
