import Flux.BrokerContracts
import Flux.BrokerRuns

/-!
Failures of a replication worker. The runtime counts the errors of each worker and
fails its leader over when the count reaches the limit. The count goes back to zero
only when a step has applied records: a step that found nothing to fetch leaves it,
so the errors that are counted need not follow each other.
-/
namespace Flux.WorkerFailures

open GoStrings FiniteMap PartitionStorage ReplicationManager ClusterMetadata
open Interleavings BrokerNode TCPTransport ClusterRuntime BrokerContracts BrokerRuns Runs

/-- How `StepOnce` ends. -/
inductive Outcome
  | error
  | empty
  | batch
  deriving DecidableEq

def outcomeOf : Except StepError ℕ → Outcome
  | .error _ => .error
  | .ok 0 => .empty
  | .ok (_ + 1) => .batch

def outcomeAt (tick : Tick) (key : Str) (b : Broker) : Option Outcome :=
  match b.workers.get key with
  | none => none
  | some state =>
      match (stepOnce tick key state.worker).run b with
      | .error _ => none
      | .ok (_, result) => some (outcomeOf result)

def failsOver (tick : Tick) (key : Str) (b : Broker) : Bool :=
  match (stepWorkerWith (fun _ _ => compute (.error .divideByZero)) tick key).run b with
  | .error _ => true
  | .ok _ => false

def failures (key : Str) (b : Broker) : Option ℕ := (b.workers.get key).map (·.failureCount)

section Counting

variable {key : Str} {α β : Type}

def Spares (key : Str) (p : Handler α) : Prop :=
  ∀ b, ∃ b' a, p.run b = .ok (b', a) ∧ failures key b' = failures key b

theorem spares_pure (a : α) : Spares key (pure a) := fun b => ⟨b, a, rfl, rfl⟩

theorem spares_bind {p : Handler α} {k : α → Handler β} (hp : Spares key p)
    (hk : ∀ a, Spares key (k a)) : Spares key (p >>= k) := by
  intro b
  obtain ⟨b₁, a, hrun, hsame⟩ := hp b
  obtain ⟨b₂, c, hrun', hsame'⟩ := hk a b₁
  exact ⟨b₂, c, (Program.run_bind hrun).trans hrun', hsame'.trans hsame⟩

theorem spares_modify {f : Broker → Broker × α} (h : ∀ b, failures key (f b).1 = failures key b) :
    Spares key (Program.modify f) := fun b => ⟨(f b).1, (f b).2, rfl, h b⟩

theorem spares_read (f : Broker → α) : Spares key (Program.read f) :=
  spares_modify (fun _ => rfl)

theorem spares_onStorage (op : Storage → Storage × α) : Spares key (onStorage op) :=
  spares_modify (fun _ => rfl)

theorem spares_onReplication (op : Manager → Manager × α) : Spares key (onReplication op) :=
  spares_modify (fun _ => rfl)

theorem spares_onController (op : RaftMetadataStore → RaftMetadataStore × α) :
    Spares key (onController op) :=
  spares_modify (fun _ => rfl)

theorem spares_attemptAll {call : α → Handler (Except Str β)} (h : ∀ a, Spares key (call a))
    (items : List α) (count : ℕ) : Spares key (attemptAll call items count) := by
  induction items generalizing count with
  | nil => exact spares_pure _
  | cons a rest ih =>
    refine spares_bind (h a) (fun r => ?_)
    cases r with
    | error e => exact spares_pure _
    | ok c => exact ih (count + 1)

theorem spares_forEach {body : α → Handler Unit} (h : ∀ a, Spares key (body a))
    (items : List α) : Spares key (forEach body items) := by
  induction items with
  | nil => exact spares_pure _
  | cons a rest ih => exact spares_bind (h a) (fun _ => ih)

theorem spares_setNextOffset (key' : Str) (nextOffset : Int) :
    Spares key (setNextOffset key' nextOffset) := by
  refine spares_modify (fun b => ?_)
  dsimp only [failures]
  by_cases hkey : key = key'
  · rw [hkey, FMap.get_alter_self, Option.map_map]
    rfl
  · rw [FMap.get_alter_ne _ _ hkey]

theorem spares_applyRecords (tick : Tick) (key' topic : Str) (partition : Int)
    (records : List ReplicationRecord) (nextOffset : Int) :
    Spares key (applyRecords tick key' topic partition records nextOffset) := by
  induction records generalizing nextOffset with
  | nil => exact spares_pure _
  | cons record rest ih =>
    unfold applyRecords
    split
    · exact spares_pure _
    · refine spares_bind (spares_onStorage _) (fun failed => ?_)
      cases failed with
      | some e => exact spares_pure _
      | none => exact spares_bind (spares_setNextOffset _ _) (fun _ => ih _)

theorem spares_stepOnce (tick : Tick) (key' : Str) (worker : FollowerWorker) :
    Spares key (stepOnce tick key' worker) := by
  unfold stepOnce
  cases tick.fetch key' with
  | error e => exact spares_pure _
  | ok result =>
    dsimp only
    split
    · exact spares_pure _
    · refine spares_bind (spares_applyRecords tick _ _ _ _ _) (fun applied => ?_)
      cases applied with
      | error e => exact spares_pure _
      | ok u =>
        dsimp only
        cases tick.ack key' with
        | error e => exact spares_pure _
        | ok u => exact spares_pure _

theorem spares_electTopicLeaders (env : Surroundings) (topic : Str) :
    Spares key (electTopicLeaders env topic) := by
  refine spares_bind (spares_read _) (fun metadata => ?_)
  cases electionUpdates metadata topic with
  | error e => exact spares_pure _
  | ok updates => exact spares_attemptAll (fun u => spares_onController _) updates 0

theorem spares_tryFailoverForWorker (tick : Tick) (leaderID : Int) :
    Spares key (tryFailoverForWorker tick leaderID) := by
  refine spares_bind (spares_onController _) (fun _ => ?_)
  refine spares_bind (spares_read _) (fun metadata => spares_bind (spares_read _) (fun b => ?_))
  refine spares_forEach (fun topic => ?_) _
  refine spares_bind (spares_electTopicLeaders tick.env topic) (fun elected => ?_)
  cases elected with
  | error e => exact spares_pure _
  | ok n =>
    exact spares_forEach (fun p => spares_bind (spares_onReplication _) (fun _ => spares_pure _)) _

end Counting

section Turns

variable {key : Str} {b : Broker} {state : ReplicaWorkerState}

/-- What the loop does after `StepOnce`. -/
def conclude (failover : Tick → Int → Handler Unit) (tick : Tick) (key : Str)
    (state : ReplicaWorkerState) : Outcome → Handler Unit
  | .error =>
      if maxFailureBeforeFailover ≤ state.failureCount + 1 then do
        failover tick state.leaderID
        setFailureCount key 0
      else setFailureCount key (state.failureCount + 1)
  | .empty => pure ()
  | .batch => setFailureCount key 0

theorem stepWorkerWith_run (failover : Tick → Int → Handler Unit) {tick : Tick}
    (hstate : b.workers.get key = some state) {b₁ : Broker} {result : Except StepError ℕ}
    (hstep : (stepOnce tick key state.worker).run b = .ok (b₁, result)) :
    (stepWorkerWith failover tick key).run b =
      (conclude failover tick key state (outcomeOf result)).run b₁ := by
  have hread : (Program.read id : Handler Broker).run b = .ok (b, b) := rfl
  unfold stepWorkerWith
  rw [Program.run_bind hread, hstate]
  dsimp only
  rw [Program.run_bind hstep]
  cases result with
  | error e => rfl
  | ok applied =>
    cases applied with
    | zero => rfl
    | succ n => rfl

def counted (failureCount : ℕ) : Outcome → ℕ
  | .error => if maxFailureBeforeFailover ≤ failureCount + 1 then 0 else failureCount + 1
  | .empty => failureCount
  | .batch => 0

theorem setFailureCount_run {c : ℕ} (h : failures key b = some c) (n : ℕ) :
    ∃ b', (setFailureCount key n).run b = .ok (b', ()) ∧ failures key b' = some n := by
  refine ⟨_, rfl, ?_⟩
  obtain ⟨state, hstate, -⟩ := Option.map_eq_some_iff.mp h
  dsimp only [failures]
  rw [FMap.get_alter_self, hstate]
  rfl

theorem conclude_run (tick : Tick) (h : failures key b = some state.failureCount) (o : Outcome) :
    ∃ b', (conclude tryFailoverForWorker tick key state o).run b = .ok (b', ()) ∧
      failures key b' = some (counted state.failureCount o) := by
  cases o with
  | error =>
    unfold conclude counted
    dsimp only
    split
    · have hspares : Spares key (tryFailoverForWorker tick state.leaderID) :=
        spares_tryFailoverForWorker tick state.leaderID
      obtain ⟨b₁, u, hfailover, hsame⟩ := hspares b
      obtain ⟨b', hset, hcount⟩ := setFailureCount_run (hsame.trans h) 0
      exact ⟨b', (Program.run_bind hfailover).trans hset, hcount⟩
    · exact setFailureCount_run h _
  | empty => exact ⟨b, rfl, h⟩
  | batch => exact setFailureCount_run h 0

/-- A turn of the worker has an outcome, counts it, and fails the leader over only
when the count has reached the limit with an error. -/
theorem turn_spec (tick : Tick) (hstate : b.workers.get key = some state) :
    ∃ o, outcomeAt tick key b = some o ∧
      (failsOver tick key b = true ↔
        o = .error ∧ maxFailureBeforeFailover ≤ state.failureCount + 1) ∧
      failures key (after (stepWorker tick key) b) = some (counted state.failureCount o) := by
  have hspares : Spares key (stepOnce tick key state.worker) :=
    spares_stepOnce tick key state.worker
  obtain ⟨b₁, result, hstep, hsame⟩ := hspares b
  have hcount : failures key b₁ = some state.failureCount := by
    rw [hsame, failures, hstate]
    rfl
  refine ⟨outcomeOf result, ?_, ?_, ?_⟩
  · simp only [outcomeAt, hstate, hstep]
  · rw [failsOver, stepWorkerWith_run _ hstate hstep]
    cases outcomeOf result with
    | error =>
      unfold conclude
      dsimp only
      by_cases hlimit : maxFailureBeforeFailover ≤ state.failureCount + 1
      · rw [if_pos hlimit]
        exact ⟨fun _ => ⟨rfl, hlimit⟩, fun _ => rfl⟩
      · rw [if_neg hlimit]
        exact ⟨fun h => absurd h Bool.false_ne_true, fun h => absurd h.2 hlimit⟩
    | empty => exact ⟨fun h => absurd h Bool.false_ne_true, fun h => by cases h.1⟩
    | batch => exact ⟨fun h => absurd h Bool.false_ne_true, fun h => by cases h.1⟩
  · obtain ⟨b', hrun, hcount'⟩ := conclude_run tick hcount (outcomeOf result)
    rw [stepWorker, after, stepWorkerWith_run _ hstate hstep, hrun]
    exact hcount'

end Turns

section Watching

variable (key : Str)

/-- What can happen around a worker: its turn, something else that leaves its count,
or its creation, replacement or end. -/
inductive Input
  | turn (tick : Tick)
  | elsewhere (b : Broker)
  | replaced (b : Broker)

abbrev Watched := Broker × List Outcome

def watch (s : Watched) : Input → Watched
  | .turn tick =>
      match outcomeAt tick key s.1 with
      | none => s
      | some o =>
          (after (stepWorker tick key) s.1, if failsOver tick key s.1 then [] else s.2 ++ [o])
  | .elsewhere b => (b, s.2)
  | .replaced b => (b, [])

/-- A worker that is not there or has just been created. -/
def Fresh (b : Broker) : Prop := failures key b = none ∨ failures key b = some 0

/-- Only the worker's own turns and its replacement change its count. -/
def Undisturbed (s : Watched) : Input → Prop
  | .turn _ => True
  | .elsewhere b => failures key b = failures key s.1
  | .replaced b => Fresh key b

def telling (trail : List Outcome) : List Outcome := trail.filter (fun o => o ≠ .empty)

def FailsOverAfterErrors (s : Watched) : Prop :=
  ∀ tick o, outcomeAt tick key s.1 = some o → failsOver tick key s.1 = true →
    List.replicate maxFailureBeforeFailover .error <:+ s.2 ++ [o]

/-- The same, but for steps that found nothing to fetch. -/
def FailsOverWithoutProgress (s : Watched) : Prop :=
  ∀ tick o, outcomeAt tick key s.1 = some o → failsOver tick key s.1 = true →
    o = .error ∧ List.replicate maxFailureBeforeFailover .error <:+ telling (s.2 ++ [o])

def Counted (s : Watched) : Prop :=
  ∀ c, failures key s.1 = some c → List.replicate c .error <:+ telling s.2

variable {key}

theorem telling_concat_empty (trail : List Outcome) :
    telling (trail ++ [.empty]) = telling trail := by
  rw [telling, List.filter_append]
  exact List.append_nil _

theorem telling_concat_error {c : ℕ} {trail : List Outcome}
    (h : List.replicate c .error <:+ telling trail) :
    List.replicate (c + 1) .error <:+ telling (trail ++ [Outcome.error]) := by
  have hlast : telling (trail ++ [Outcome.error]) = telling trail ++ [.error] := by
    rw [telling, List.filter_append]
    rfl
  rw [hlast, List.replicate_succ']
  obtain ⟨front, hfront⟩ := h
  exact ⟨front, by rw [← hfront, List.append_assoc]⟩

theorem counted_step (s : Watched) (input : Input) (h : Counted key s)
    (hinput : Undisturbed key s input) : Counted key (watch key s input) := by
  cases input with
  | elsewhere b =>
    intro c hc
    exact h c (hinput ▸ hc)
  | replaced b =>
    intro c hc
    have hzero : c = 0 := by
      rcases hinput with hnone | hzero
      · rw [watch, hnone] at hc
        cases hc
      · rw [watch, hzero] at hc
        exact (Option.some.inj hc).symm
    rw [hzero]
    exact List.nil_suffix
  | turn tick =>
    cases hstate : s.1.workers.get key with
    | none =>
      have hnone : outcomeAt tick key s.1 = none := by simp only [outcomeAt, hstate]
      simp only [watch, hnone]
      exact h
    | some state =>
      obtain ⟨o, ho, hfails, hafter⟩ := turn_spec tick hstate
      have hnow : failures key s.1 = some state.failureCount := by
        rw [failures, hstate]
        rfl
      have htrail := h _ hnow
      intro c hc
      simp only [watch, ho] at hc ⊢
      rw [hafter] at hc
      obtain rfl := Option.some.inj hc
      cases o with
      | error =>
        by_cases hlimit : maxFailureBeforeFailover ≤ state.failureCount + 1
        · have hzero : counted state.failureCount .error = 0 := if_pos hlimit
          rw [hzero]
          exact List.nil_suffix
        · have hnext : counted state.failureCount .error = state.failureCount + 1 := if_neg hlimit
          have hquiet : failsOver tick key s.1 ≠ true := fun hcall => hlimit (hfails.mp hcall).2
          rw [hnext, if_neg hquiet]
          exact telling_concat_error htrail
      | empty =>
        have hquiet : failsOver tick key s.1 ≠ true := fun hcall => by cases (hfails.mp hcall).1
        rw [if_neg hquiet, telling_concat_empty]
        exact htrail
      | batch => exact List.nil_suffix

/-- A failover comes after as many failures as the limit says. -/
theorem failsOver_counted {s : Watched} (h : Counted key s) : FailsOverWithoutProgress key s := by
  intro tick o ho hcall
  cases hstate : s.1.workers.get key with
  | none =>
    rw [outcomeAt, hstate] at ho
    cases ho
  | some state =>
    obtain ⟨o', ho', hfails, -⟩ := turn_spec tick hstate
    rw [ho] at ho'
    obtain rfl := Option.some.inj ho'
    obtain ⟨rfl, hlimit⟩ := hfails.mp hcall
    have hnow : failures key s.1 = some state.failureCount := by
      rw [failures, hstate]
      rfl
    have hlast : List.replicate maxFailureBeforeFailover Outcome.error <:+
        List.replicate (state.failureCount + 1) Outcome.error := by
      refine ⟨List.replicate (state.failureCount + 1 - maxFailureBeforeFailover) .error, ?_⟩
      rw [List.replicate_append_replicate]
      congr 1
      omega
    exact ⟨rfl, hlast.trans (telling_concat_error (h _ hnow))⟩

variable (key)

/-- For every sequence of outcomes of a worker, its leader is failed over only when the
worker has failed as often as the limit says without applying a record in between. -/
theorem failover_without_progress (b : Broker) (hfresh : Fresh key b)
    (inputs : List Input) (h : Valid (watch key) (Undisturbed key) (b, []) inputs) :
    FailsOverWithoutProgress key (run (watch key) (b, []) inputs) := by
  have hstart : Counted key (b, []) := by
    intro c hc
    rcases hfresh with hnone | hzero
    · rw [hnone] at hc
      cases hc
    · rw [hzero] at hc
      rw [← Option.some.inj hc]
      exact List.nil_suffix
  exact failsOver_counted (run_invariant counted_step hstart h)

end Watching

def unanswered : Tick where
  env := quiet
  names := id
  names_perm := List.Perm.refl
  fetch _ := .error .connectionClosed
  ack _ := .error .connectionClosed

def nothingNew : Tick where
  env := quiet
  names := id
  names_perm := List.Perm.refl
  fetch _ := .ok ⟨-1, []⟩
  ack _ := .ok ()

def following : Broker :=
  { aloneBroker with
    workers := FMap.empty.set (lit "orders/0") ⟨⟨1, lit "orders", 0, 0, 256⟩, 2, lit "b2:9092", 0⟩ }

def nineErrors : List Input :=
  .turn unanswered :: .turn nothingNew :: List.replicate 8 (.turn unanswered)

/-- The tenth error in a row fails the leader over. -/
theorem failover_without_progress_tenth :
    failsOver unanswered (lit "orders/0")
      (run (watch (lit "orders/0")) (following, []) nineErrors).1 = true ∧
    FailsOverWithoutProgress (lit "orders/0") (run (watch (lit "orders/0")) (following, [])
      nineErrors) := by
  have hvalid : Valid (watch (lit "orders/0")) (Undisturbed (lit "orders/0")) (following, [])
      nineErrors := by
    refine valid_of_forall (fun input hinput s => ?_)
    have hturn : input = .turn unanswered ∨ input = .turn nothingNew := by
      rcases List.mem_cons.mp hinput with hfirst | hrest
      · exact .inl hfirst
      · rcases List.mem_cons.mp hrest with hsecond | hlater
        · exact .inr hsecond
        · exact .inl (List.eq_of_mem_replicate hlater)
    rcases hturn with rfl | rfl
    · trivial
    · trivial
  exact ⟨by decide, failover_without_progress (lit "orders/0") following
    (.inr (by decide)) nineErrors hvalid⟩

/-- The leader had answered after the first error, and it is failed over with the ninth
error after that. -/
theorem answering_leader_failed_over :
    let s := run (watch (lit "orders/0")) (following, []) nineErrors
    s.2 = .error :: .empty :: List.replicate 8 .error ∧
      failsOver unanswered (lit "orders/0") s.1 = true ∧
      ¬ FailsOverAfterErrors (lit "orders/0") s := by
  refine ⟨by decide, by decide, fun h => ?_⟩
  have hlast := h unanswered .error (by decide) (by decide)
  exact absurd hlast (by decide)

end Flux.WorkerFailures
