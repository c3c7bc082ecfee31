import Flux.BrokerNode
import Flux.FetchCodec
import Flux.MemoryLogs

/-!
The worker that replicates a partition from its leader. It keeps a cursor next to
the storage, applies a fetched batch record by record, and acknowledges the last
record of a batch that was applied to its end. As long as the leader's log only
grows, the follower's log stays a prefix of it and the cursor stays at the end of
the follower's log, wherever a cycle breaks off.
-/
namespace Flux.FollowerWorkers

open GoStrings FiniteMap PartitionStorage StorageCalls StorageAppends
open BrokerNode TCPTransport FetchCodec MemoryLogs Runs

variable {topic : Str} {partition : Int} {leader' : List Message} {record : ReplicationRecord}
  {rest : List ReplicationRecord} {s : Storage}

/-- How far `StepOnce` has come. -/
inductive Cycle
  | idle
  | applying (record : ReplicationRecord) (rest : List ReplicationRecord)
  | acking (offset : Int)
  deriving DecidableEq, Repr

def received : List ReplicationRecord → Cycle
  | [] => .idle
  | record :: rest => .applying record rest

/-- One turn of the loop of `StepOnce`; an error ends the cycle. -/
def applyRecord (env : Env) (s : Storage) (w : FollowerWorker) (record : ReplicationRecord)
    (rest : List ReplicationRecord) : Storage × FollowerWorker × Cycle :=
  if record.offset ≠ w.nextOffset then (s, w, .idle)
  else
    match appendReplicated env s w.topic w.partition record.offset record.value with
    | (s, some _) => (s, w, .idle)
    | (s, none) =>
        (s, { w with nextOffset := w.nextOffset + 1 },
          match rest with
          | [] => if 0 ≤ record.offset then .acking record.offset else .idle
          | next :: rest => .applying next rest)

def Cycle.Fits (leader : List Message) (n : ℕ) : Cycle → Prop
  | .idle => True
  | .applying record rest => record :: rest <+: (leader.drop n).map toRecord
  | .acking offset => 0 ≤ offset ∧ offset + 1 = n

structure InStep (leader : List Message) (s : Storage) (w : FollowerWorker) (cycle : Cycle) :
    Prop where
  whole : Whole s w.topic w.partition
  behind : messagesOf s w.topic w.partition <+: leader
  next : w.nextOffset = (messagesOf s w.topic w.partition).length
  fits : cycle.Fits leader (messagesOf s w.topic w.partition).length

section Steps

variable {leader : List Message} {s : Storage} {w : FollowerWorker} {cycle : Cycle}

theorem Cycle.Fits.grow {n : ℕ} (h : cycle.Fits leader n) (hgrow : leader <+: leader') :
    cycle.Fits leader' n := by
  cases cycle with
  | idle => trivial
  | applying record rest => exact List.IsPrefix.trans h ((hgrow.drop n).map toRecord)
  | acking offset => exact h

/-- The leader's log may grow at any time. -/
theorem InStep.grow (h : InStep leader s w cycle) (hgrow : leader <+: leader') :
    InStep leader' s w cycle :=
  ⟨h.whole, h.behind.trans hgrow, h.next, h.fits.grow hgrow⟩

theorem InStep.stop (h : InStep leader s w cycle) : InStep leader s w .idle :=
  ⟨h.whole, h.behind, h.next, trivial⟩

/-- The worker takes in consecutive records of the leader from its cursor on. -/
theorem InStep.received (h : InStep leader s w .idle) {records : List ReplicationRecord}
    (hrecords : records <+: (leader.drop w.nextOffset.toNat).map toRecord) :
    InStep leader s w (received records) := by
  refine ⟨h.whole, h.behind, h.next, ?_⟩
  have hcursor : w.nextOffset.toNat = (messagesOf s w.topic w.partition).length := by
    rw [h.next]
    exact Int.toNat_natCast _
  rw [hcursor] at hrecords
  cases records with
  | nil => trivial
  | cons record rest => exact hrecords

/-- The record that stands next in the longer list extends the shorter one. -/
theorem behind_concat {log : List Message} (hbehind : log <+: leader)
    (hnext : record :: rest <+: (leader.drop log.length).map toRecord) :
    log ++ [⟨record.offset, record.value⟩] <+: leader ∧
      rest <+: (leader.drop (log.length + 1)).map toRecord := by
  obtain ⟨later, rfl⟩ := hbehind
  rw [List.drop_left] at hnext
  cases later with
  | nil => simp at hnext
  | cons m later =>
    rw [List.map_cons, List.cons_prefix_cons] at hnext
    obtain ⟨rfl, hrest⟩ := hnext
    constructor
    · exact ⟨later, by simp [toRecord]⟩
    · have hdrop : (log ++ m :: later).drop (log.length + 1) = later := by
        rw [List.append_cons, List.drop_left' (by simp)]
      rw [hdrop]
      exact hrest

/-- One turn of the loop keeps the follower in step, whether or not it fails; if it
fails, the log stays as it is. -/
theorem InStep.applyRecord (env : Env) (h : InStep leader s w (.applying record rest))
    (hall : Undropped w.topic w.partition s (applyRecord env s w record rest).1) :
    InStep leader (FollowerWorkers.applyRecord env s w record rest).1
        (FollowerWorkers.applyRecord env s w record rest).2.1
        (FollowerWorkers.applyRecord env s w record rest).2.2 ∧
      messagesOf s w.topic w.partition <+:
        messagesOf (FollowerWorkers.applyRecord env s w record rest).1 w.topic w.partition ∧
      ((FollowerWorkers.applyRecord env s w record rest).2.2 = .idle →
        messagesOf (FollowerWorkers.applyRecord env s w record rest).1 w.topic w.partition =
          messagesOf s w.topic w.partition) := by
  unfold FollowerWorkers.applyRecord at hall ⊢
  by_cases hgap : record.offset ≠ w.nextOffset
  · rw [if_pos hgap]
    exact ⟨h.stop, List.prefix_refl _, fun _ => rfl⟩
  · rw [if_neg hgap] at hall ⊢
    have hoffset : record.offset = (messagesOf s w.topic w.partition).length := by
      have := h.next
      omega
    cases hcall : appendReplicated env s w.topic w.partition record.offset record.value with
    | mk s' failed =>
      have hspec := appendReplicated_whole env h.whole record.offset record.value
      rw [hcall] at hall hspec
      cases failed with
      | some e =>
        obtain ⟨hwhole, ⟨hnone, -, -⟩ | ⟨hsame, -⟩⟩ := hspec hall
        · cases hnone
        · dsimp only at hsame ⊢
          exact ⟨⟨hwhole, hsame ▸ h.behind, hsame ▸ h.next, trivial⟩, by rw [hsame],
            fun _ => hsame⟩
      | none =>
        obtain ⟨hwhole, ⟨-, -, hlog⟩ | ⟨-, hold⟩⟩ := hspec hall
        · obtain ⟨hbehind, hrest⟩ := behind_concat h.behind h.fits
          dsimp only at hlog ⊢
          refine ⟨⟨hwhole, hlog ▸ hbehind, ?_, ?_⟩, hlog ▸ List.prefix_append _ _, ?_⟩
          · dsimp only
            rw [hlog, List.length_append, h.next]
            simp
          · dsimp only
            rw [hlog, List.length_append, List.length_singleton]
            cases rest with
            | nil =>
              rw [if_pos (by omega)]
              refine ⟨by omega, ?_⟩
              rw [hoffset]
              simp
            | cons next rest => exact hrest
          · cases rest with
            | nil =>
              rw [if_pos (by omega)]
              exact fun hidle => by cases hidle
            | cons next rest => exact fun hidle => by cases hidle
        · have := hold rfl
          omega

theorem applyRecord_worker (env : Env) (record : ReplicationRecord)
    (rest : List ReplicationRecord) :
    (FollowerWorkers.applyRecord env s w record rest).2.1.topic = w.topic ∧
      (FollowerWorkers.applyRecord env s w record rest).2.1.partition = w.partition ∧
      (FollowerWorkers.applyRecord env s w record rest).2.1.followerID = w.followerID ∧
      (FollowerWorkers.applyRecord env s w record rest).2.1.maxBatch = w.maxBatch := by
  unfold FollowerWorkers.applyRecord
  split
  · exact ⟨rfl, rfl, rfl, rfl⟩
  · split <;> exact ⟨rfl, rfl, rfl, rfl⟩

end Steps

/-- A whole log ends one below its length. -/
theorem lastOffset_whole (h : Whole s topic partition) :
    lastOffset s topic partition + 1 = (messagesOf s topic partition).length := by
  unfold lastOffset
  cases hlast : (messagesOf s topic partition).getLast? with
  | none =>
    rw [List.getLast?_eq_none_iff.mp hlast]
    rfl
  | some m =>
    rw [List.getLast?_eq_getElem?] at hlast
    have hi := (List.getElem?_eq_some_iff.mp hlast).1
    have hoffset := h.positional _ m hlast
    dsimp only
    omega

theorem whole_absent (hdata : get2 s.data topic partition = none)
    (hstate : get2 s.partitionState topic partition = none) : Whole s topic partition := by
  have hempty : messagesOf s topic partition = [] := by simp [messagesOf, hdata]
  refine ⟨?_, ?_, fun st hst => ?_⟩
  · rw [hempty]
    intro i m hm
    simp at hm
  · rw [nextOffsetOf, hstate, hempty]
    rfl
  · rw [hstate] at hst
    cases hst

/-- A leader and one follower of a partition, with the acknowledgements that the
leader has been sent. -/
structure Pair where
  leader : Storage
  storage : Storage
  worker : FollowerWorker
  cycle : Cycle
  acked : List Int

variable {p : Pair}

/-- The leader takes a record; a fetch brings at most so many records; the next
record of the batch is applied; the acknowledgement is delivered or lost; the
cycle breaks off; the worker is created anew between two cycles. -/
inductive Event
  | append (env : Env) (value : Str)
  | fetch (count : ℕ)
  | apply (env : Env)
  | ack (delivered : Bool)
  | fail
  | recreate

def Pair.served (p : Pair) (count : ℕ) : List ReplicationRecord :=
  (((messagesOf p.leader p.worker.topic p.worker.partition).drop p.worker.nextOffset.toNat).take
    (min count p.worker.maxBatch.toNat)).map toRecord

def step (p : Pair) : Event → Pair
  | .append env value =>
      { p with
        leader := (produceToPartition env p.leader p.worker.topic p.worker.partition value).1 }
  | .fetch count =>
      match p.cycle with
      | .idle => { p with cycle := received (p.served count) }
      | _ => p
  | .apply env =>
      match p.cycle with
      | .applying record rest =>
          let applied := applyRecord env p.storage p.worker record rest
          { p with storage := applied.1, worker := applied.2.1, cycle := applied.2.2 }
      | _ => p
  | .ack delivered =>
      match p.cycle with
      | .acking offset =>
          { p with cycle := .idle, acked := if delivered then p.acked ++ [offset] else p.acked }
      | _ => p
  | .fail => { p with cycle := .idle }
  | .recreate =>
      match p.cycle with
      | .idle =>
          match newFollowerWorker p.worker.followerID p.worker.topic p.worker.partition
              (lastOffset p.storage p.worker.topic p.worker.partition + 1) p.worker.maxBatch with
          | .error _ => p
          | .ok worker => { p with worker := worker }
      | _ => p

/-- Retention deletes nothing during the step. -/
def DropsNothing (p : Pair) (e : Event) : Prop :=
  Undropped p.worker.topic p.worker.partition p.leader (step p e).leader ∧
    Undropped p.worker.topic p.worker.partition p.storage (step p e).storage

instance (p : Pair) (e : Event) : Decidable (DropsNothing p e) :=
  inferInstanceAs (Decidable (_ ∧ _))

/-- A worker starts with its cursor at the end of a log that the leader has, too. -/
structure Started (p : Pair) : Prop where
  leader : Whole p.leader p.worker.topic p.worker.partition
  storage : Whole p.storage p.worker.topic p.worker.partition
  behind : messagesOf p.storage p.worker.topic p.worker.partition <+:
    messagesOf p.leader p.worker.topic p.worker.partition
  worker : newFollowerWorker p.worker.followerID p.worker.topic p.worker.partition
    (lastOffset p.storage p.worker.topic p.worker.partition + 1) p.worker.maxBatch = .ok p.worker
  cycle : p.cycle = .idle
  acked : p.acked = []

/-- What holds of a pair at any time. -/
structure Sound (p : Pair) : Prop where
  leader : Whole p.leader p.worker.topic p.worker.partition
  inStep : InStep (messagesOf p.leader p.worker.topic p.worker.partition) p.storage p.worker p.cycle
  acked : ∀ o ∈ p.acked, 0 ≤ o ∧ o < (messagesOf p.storage p.worker.topic p.worker.partition).length

theorem newFollowerWorker_ok {followerID : Int} {startOffset maxBatch : Int} {w : FollowerWorker}
    (h : newFollowerWorker followerID topic partition startOffset maxBatch = .ok w) :
    0 < followerID ∧ 0 ≤ startOffset ∧ w.followerID = followerID ∧ w.topic = topic ∧
      w.partition = partition ∧ w.nextOffset = startOffset ∧
      w.maxBatch = if maxBatch ≤ 0 then 100 else maxBatch := by
  unfold newFollowerWorker at h
  split at h
  · cases h
  · split at h
    · cases h
    · split at h
      · cases h
      · split at h
        · cases h
        · cases h
          exact ⟨by omega, by omega, rfl, rfl, rfl, rfl, rfl⟩

theorem Started.sound (h : Started p) : Sound p := by
  refine ⟨h.leader, ⟨h.storage, h.behind, ?_, by rw [h.cycle]; trivial⟩, by simp [h.acked]⟩
  rw [← lastOffset_whole h.storage]
  exact (newFollowerWorker_ok h.worker).2.2.2.2.2.1

/-- A step keeps the follower's log a prefix of the leader's. -/
theorem Sound.step (h : Sound p) {e : Event} (hdrops : DropsNothing p e) : Sound (step p e) := by
  cases e with
  | append env value =>
    obtain ⟨hwhole, -, hlog⟩ := produceToPartition_whole env h.leader value hdrops.1
    have hgrow : messagesOf p.leader p.worker.topic p.worker.partition <+:
        messagesOf (produceToPartition env p.leader p.worker.topic p.worker.partition value).1
          p.worker.topic p.worker.partition := by
      rw [hlog]
      exact List.prefix_append _ _
    exact ⟨hwhole, h.inStep.grow hgrow, h.acked⟩
  | fetch count =>
    have hin := h.inStep
    dsimp only [FollowerWorkers.step]
    split
    · rename_i hidle
      rw [hidle] at hin
      exact ⟨h.leader, hin.received ((List.take_prefix _ _).map toRecord), h.acked⟩
    · exact h
  | apply env =>
    have hin := h.inStep
    have hkeep := hdrops.2
    dsimp only [FollowerWorkers.step] at hkeep ⊢
    split
    · rename_i record rest hcycle
      rw [hcycle] at hin
      simp only [hcycle] at hkeep
      obtain ⟨hstep, hgrow, -⟩ := hin.applyRecord env hkeep
      obtain ⟨htopic, hpartition, -⟩ := applyRecord_worker (s := p.storage) (w := p.worker) env
        record rest
      refine ⟨?_, ?_, fun o ho => ?_⟩
      · dsimp only
        rw [htopic, hpartition]
        exact h.leader
      · dsimp only
        rw [htopic, hpartition]
        exact hstep
      · dsimp only
        rw [htopic, hpartition]
        have hlength := hgrow.length_le
        have hold := h.acked o ho
        omega
    · exact h
  | ack delivered =>
    have hin := h.inStep
    dsimp only [FollowerWorkers.step]
    split
    · rename_i offset hcycle
      rw [hcycle] at hin
      refine ⟨h.leader, hin.stop, fun o ho => ?_⟩
      dsimp only at ho ⊢
      split at ho
      · rcases List.mem_append.mp ho with hold | hnew
        · exact h.acked o hold
        · rw [List.mem_singleton.mp hnew]
          obtain ⟨hlow, hlast⟩ := hin.fits
          omega
      · exact h.acked o ho
    · exact h
  | fail => exact ⟨h.leader, h.inStep.stop, h.acked⟩
  | recreate =>
    have hin := h.inStep
    dsimp only [FollowerWorkers.step]
    split
    · split
      · exact h
      · rename_i w hw
        obtain ⟨-, -, -, htopic, hpartition, hnext, -⟩ := newFollowerWorker_ok hw
        refine ⟨?_, ⟨?_, ?_, ?_, ?_⟩, ?_⟩
        all_goals dsimp only
        all_goals simp only [htopic, hpartition]
        · exact h.leader
        · exact hin.whole
        · exact hin.behind
        · rw [hnext]
          exact lastOffset_whole hin.whole
        · rename_i hidle _
          rw [hidle]
          trivial
        · exact h.acked
    · exact h

/-- The follower's log is a prefix of the leader's, the cursor of an idle worker is
the next offset of its storage, and what is acknowledged is applied. -/
structure Safe (p : Pair) : Prop where
  matching : messagesOf p.storage p.worker.topic p.worker.partition <+:
    messagesOf p.leader p.worker.topic p.worker.partition
  cursor : p.cycle = .idle →
    p.worker.nextOffset = nextOffsetOf p.storage p.worker.topic p.worker.partition
  applied : ∀ o ∈ p.acked,
    ∃ m ∈ messagesOf p.storage p.worker.topic p.worker.partition, m.offset = o

theorem Sound.safe (h : Sound p) : Safe p where
  matching := h.inStep.behind
  cursor _ := by rw [h.inStep.whole.next, h.inStep.next]
  applied o ho := by
    obtain ⟨hlow, hhigh⟩ := h.acked o ho
    have hi : o.toNat < (messagesOf p.storage p.worker.topic p.worker.partition).length := by omega
    have hget := List.getElem?_eq_getElem hi
    refine ⟨_, List.getElem_mem hi, ?_⟩
    rw [h.inStep.whole.positional _ _ hget]
    exact Int.toNat_of_nonneg hlow

/-- Replication from a fixed leader is safe at any time, for every order of
appends, fetches, failures and restarts of the worker. -/
theorem replication_safe {start : Pair} (hstart : Started start) (events : List Event)
    (hvalid : Valid step DropsNothing start events) : Safe (run step start events) := by
  have hstep : ∀ (p : Pair) (e : Event), Sound p → DropsNothing p e → Sound (step p e) :=
    fun _ _ hp hdrops => hp.step hdrops
  exact (run_invariant hstep hstart.sound hvalid).safe

def newPair : Pair where
  leader := newStorage (calm 0) defaultSettings FMap.empty
  storage := newStorage (calm 0) defaultSettings FMap.empty
  worker := ⟨1, lit "orders", 0, 0, 2⟩
  cycle := .idle
  acked := []

theorem newPair_started : Started newPair := by
  have hwhole : Whole (newStorage (calm 0) defaultSettings FMap.empty)
      (lit "orders") 0 := whole_absent rfl rfl
  exact ⟨hwhole, hwhole, List.prefix_refl _, by decide, rfl, rfl⟩

def interrupted : List Event :=
  [.append (calm 1) (lit "a"), .append (calm 2) (lit "b"), .fetch 2, .apply (calm 3),
    .apply { calm 4 with mkdirOk := false }, .recreate, .fetch 2, .apply (calm 5), .ack true]

theorem replication_safe_interrupted : Safe (run step newPair interrupted) :=
  replication_safe newPair_started interrupted (by decide)

end Flux.FollowerWorkers
