import Flux.ReplicaCluster

/-!
What one step can do to a broker of the cluster. Only an append of a producer, a
record that the worker applies, an answer to the worker and the end of a turn of
`reconcileRoles` touch the log, the worker or the batch under way.
-/
namespace Flux.ClusterSteps

open GoRuntime GoStrings FiniteMap PartitionStorage ReplicationManager ClusterMetadata
open BrokerNode ClusterRuntime ReplicaCluster
open ReplicaProgress (Operation)
open FollowerWorkers (Cycle received applyRecord)

section Modify

variable {c : Cluster} {b : Int} {change : Node → Node}

@[simp] theorem modify_self : c.modify b change b = change (c b) := Function.update_self ..

theorem modify_ne {b' : Int} (h : b' ≠ b) : c.modify b change b' = c b' :=
  Function.update_of_ne h ..

/-- A change of one broker is a change of every broker that may also be idle. -/
theorem related_modify {R : Node → Node → Prop} (hrefl : ∀ n, R n n)
    (hchange : R (c b) (change (c b))) (b' : Int) : R (c b') (c.modify b change b') := by
  by_cases hb : b' = b
  · rw [hb, modify_self]
    exact hchange
  · rw [modify_ne hb]
    exact hrefl _

end Modify

section Calm

variable (topic : Str) (partition : Int)

structure Calm (n n' : Node) : Prop where
  id : n'.broker.localBrokerID = n.broker.localBrokerID
  storage : n'.broker.storage = n.broker.storage
  following : n'.following topic partition = n.following topic partition ∨
    n'.following topic partition = none
  cycle : n'.runtime.cycle = n.runtime.cycle ∨ n'.runtime.cycle = .idle

variable {topic partition} {n : Node}

theorem Calm.refl (n : Node) : Calm topic partition n n := ⟨rfl, rfl, .inl rfl, .inl rfl⟩

theorem Calm.trans {n' n'' : Node} (h : Calm topic partition n n')
    (h' : Calm topic partition n' n'') : Calm topic partition n n'' := by
  refine ⟨h'.id.trans h.id, h'.storage.trans h.storage, ?_, ?_⟩
  · rcases h'.following with hsame | hnone
    · rw [hsame]
      exact h.following
    · exact .inr hnone
  · rcases h'.cycle with hsame | hidle
    · rw [hsame]
      exact h.cycle
    · exact .inr hidle

theorem calm_call (op : Operation) : Calm topic partition n (n.call op) :=
  ⟨rfl, rfl, .inl rfl, .inl rfl⟩

theorem calm_route (value : Str) : Calm topic partition n (n.route topic partition value) := by
  unfold Node.route
  split
  · exact Calm.refl n
  · split
    · exact ⟨rfl, rfl, .inl rfl, .inl rfl⟩
    · exact Calm.refl n

theorem calm_checkLeader (i : ℕ) : Calm topic partition n (n.checkLeader topic partition i) := by
  unfold Node.checkLeader
  split
  · exact ⟨rfl, rfl, .inl rfl, .inl rfl⟩
  · exact Calm.refl n

theorem calm_report (i : ℕ) (now : Time) :
    Calm topic partition n (n.report topic partition i now) := by
  unfold Node.report
  split
  · exact ⟨rfl, rfl, .inl rfl, .inl rfl⟩
  · exact Calm.refl n

theorem calm_poll (i : ℕ) (now : Time) :
    Calm topic partition n (n.poll topic partition i now) := by
  unfold Node.poll
  split
  · exact ⟨rfl, rfl, .inl rfl, .inl rfl⟩
  · exact Calm.refl n

theorem calm_reconcile : Calm topic partition n (n.reconcile topic partition) := by
  unfold Node.reconcile
  split
  · exact ⟨rfl, rfl, .inl rfl, .inr rfl⟩
  · exact Calm.refl n

theorem calm_look : Calm topic partition n (n.look topic partition) := by
  unfold Node.look
  split
  · exact ⟨rfl, rfl, .inl rfl, .inr rfl⟩
  · exact Calm.refl n

theorem following_stopWorker : (n.stopWorker topic partition).following topic partition = none :=
  FMap.get_del_self ..

theorem calm_turn (now : Time) : Calm topic partition n (n.turn topic partition now) := by
  unfold Node.turn
  split
  · split
    · exact ⟨rfl, rfl, .inl rfl, .inr rfl⟩
    · split
      · exact ⟨rfl, rfl, .inr following_stopWorker, .inr rfl⟩
      · exact ⟨rfl, rfl, .inl rfl, .inr rfl⟩
  · exact Calm.refl n

theorem calm_boot (now : Time) : Calm topic partition n (n.boot topic partition now) := by
  unfold Node.boot
  split
  · exact ⟨rfl, rfl, .inl rfl, .inr rfl⟩
  · exact Calm.refl n

theorem calm_failover : Calm topic partition n (n.failover topic partition) := by
  unfold Node.failover
  split
  · exact ⟨rfl, rfl, .inl rfl, .inr rfl⟩
  · exact Calm.refl n

theorem calm_lead (now : Time) : Calm topic partition n (n.lead topic partition now) := by
  unfold Node.lead
  split
  · split
    · exact ⟨rfl, rfl, .inl rfl, .inr rfl⟩
    · exact ⟨rfl, rfl, .inl rfl, .inr rfl⟩
  · exact Calm.refl n

theorem calm_lose : Calm topic partition n n.lose := by
  unfold Node.lose
  split
  · exact ⟨rfl, rfl, .inl rfl, .inr rfl⟩
  · exact ⟨rfl, rfl, .inl rfl, .inr rfl⟩
  · exact ⟨rfl, rfl, .inl rfl, .inr rfl⟩
  · exact Calm.refl n

/-- The broker that answers is called, and the one that asked goes on. -/
theorem calm_exchange (c : Cluster) (leader f : Int) (op : Operation) {next : Activity}
    (hnext : next.cycle = .idle) (b : Int) :
    Calm topic partition (c b)
      ((c.modify leader (Node.call op)).modify f (fun n => { n with runtime := next }) b) :=
  (related_modify Calm.refl (calm_call op) b).trans
    (related_modify (R := Calm topic partition) Calm.refl ⟨rfl, rfl, .inl rfl, .inr hnext⟩ b)

section Exchanges

variable (topic partition) (c : Cluster)

theorem ask_cases (f : Int) :
    ask topic partition c f = c ∨
      ∃ state next, (c f).runtime = .idle ∧ (c f).following topic partition = some state ∧
        (next = .granted ∨ next = .idle) ∧
        ask topic partition c f =
          (c.modify state.leaderID (Node.call (.isLeader topic partition))).modify f
            (fun n => { n with runtime := next }) := by
  unfold ask
  split
  · rename_i state hidle hstate
    refine .inr ⟨state, _, hidle, hstate, ?_, rfl⟩
    split
    · exact .inl rfl
    · exact .inr rfl
  · exact .inl rfl

theorem status_cases (f : Int) (now : Time) :
    ReplicaCluster.status topic partition c f now = c ∨
      ∃ state, (c f).runtime = .granted ∧ (c f).following topic partition = some state ∧
        ReplicaCluster.status topic partition c f now =
          (c.modify state.leaderID (Node.call (.status id now topic partition))).modify f
            (fun n => { n with
              runtime := .asked (ReplicationManager.status id now
                (c state.leaderID).broker.replication topic partition).2 }) := by
  unfold ReplicaCluster.status
  split
  · rename_i state hgranted hstate
    exact .inr ⟨state, hgranted, hstate, rfl⟩
  · exact .inl rfl

theorem ack_cases (f : Int) (seen now : Time) :
    ReplicaCluster.ack topic partition c f seen now = c ∨
      ∃ state offset, (c f).runtime = .stepping (.acking offset) ∧
        (c f).following topic partition = some state ∧
        ReplicaCluster.ack topic partition c f seen now =
          (c.modify state.leaderID (Node.call
            (.ackReplica seen now topic partition state.worker.followerID offset))).modify f
              (fun n => { n with runtime := .idle }) := by
  unfold ReplicaCluster.ack
  split
  · rename_i state offset hacking hstate
    exact .inr ⟨_, _, hacking, hstate, rfl⟩
  · exact .inl rfl

theorem reply_cases (f : Int) (seq : ℕ) :
    reply topic partition c f seq = c ∨
      ∃ state st, (c f).runtime = .asked st ∧ (c f).following topic partition = some state ∧
        reply topic partition c f seq = c.modify f (fun n => { n with
          runtime := .ofCycle (received (fetched topic partition c seq state st)) }) := by
  unfold reply
  split
  · rename_i st state hasked hstate
    exact .inr ⟨_, _, hasked, hstate, rfl⟩
  · exact .inl rfl

end Exchanges

variable (topic partition n) in
theorem apply_cases (env : Env) :
    n.apply topic partition env = n ∨
      ∃ record rest state, n.runtime = .stepping (.applying record rest) ∧
        n.following topic partition = some state ∧
        n.apply topic partition env =
          { n with
            broker :=
              { n.broker with
                storage := (applyRecord env n.broker.storage state.worker record rest).1
                workers := n.broker.workers.set (workerKey topic partition)
                  { state with
                    worker := (applyRecord env n.broker.storage state.worker record rest).2.1 } }
            runtime :=
              .ofCycle (applyRecord env n.broker.storage state.worker record rest).2.2 } := by
  unfold Node.apply
  split
  · rename_i record rest state hrun hstate
    exact .inr ⟨_, _, _, hrun, hstate, rfl⟩
  · exact .inl rfl

/-- The worker is kept, or a new one takes its place. -/
theorem ensureWorker_cases (id : Int) (topic : Str) (partition leaderID : Int) (leaderAddr : Str)
    (startOffset : Int) (workers : FMap Str ReplicaWorkerState) :
    ensureWorker id topic partition leaderID leaderAddr startOffset workers = workers ∨
      ∃ worker, newFollowerWorker id topic partition startOffset workerBatch = .ok worker ∧
        ensureWorker id topic partition leaderID leaderAddr startOffset workers =
          workers.set (workerKey topic partition) ⟨worker, leaderID, leaderAddr, 0⟩ := by
  unfold ensureWorker
  dsimp only
  generalize newFollowerWorker id topic partition startOffset workerBatch = created
  cases created with
  | error e => exact .inl (ite_self _)
  | ok worker =>
    split_ifs
    · exact .inl rfl
    · exact .inr ⟨worker, rfl, rfl⟩

/-- A worker as `reconcileRoles` creates it. -/
structure Hired (topic : Str) (partition : Int) (n : Node) (pm : PartitionMetadata)
    (lastOffset : Int) (state : ReplicaWorkerState) : Prop where
  topic_eq : state.worker.topic = topic
  partition_eq : state.worker.partition = partition
  follower : state.worker.followerID = n.broker.localBrokerID
  positive : 0 < n.broker.localBrokerID
  batch : state.worker.maxBatch = workerBatch
  next : state.worker.nextOffset = lastOffset + 1
  leader : state.leaderID = pm.leaderID
  other : pm.leaderID ≠ n.broker.localBrokerID

variable (topic partition n) in
theorem settle_cases :
    Calm topic partition n (n.settle topic partition) ∨
      ∃ pm lastOffset state, n.runtime = .booted pm lastOffset ∧
        Hired topic partition n pm lastOffset state ∧
        n.settle topic partition =
          { n with
            broker :=
              { n.broker with workers := n.broker.workers.set (workerKey topic partition) state }
            runtime := .idle } := by
  unfold Node.settle
  split
  · rename_i pm lastOffset hbooted
    split
    · exact .inl ⟨rfl, rfl, .inr following_stopWorker, .inr rfl⟩
    · rename_i hother
      split
      · exact .inl ⟨rfl, rfl, .inl rfl, .inr rfl⟩
      · rename_i leaderAddr hpeer
        rcases ensureWorker_cases n.broker.localBrokerID topic partition pm.leaderID leaderAddr
          (lastOffset + 1) n.broker.workers with hkept | ⟨worker, hworker, hset⟩
        · rw [hkept]
          exact .inl ⟨rfl, rfl, .inl rfl, .inr rfl⟩
        · rw [hset]
          have hok := FollowerWorkers.newFollowerWorker_ok hworker
          refine .inr ⟨pm, lastOffset, ⟨worker, pm.leaderID, leaderAddr, 0⟩, hbooted, ?_, rfl⟩
          exact ⟨hok.2.2.2.1, hok.2.2.2.2.1, hok.2.2.1, hok.1, hok.2.2.2.2.2.2,
            hok.2.2.2.2.2.1, rfl, hother⟩
  · exact .inl (Calm.refl n)

inductive Busy (topic : Str) (partition : Int) (c : Cluster) (b : Int) : Event → Node → Prop
  | append (i : ℕ) (env : Env) :
      Busy topic partition c b (.append b i env) ((c b).append topic partition i env)
  | apply (env : Env) : Busy topic partition c b (.apply b env) ((c b).apply topic partition env)
  | reply (seq : ℕ) : Busy topic partition c b (.reply b seq) (reply topic partition c b seq b)
  | settle : Busy topic partition c b (.settle b) ((c b).settle topic partition)

variable (topic partition) in
theorem calm_or_busy (c : Cluster) (e : Event) (b : Int) :
    Calm topic partition (c b) (step topic partition c e b) ∨
      Busy topic partition c b e (step topic partition c e b) := by
  cases e with
  | route b' value => exact .inl (related_modify Calm.refl (calm_route value) b)
  | checkLeader b' i => exact .inl (related_modify Calm.refl (calm_checkLeader i) b)
  | append b' i env =>
    by_cases hb : b = b'
    · subst hb
      refine .inr ?_
      dsimp only [step]
      rw [modify_self]
      exact .append i env
    · refine .inl ?_
      dsimp only [step]
      rw [modify_ne hb]
      exact Calm.refl _
  | report b' i now => exact .inl (related_modify Calm.refl (calm_report i now) b)
  | poll b' i now => exact .inl (related_modify Calm.refl (calm_poll i now) b)
  | mark b' now =>
    exact .inl (related_modify (R := Calm topic partition) Calm.refl
      ⟨rfl, rfl, .inl rfl, .inl rfl⟩ b)
  | control b' now cmd =>
    exact .inl (related_modify (R := Calm topic partition) Calm.refl
      ⟨rfl, rfl, .inl rfl, .inl rfl⟩ b)
  | reconcile b' => exact .inl (related_modify Calm.refl calm_reconcile b)
  | look b' => exact .inl (related_modify Calm.refl calm_look b)
  | turn b' now => exact .inl (related_modify Calm.refl (calm_turn now) b)
  | boot b' now => exact .inl (related_modify Calm.refl (calm_boot now) b)
  | settle b' =>
    by_cases hb : b = b'
    · subst hb
      refine .inr ?_
      dsimp only [step]
      rw [modify_self]
      exact .settle
    · refine .inl ?_
      dsimp only [step]
      rw [modify_ne hb]
      exact Calm.refl _
  | failover b' => exact .inl (related_modify Calm.refl calm_failover b)
  | lead b' now => exact .inl (related_modify Calm.refl (calm_lead now) b)
  | ask f =>
    refine .inl ?_
    dsimp only [step]
    rcases ask_cases topic partition c f with hsame | ⟨state, next, -, -, hnext, heq⟩
    · rw [hsame]
      exact Calm.refl _
    · rw [heq]
      refine calm_exchange c _ f _ ?_ b
      rcases hnext with rfl | rfl <;> rfl
  | status f now =>
    refine .inl ?_
    dsimp only [step]
    rcases status_cases topic partition c f now with hsame | ⟨state, -, -, heq⟩
    · rw [hsame]
      exact Calm.refl _
    · rw [heq]
      exact calm_exchange c _ f _ rfl b
  | reply f seq =>
    by_cases hb : b = f
    · subst hb
      exact .inr (.reply seq)
    · refine .inl ?_
      dsimp only [step]
      rcases reply_cases topic partition c f seq with hsame | ⟨state, st, -, -, heq⟩
      · rw [hsame]
        exact Calm.refl _
      · rw [heq, modify_ne hb]
        exact Calm.refl _
  | lose f => exact .inl (related_modify Calm.refl calm_lose b)
  | apply f env =>
    by_cases hb : b = f
    · subst hb
      refine .inr ?_
      dsimp only [step]
      rw [modify_self]
      exact .apply env
    · refine .inl ?_
      dsimp only [step]
      rw [modify_ne hb]
      exact Calm.refl _
  | ack f seen now =>
    refine .inl ?_
    dsimp only [step]
    rcases ack_cases topic partition c f seen now with hsame | ⟨state, offset, -, -, heq⟩
    · rw [hsame]
      exact Calm.refl _
    · rw [heq]
      exact calm_exchange c _ f _ rfl b

end Calm

end Flux.ClusterSteps
