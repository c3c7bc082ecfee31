import Flux.ClusterSteps

/-!
What one step can do to the runtime of a broker, and which steps touch its
metadata, its watermarks and its worker. A cycle that has applied its batch ends
only when its acknowledgement is sent or lost.
-/
namespace Flux.RuntimeSteps

open GoRuntime GoStrings FiniteMap PartitionStorage ReplicationManager ClusterMetadata
open BrokerNode ReplicaCluster ClusterSteps
open ReplicaProgress (Operation)
open FollowerWorkers (Cycle received applyRecord)

section Partition

variable (topic : Str) (partition : Int)

inductive Moved (c : Cluster) (b : Int) : Event → Activity → Prop
  | reconcile (pm : PartitionMetadata) (hidle : (c b).runtime = .idle)
      (hview : (c b).view topic partition = some pm) :
      Moved c b (.reconcile b) (.snapped pm)
  | look (pm : PartitionMetadata) (h : (c b).runtime = .snapped pm) :
      Moved c b (.look b)
        (.looked pm (lastOffset (c b).broker.storage topic partition))
  | turn (now : Time) (pm : PartitionMetadata) (lastOffset : Int)
      (h : (c b).runtime = .looked pm lastOffset)
      (hpart : pm.leaderID = (c b).broker.localBrokerID ∨ 0 ≤ pm.leaderID) :
      Moved c b (.turn b now) (.turned pm lastOffset)
  | boot (now : Time) (pm : PartitionMetadata) (lastOffset : Int)
      (h : (c b).runtime = .turned pm lastOffset) : Moved c b (.boot b now) (.booted pm lastOffset)
  | failover (pm : PartitionMetadata) (hidle : (c b).runtime = .idle)
      (hview : (c b).view topic partition = some pm) :
      Moved c b (.failover b) (.failing pm)
  | ask (hidle : (c b).runtime = .idle) : Moved c b (.ask b) .granted
  | status (now : Time) (state : ReplicaWorkerState) (hgranted : (c b).runtime = .granted)
      (hstate : (c b).following topic partition = some state) :
      Moved c b (.status b now) (.asked (ReplicationManager.status id now
        (c state.leaderID).broker.replication topic partition).2)
  | reply (seq : ℕ) (state : ReplicaWorkerState) (st : Status)
      (hasked : (c b).runtime = .asked st)
      (hstate : (c b).following topic partition = some state) :
      Moved c b (.reply b seq) (.ofCycle (received (fetched topic partition c seq state st)))
  | apply (env : Env) (record : TCPTransport.ReplicationRecord)
      (rest : List TCPTransport.ReplicationRecord) (state : ReplicaWorkerState)
      (happlying : (c b).runtime = .stepping (.applying record rest))
      (hstate : (c b).following topic partition = some state) :
      Moved c b (.apply b env)
        (.ofCycle (applyRecord env (c b).broker.storage state.worker record rest).2.2)
  | ack (seen now : Time) (state : ReplicaWorkerState) (offset : Int)
      (hacking : (c b).runtime = .stepping (.acking offset))
      (hstate : (c b).following topic partition = some state) :
      Moved c b (.ack b seen now) .idle
  | lose : Moved c b (.lose b) .idle
  | idle (e : Event) (h : (c b).runtime.cycle = .idle) : Moved c b e .idle

variable {topic partition} {c : Cluster} {b : Int}

theorem moved_modify {b' : Int} {e : Event} {change : Node → Node}
    (h : (change (c b')).runtime = (c b').runtime ∨
      Moved topic partition c b' e (change (c b')).runtime) :
    (c.modify b' change b).runtime = (c b).runtime ∨
      Moved topic partition c b e (c.modify b' change b).runtime := by
  by_cases hb : b = b'
  · rw [hb, modify_self]
    exact h
  · rw [modify_ne hb]
    exact .inl rfl

theorem moved_exchange {leader f : Int} {e : Event} {op : Operation} {next : Activity}
    (h : next = (c f).runtime ∨ Moved topic partition c f e next) :
    ((c.modify leader (Node.call op)).modify f (fun n => { n with runtime := next }) b).runtime =
        (c b).runtime ∨
      Moved topic partition c b e
        ((c.modify leader (Node.call op)).modify f
          (fun n => { n with runtime := next }) b).runtime := by
  by_cases hb : b = f
  · rw [hb, modify_self]
    exact h
  · rw [modify_ne hb]
    exact .inl (related_modify (R := fun n n' => n'.runtime = n.runtime) (fun _ => rfl) rfl b)

theorem moved_turn (now : Time) :
    ((c b).turn topic partition now).runtime = (c b).runtime ∨
      Moved topic partition c b (.turn b now) ((c b).turn topic partition now).runtime := by
  unfold Node.turn
  split
  · rename_i pm lastOffset hlooked
    split
    · rename_i hlead
      exact .inr (.turn now pm lastOffset hlooked (.inl hlead))
    · split
      · refine .inr (.idle _ ?_)
        rw [hlooked]
        rfl
      · exact .inr (.turn now pm lastOffset hlooked (.inr (by omega)))
  · exact .inl rfl

theorem moved_settle :
    ((c b).settle topic partition).runtime = (c b).runtime ∨
      Moved topic partition c b (.settle b) ((c b).settle topic partition).runtime := by
  unfold Node.settle
  split
  · rename_i pm lastOffset hbooted
    have hidle : (c b).runtime.cycle = .idle := by
      rw [hbooted]
      rfl
    split
    · exact .inr (.idle _ hidle)
    · split <;> exact .inr (.idle _ hidle)
  · exact .inl rfl

theorem moved_lead (now : Time) :
    ((c b).lead topic partition now).runtime = (c b).runtime ∨
      Moved topic partition c b (.lead b now) ((c b).lead topic partition now).runtime := by
  unfold Node.lead
  split
  · rename_i pm hfailing
    have hidle : (c b).runtime.cycle = .idle := by
      rw [hfailing]
      rfl
    split <;> exact .inr (.idle _ hidle)
  · exact .inl rfl

theorem moved_lose :
    (c b).lose.runtime = (c b).runtime ∨
      Moved topic partition c b (.lose b) (c b).lose.runtime := by
  unfold Node.lose
  split
  · exact .inr .lose
  · exact .inr .lose
  · exact .inr .lose
  · exact .inl rfl

variable (topic partition c b) in
/-- The runtime stays where it is, or the step is one of its own. -/
theorem moved_step (e : Event) :
    (step topic partition c e b).runtime = (c b).runtime ∨
      Moved topic partition c b e (step topic partition c e b).runtime := by
  cases e with
  | route b' value =>
    refine moved_modify (.inl ?_)
    unfold Node.route
    split
    · rfl
    · split <;> rfl
  | checkLeader b' i =>
    refine moved_modify (.inl ?_)
    unfold Node.checkLeader
    split <;> rfl
  | append b' i env =>
    refine moved_modify (.inl ?_)
    unfold Node.append
    split <;> rfl
  | report b' i now =>
    refine moved_modify (.inl ?_)
    unfold Node.report
    split <;> rfl
  | poll b' i now =>
    refine moved_modify (.inl ?_)
    unfold Node.poll
    split <;> rfl
  | mark b' now => exact moved_modify (.inl rfl)
  | control b' now cmd => exact moved_modify (.inl rfl)
  | reconcile b' =>
    refine moved_modify ?_
    unfold Node.reconcile
    split
    · rename_i pm hidle hview
      exact .inr (.reconcile pm hidle hview)
    · exact .inl rfl
  | look b' =>
    refine moved_modify ?_
    unfold Node.look
    split
    · rename_i pm hsnapped
      exact .inr (.look pm hsnapped)
    · exact .inl rfl
  | turn b' now => exact moved_modify (moved_turn now)
  | boot b' now =>
    refine moved_modify ?_
    unfold Node.boot
    split
    · rename_i pm lastOffset hturned
      exact .inr (.boot now pm lastOffset hturned)
    · exact .inl rfl
  | settle b' => exact moved_modify moved_settle
  | failover b' =>
    refine moved_modify ?_
    unfold Node.failover
    split
    · rename_i pm hidle hview
      exact .inr (.failover pm hidle hview)
    · exact .inl rfl
  | lead b' now => exact moved_modify (moved_lead now)
  | ask f =>
    dsimp only [step]
    rcases ask_cases topic partition c f with hsame | ⟨state, next, hidle, -, hnext, heq⟩
    · rw [hsame]
      exact .inl rfl
    · rw [heq]
      refine moved_exchange ?_
      rcases hnext with rfl | rfl
      · exact .inr (.ask hidle)
      · exact .inl hidle.symm
  | status f now =>
    dsimp only [step]
    rcases status_cases topic partition c f now with hsame | ⟨state, hgranted, hstate, heq⟩
    · rw [hsame]
      exact .inl rfl
    · rw [heq]
      exact moved_exchange (.inr (.status now state hgranted hstate))
  | reply f seq =>
    dsimp only [step]
    rcases reply_cases topic partition c f seq with hsame | ⟨state, st, hasked, hstate, heq⟩
    · rw [hsame]
      exact .inl rfl
    · rw [heq]
      exact moved_modify (.inr (.reply seq state st hasked hstate))
  | lose f => exact moved_modify moved_lose
  | apply f env =>
    refine moved_modify ?_
    rcases apply_cases topic partition (c f) env with
      hsame | ⟨record, rest, state, happlying, hstate, heq⟩
    · rw [hsame]
      exact .inl rfl
    · rw [heq]
      exact .inr (.apply env record rest state happlying hstate)
  | ack f seen now =>
    dsimp only [step]
    rcases ack_cases topic partition c f seen now with
      hsame | ⟨state, offset, hacking, hstate, heq⟩
    · rw [hsame]
      exact .inl rfl
    · rw [heq]
      exact moved_exchange (.inr (.ack seen now state offset hacking hstate))

/-- The worker is the one that was there, perhaps further on, or a new one. -/
theorem following_step {e : Event} {state' : ReplicaWorkerState}
    (h : (step topic partition c e b).following topic partition = some state') :
    (∃ state, (c b).following topic partition = some state ∧ state.leaderID = state'.leaderID) ∨
      ∃ pm lastOffset, e = .settle b ∧ (c b).runtime = .booted pm lastOffset ∧
        Hired topic partition (c b) pm lastOffset state' := by
  have hstay : ∀ n : Node, n.following topic partition = (c b).following topic partition →
      n.following topic partition = some state' →
      ∃ state, (c b).following topic partition = some state ∧ state.leaderID = state'.leaderID :=
    fun n hsame hn => ⟨state', hsame.symm.trans hn, rfl⟩
  have hcalm : ∀ n, Calm topic partition (c b) n → n.following topic partition = some state' →
      ∃ state, (c b).following topic partition = some state ∧
        state.leaderID = state'.leaderID := by
    intro n hcalm hn
    rcases hcalm.following with hsame | hnone
    · exact hstay n hsame hn
    · rw [hnone] at hn
      cases hn
  have hcases := calm_or_busy topic partition c e b
  generalize step topic partition c e b = n at h hcases
  rcases hcases with hquiet | hbusy
  · exact .inl (hcalm n hquiet h)
  · cases hbusy with
    | append i env =>
      refine .inl (hstay _ ?_ h)
      unfold Node.append
      split <;> rfl
    | apply env =>
      rcases apply_cases topic partition (c b) env with
        hsame | ⟨record, rest, state, -, hstate, heq⟩
      · exact .inl (hstay _ (by rw [hsame]) h)
      · rw [heq] at h
        dsimp only [Node.following] at h
        rw [FMap.get_set_self] at h
        cases h
        exact .inl ⟨state, hstate, rfl⟩
    | reply seq =>
      rcases reply_cases topic partition c b seq with hsame | ⟨state, st, -, -, heq⟩
      · exact .inl (hstay _ (by rw [hsame]) h)
      · refine .inl (hstay _ ?_ h)
        rw [heq, modify_self]
        rfl
    | settle =>
      rcases settle_cases topic partition (c b) with
        hquiet | ⟨pm, lastOffset, state, hbooted, hhired, heq⟩
      · exact .inl (hcalm _ hquiet h)
      · rw [heq] at h
        dsimp only [Node.following] at h
        rw [FMap.get_set_self] at h
        cases h
        exact .inr ⟨pm, lastOffset, rfl, hbooted, hhired⟩

theorem calm_log (e : Event) (h : ∀ n, ¬ Busy topic partition c b e n) :
    (step topic partition c e b).log topic partition = (c b).log topic partition := by
  rcases calm_or_busy topic partition c e b with hcalm | hbusy
  · unfold Node.log
    rw [hcalm.storage]
  · exact absurd hbusy (h _)

/-- The storage of a broker without requests is left alone between cycles. -/
theorem storage_idle {e : Event} (hrequests : (c b).produces = [])
    (hidle : (c b).runtime.cycle = .idle) :
    (step topic partition c e b).broker.storage = (c b).broker.storage := by
  have hcases := calm_or_busy topic partition c e b
  generalize step topic partition c e b = n at hcases
  rcases hcases with hcalm | hbusy
  · exact hcalm.storage
  · cases hbusy with
    | append i env =>
      unfold Node.append
      rw [hrequests]
      rfl
    | apply env =>
      rcases apply_cases topic partition (c b) env with hsame | ⟨record, rest, state, hrun, -, -⟩
      · rw [hsame]
      · rw [hrun] at hidle
        cases hidle
    | reply seq =>
      rcases reply_cases topic partition c b seq with hsame | ⟨state, st, -, -, heq⟩
      · rw [hsame]
      · rw [heq, modify_self]
    | settle =>
      rcases settle_cases topic partition (c b) with
        hcalm | ⟨pm, lastOffset, state, -, -, heq⟩
      · exact hcalm.storage
      · rw [heq]

/-- No broker changes its number. -/
theorem id_step {e : Event} (hid : ∀ b, (c b).broker.localBrokerID = b) (b : Int) :
    (step topic partition c e b).broker.localBrokerID = b := by
  have hcases := calm_or_busy topic partition c e b
  generalize step topic partition c e b = n at hcases ⊢
  rcases hcases with hcalm | hbusy
  · rw [hcalm.id, hid b]
  · cases hbusy with
    | append i env =>
      unfold Node.append
      split <;> exact hid b
    | apply env =>
      unfold Node.apply
      split <;> exact hid b
    | reply seq =>
      rcases reply_cases topic partition c b seq with hsame | ⟨state, st, -, -, heq⟩
      · rw [hsame, hid b]
      · rw [heq, modify_self]
        exact hid b
    | settle =>
      rcases settle_cases topic partition (c b) with
        hcalm | ⟨pm, lastOffset, state, -, -, heq⟩
      · rw [hcalm.id, hid b]
      · rw [heq]
        exact hid b

end Partition

end Flux.RuntimeSteps
