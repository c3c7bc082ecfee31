import Flux.ClusterSteps

/-!
What one step does to the manager and to the PRODUCE requests of a broker. The
manager is changed by the calls of the step and no others, and each call is one
that the code makes at that point. A request comes to its next stage only by a
step of its own.
-/
namespace Flux.ClusterCalls

open GoRuntime GoStrings PartitionStorage ReplicationManager ClusterMetadata
open BrokerNode ReplicaCluster ClusterSteps
open ReplicaProgress (Operation)

variable {b' f leader : Int} {e : Event} {change : Node → Node} {op : Operation}
  {next : Activity}

section Calls

variable (topic : Str) (partition : Int)

inductive Called (c : Cluster) (b : Int) : Event → Operation → Prop
  | checkLeader (i : ℕ) : Called c b (.checkLeader b i) (.isLeader topic partition)
  | report (i : ℕ) (now : Time) (offset : Int) (value : Str)
      (h : (c b).produces[i]? = some (.stored offset value)) :
      Called c b (.report b i now) (.onLeaderAppend now topic partition offset)
  | poll (i : ℕ) (now : Time) (offset : Int) (value : Str)
      (h : (c b).produces[i]? = some (.awaiting offset value)) :
      Called c b (.poll b i now) (.pollAckAll id now topic partition offset)
  | mark (now : Time) : Called c b (.mark b now) (.highWatermark now topic partition)
  | turn (now : Time) (pm : PartitionMetadata) (lastOffset : Int) (role : Role)
      (h : (c b).runtime = .looked pm lastOffset)
      (hrole : role = .leader ↔ pm.leaderID = (c b).broker.localBrokerID)
      (hpart : role = .leader ∨ 0 ≤ pm.leaderID) :
      Called c b (.turn b now) (.setRole now topic partition role.text)
  | boot (now : Time) (pm : PartitionMetadata) (lastOffset : Int)
      (h : (c b).runtime = .turned pm lastOffset) :
      Called c b (.boot b now) (.bootstrapOffset now topic partition lastOffset)
  | lead (now : Time) (pm : PartitionMetadata) (h : (c b).runtime = .failing pm)
      (hleader : pm.leaderID = (c b).broker.localBrokerID) :
      Called c b (.lead b now) (.setRole now topic partition Role.leader.text)
  | ask (f : Int) : Called c b (.ask f) (.isLeader topic partition)
  | status (f : Int) (now : Time) : Called c b (.status f now) (.status id now topic partition)
  | ack (f : Int) (seen now : Time) (state : ReplicaWorkerState) (offset : Int)
      (hacking : (c f).runtime = .stepping (.acking offset))
      (hstate : (c f).following topic partition = some state) (hleader : state.leaderID = b) :
      Called c b (.ack f seen now)
        (.ackReplica seen now topic partition state.worker.followerID offset)

/-- The watermarks that a call hands to CONSUME requests. -/
def marks (m : Manager) : Operation → List Int
  | .highWatermark now topic partition => [(highWatermark now m topic partition).2]
  | _ => []

def Managed (c : Cluster) (b : Int) (e : Event) (n : Node) : Prop :=
  n.broker.replication = (c b).broker.replication ∧ n.watermarks = (c b).watermarks ∨
    ∃ op, Called topic partition c b e op ∧
      n.broker.replication = ReplicaProgress.step (c b).broker.replication op ∧
      n.watermarks = (c b).watermarks ++ marks (c b).broker.replication op

variable {topic partition} {c : Cluster}

theorem managed_modify (h : Managed topic partition c b' e (change (c b'))) (b : Int) :
    Managed topic partition c b e (c.modify b' change b) := by
  by_cases hb : b = b'
  · rw [hb, modify_self]
    exact h
  · rw [modify_ne hb]
    exact .inl ⟨rfl, rfl⟩

/-- A broker calls the manager of another one, or of its own. -/
theorem managed_exchange {b : Int} (hmarks : ∀ m, marks m op = [])
    (hop : b = leader → Called topic partition c b e op) :
    Managed topic partition c b e
      ((c.modify leader (Node.call op)).modify f (fun n => { n with runtime := next }) b) := by
  have hcalled : Managed topic partition c b e (c.modify leader (Node.call op) b) := by
    by_cases hb : b = leader
    · rw [hb, modify_self]
      refine .inr ⟨op, hb ▸ hop hb, rfl, ?_⟩
      rw [hmarks, List.append_nil]
      rfl
    · rw [modify_ne hb]
      exact .inl ⟨rfl, rfl⟩
  by_cases hf : b = f
  · subst hf
    rw [modify_self]
    exact hcalled
  · rw [modify_ne hf]
    exact hcalled

theorem managed_turn (now : Time) (b : Int) :
    Managed topic partition c b (.turn b now) ((c b).turn topic partition now) := by
  unfold Node.turn
  split
  · rename_i pm lastOffset hlooked
    split
    · rename_i hlead
      exact .inr ⟨_, .turn now pm lastOffset .leader hlooked ⟨fun _ => hlead, fun _ => rfl⟩
        (.inl rfl), rfl, (List.append_nil _).symm⟩
    · rename_i hother
      split
      · exact .inl ⟨rfl, rfl⟩
      · rename_i hpart
        refine .inr ⟨_, .turn now pm lastOffset .follower hlooked ?_ (.inr (by omega)), rfl,
          (List.append_nil _).symm⟩
        constructor
        · intro h
          cases h
        · intro h
          exact absurd h hother
  · exact .inl ⟨rfl, rfl⟩

variable (topic partition) in
theorem managed_step (c : Cluster) (e : Event) (b : Int) :
    Managed topic partition c b e (step topic partition c e b) := by
  cases e with
  | route b' value =>
    refine managed_modify ?_ b
    unfold Node.route
    split
    · exact .inl ⟨rfl, rfl⟩
    · split <;> exact .inl ⟨rfl, rfl⟩
  | checkLeader b' i =>
    refine managed_modify ?_ b
    unfold Node.checkLeader
    split
    · exact .inr ⟨_, .checkLeader i, rfl, (List.append_nil _).symm⟩
    · exact .inl ⟨rfl, rfl⟩
  | append b' i env =>
    refine managed_modify ?_ b
    unfold Node.append
    split <;> exact .inl ⟨rfl, rfl⟩
  | report b' i now =>
    refine managed_modify ?_ b
    unfold Node.report
    split
    · rename_i offset value h
      exact .inr ⟨_, .report i now offset value h, rfl, (List.append_nil _).symm⟩
    · exact .inl ⟨rfl, rfl⟩
  | poll b' i now =>
    refine managed_modify ?_ b
    unfold Node.poll
    split
    · rename_i offset value h
      exact .inr ⟨_, .poll i now offset value h, rfl, (List.append_nil _).symm⟩
    · exact .inl ⟨rfl, rfl⟩
  | mark b' now => exact managed_modify (.inr ⟨_, .mark now, rfl, rfl⟩) b
  | control b' now cmd => exact managed_modify (.inl ⟨rfl, rfl⟩) b
  | reconcile b' =>
    refine managed_modify ?_ b
    unfold Node.reconcile
    split <;> exact .inl ⟨rfl, rfl⟩
  | look b' =>
    refine managed_modify ?_ b
    unfold Node.look
    split <;> exact .inl ⟨rfl, rfl⟩
  | turn b' now => exact managed_modify (managed_turn now b') b
  | boot b' now =>
    refine managed_modify ?_ b
    unfold Node.boot
    split
    · rename_i pm lastOffset h
      exact .inr ⟨_, .boot now pm lastOffset h, rfl, (List.append_nil _).symm⟩
    · exact .inl ⟨rfl, rfl⟩
  | settle b' =>
    refine managed_modify ?_ b
    unfold Node.settle
    split
    · split
      · exact .inl ⟨rfl, rfl⟩
      · split <;> exact .inl ⟨rfl, rfl⟩
    · exact .inl ⟨rfl, rfl⟩
  | failover b' =>
    refine managed_modify ?_ b
    unfold Node.failover
    split <;> exact .inl ⟨rfl, rfl⟩
  | lead b' now =>
    refine managed_modify ?_ b
    unfold Node.lead
    split
    · rename_i pm h
      split
      · rename_i hleader
        exact .inr ⟨_, .lead now pm h hleader, rfl, (List.append_nil _).symm⟩
      · exact .inl ⟨rfl, rfl⟩
    · exact .inl ⟨rfl, rfl⟩
  | ask f =>
    dsimp only [step]
    rcases ask_cases topic partition c f with hsame | ⟨state, next, -, -, -, heq⟩
    · rw [hsame]
      exact .inl ⟨rfl, rfl⟩
    · rw [heq]
      exact managed_exchange (fun _ => rfl) (fun _ => .ask f)
  | status f now =>
    dsimp only [step]
    rcases status_cases topic partition c f now with hsame | ⟨state, -, -, heq⟩
    · rw [hsame]
      exact .inl ⟨rfl, rfl⟩
    · rw [heq]
      exact managed_exchange (fun _ => rfl) (fun _ => .status f now)
  | reply f seq =>
    dsimp only [step]
    rcases reply_cases topic partition c f seq with hsame | ⟨state, st, -, -, heq⟩
    · rw [hsame]
      exact .inl ⟨rfl, rfl⟩
    · rw [heq]
      exact managed_modify (.inl ⟨rfl, rfl⟩) b
  | lose f =>
    refine managed_modify ?_ b
    unfold Node.lose
    split <;> exact .inl ⟨rfl, rfl⟩
  | apply f env =>
    refine managed_modify ?_ b
    unfold Node.apply
    split <;> exact .inl ⟨rfl, rfl⟩
  | ack f seen now =>
    dsimp only [step]
    rcases ack_cases topic partition c f seen now with
      hsame | ⟨state, offset, hacking, hstate, heq⟩
    · rw [hsame]
      exact .inl ⟨rfl, rfl⟩
    · rw [heq]
      exact managed_exchange (fun _ => rfl)
        (fun hb => .ack f seen now state offset hacking hstate hb.symm)

end Calls

section Requests

variable (topic : Str) (partition : Int)

inductive Staged (c : Cluster) (b : Int) : Event → Produce → Prop
  | routed (value : Str) (pm : PartitionMetadata) (hview : (c b).view topic partition = some pm)
      (hleader : pm.leaderID = (c b).broker.localBrokerID) :
      Staged c b (.route b value) (.routed value)
  | admitted (i : ℕ) (value : Str) (h : (c b).produces[i]? = some (.routed value)) :
      Staged c b (.checkLeader b i) (.admitted value)
  | stored (i : ℕ) (env : Env) (value : Str) (h : (c b).produces[i]? = some (.admitted value)) :
      Staged c b (.append b i env)
        (.stored (produceToPartition env (c b).broker.storage topic partition value).2.2 value)
  | awaiting (i : ℕ) (now : Time) (offset : Int) (value : Str)
      (h : (c b).produces[i]? = some (.stored offset value)) :
      Staged c b (.report b i now) (.awaiting offset value)

variable {topic partition} {c : Cluster} {b : Int} {p : Produce}

theorem produces_modify
    (h : ∀ p ∈ (change (c b')).produces, p ∈ (c b').produces ∨ Staged topic partition c b' e p)
    (hp : p ∈ (c.modify b' change b).produces) :
    p ∈ (c b).produces ∨ Staged topic partition c b e p := by
  by_cases hb : b = b'
  · subst hb
    rw [modify_self] at hp
    exact h p hp
  · rw [modify_ne hb] at hp
    exact .inl hp

theorem produces_exchange :
    ((c.modify leader (Node.call op)).modify f (fun n => { n with runtime := next })
      b).produces = (c b).produces := by
  have hcall : (c.modify leader (Node.call op) b).produces = (c b).produces :=
    related_modify (R := fun n n' => n'.produces = n.produces) (fun _ => rfl) rfl b
  exact (related_modify (R := fun n n' => n'.produces = n.produces) (fun _ => rfl) rfl b).trans
    hcall

/-- Requests of a broker stay where they are, or the step is one of theirs. -/
theorem mem_produces_step (hp : p ∈ (step topic partition c e b).produces) :
    p ∈ (c b).produces ∨ Staged topic partition c b e p := by
  cases e with
  | route b' value =>
    refine produces_modify (fun p hp => ?_) hp
    unfold Node.route at hp
    split at hp
    · exact .inl hp
    · rename_i pm hview
      split at hp
      · rename_i hleader
        rcases List.mem_append.mp hp with hold | hnew
        · exact .inl hold
        · rw [List.mem_singleton.mp hnew]
          exact .inr (.routed value pm hview hleader)
      · exact .inl hp
  | checkLeader b' i =>
    refine produces_modify (fun p hp => ?_) hp
    unfold Node.checkLeader at hp
    split at hp
    · rename_i value h
      dsimp only at hp
      split at hp
      · rcases List.mem_or_eq_of_mem_set hp with hold | rfl
        · exact .inl hold
        · exact .inr (.admitted i value h)
      · exact .inl (List.mem_of_mem_eraseIdx hp)
    · exact .inl hp
  | append b' i env =>
    refine produces_modify (fun p hp => ?_) hp
    unfold Node.append at hp
    split at hp
    · rename_i value h
      rcases List.mem_or_eq_of_mem_set hp with hold | rfl
      · exact .inl hold
      · exact .inr (.stored i env value h)
    · exact .inl hp
  | report b' i now =>
    refine produces_modify (fun p hp => ?_) hp
    unfold Node.report at hp
    split at hp
    · rename_i offset value h
      rcases List.mem_or_eq_of_mem_set hp with hold | rfl
      · exact .inl hold
      · exact .inr (.awaiting i now offset value h)
    · exact .inl hp
  | poll b' i now =>
    refine produces_modify (fun p hp => ?_) hp
    unfold Node.poll at hp
    split at hp
    · dsimp only at hp
      split at hp
      · exact .inl (List.mem_of_mem_eraseIdx hp)
      · exact .inl hp
    · exact .inl hp
  | mark b' now => exact produces_modify (fun p hp => .inl hp) hp
  | control b' now cmd => exact produces_modify (fun p hp => .inl hp) hp
  | reconcile b' =>
    refine produces_modify (fun p hp => .inl ?_) hp
    unfold Node.reconcile at hp
    split at hp <;> exact hp
  | look b' =>
    refine produces_modify (fun p hp => .inl ?_) hp
    unfold Node.look at hp
    split at hp <;> exact hp
  | turn b' now =>
    refine produces_modify (fun p hp => .inl ?_) hp
    unfold Node.turn at hp
    split at hp
    · split at hp
      · exact hp
      · split at hp <;> exact hp
    · exact hp
  | boot b' now =>
    refine produces_modify (fun p hp => .inl ?_) hp
    unfold Node.boot at hp
    split at hp <;> exact hp
  | settle b' =>
    refine produces_modify (fun p hp => .inl ?_) hp
    unfold Node.settle at hp
    split at hp
    · split at hp
      · exact hp
      · split at hp <;> exact hp
    · exact hp
  | failover b' =>
    refine produces_modify (fun p hp => .inl ?_) hp
    unfold Node.failover at hp
    split at hp <;> exact hp
  | lead b' now =>
    refine produces_modify (fun p hp => .inl ?_) hp
    unfold Node.lead at hp
    split at hp
    · split at hp <;> exact hp
    · exact hp
  | ask f =>
    dsimp only [step] at hp
    rcases ask_cases topic partition c f with hsame | ⟨state, next, -, -, -, heq⟩
    · rw [hsame] at hp
      exact .inl hp
    · rw [heq, produces_exchange] at hp
      exact .inl hp
  | status f now =>
    dsimp only [step] at hp
    rcases status_cases topic partition c f now with hsame | ⟨state, -, -, heq⟩
    · rw [hsame] at hp
      exact .inl hp
    · rw [heq, produces_exchange] at hp
      exact .inl hp
  | reply f seq =>
    dsimp only [step] at hp
    rcases reply_cases topic partition c f seq with hsame | ⟨state, st, -, -, heq⟩
    · rw [hsame] at hp
      exact .inl hp
    · rw [heq] at hp
      exact produces_modify (fun p hp => .inl hp) hp
  | lose f =>
    refine produces_modify (fun p hp => .inl ?_) hp
    unfold Node.lose at hp
    split at hp <;> exact hp
  | apply f env =>
    refine produces_modify (fun p hp => .inl ?_) hp
    unfold Node.apply at hp
    split at hp <;> exact hp
  | ack f seen now =>
    dsimp only [step] at hp
    rcases ack_cases topic partition c f seen now with hsame | ⟨state, offset, -, -, heq⟩
    · rw [hsame] at hp
      exact .inl hp
    · rw [heq, produces_exchange] at hp
      exact .inl hp

end Requests

end Flux.ClusterCalls
