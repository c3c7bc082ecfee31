import Flux.BrokerRuns
import Flux.ReplicaProgress
import Mathlib.Data.List.Perm.Subperm

/-!
What an answer to `acks=all` promises. Whenever `WaitForAckAll` returns without an
error, whatever other goroutines call between its polls, the offset is held by as
many replicas as the configuration asks for, and it stays so.
-/
namespace Flux.AckQuorum

open GoRuntime GoStrings FiniteMap ReplicationManager Runs ReplicaProgress Interleavings BrokerNode

variable {ps : PartitionState} {order : List Int → List Int} {target partition : Int} {now : Time}
  {topic : Str} {cfg : ReplicationConfig} {b b' : Broker}

def reaches (ps : PartitionState) (target id : Int) : Bool :=
  (ps.followers.get id).any (fun r => decide (target ≤ r.offset))

def replicasAt (ps : PartitionState) (target : Int) : ℕ :=
  (if target ≤ ps.leaderOffset then 1 else 0) +
    (ps.followers.keys.filter (reaches ps target)).length

theorem reaches_iff (ps : PartitionState) (target id : Int) :
    reaches ps target id = true ↔ ∃ r, ps.followers.get id = some r ∧ target ≤ r.offset := by
  simp [reaches, Option.any_eq_true]

/-- Replicas that have come to an offset stay there. -/
theorem replicasAt_mono {ps' : PartitionState} (h : Advanced ps ps') (target : Int) :
    replicasAt ps target ≤ replicasAt ps' target := by
  have hfollowers : (ps.followers.keys.filter (reaches ps target)).length ≤
      (ps'.followers.keys.filter (reaches ps' target)).length := by
    refine (List.subperm_of_subset (ps.followers.keys_nodup.filter _) (fun id hid => ?_)).length_le
    obtain ⟨r, hr, hle⟩ := (reaches_iff ps target id).mp (List.mem_filter.mp hid).2
    obtain ⟨r', hr', hle'⟩ := h.follower id r hr
    refine List.mem_filter.mpr ⟨(FMap.mem_keys_iff _ _).mpr ⟨r', hr'⟩, ?_⟩
    exact (reaches_iff ps' target id).mpr ⟨r', hr', Int.le_trans hle hle'⟩
  have hleader := h.leader
  unfold replicasAt
  split
  · split
    · omega
    · omega
  · omega

theorem chosen_le_reaching (horder : ∀ keys, (order keys).Perm keys) {chosen : Int → Bool}
    (h : ∀ id, chosen id = true → reaches ps target id = true) :
    ((order ps.followers.keys).filter chosen).length ≤
      (ps.followers.keys.filter (reaches ps target)).length := by
  rw [((horder ps.followers.keys).filter chosen).length_eq]
  have hfewer := List.countP_mono_left (l := ps.followers.keys) (fun id _ => h id)
  rwa [List.countP_eq_length_filter, List.countP_eq_length_filter] at hfewer

/-- Where the watermark of a sound partition is at the target, the replicas in
sync all hold it. -/
theorem status_quorum (horder : ∀ keys, (order keys).Perm keys) (m : Manager) (topic : Str)
    (partition : Int) (hps : Sound ps) (now : Time) (htarget : target ≤ ps.highWatermark) :
    (statusOf order m topic partition ps now).inSyncReplicas.length ≤ replicasAt ps target := by
  unfold replicasAt
  rw [if_pos (Int.le_trans htarget hps.le_leader)]
  dsimp only [statusOf]
  rw [List.length_cons, Nat.add_comm]
  refine Nat.add_le_add_left (chosen_le_reaching horder (fun id hid => ?_)) 1
  split at hid
  · cases hid
  · rename_i r hr
    have hsync := (Bool.and_eq_true_iff.mp hid).1
    have hle : ps.highWatermark ≤ r.offset := hps.watermark.2 (.inr ⟨id, r, hr, hsync, rfl⟩)
    exact (reaches_iff ps target id).mpr ⟨r, hr, Int.le_trans htarget hle⟩

/-- A poll that ends the wait has counted replicas that all hold the offset. -/
theorem poll_quorum (horder : ∀ keys, (order keys).Perm keys) {m : Manager}
    (hsound : Sound (partitionOf (pollAckAll order now m topic partition target).1 topic partition))
    (hpoll : (pollAckAll order now m topic partition target).2 = true) :
    m.cfg.minInSyncReplicas ≤
      replicasAt (partitionOf (pollAckAll order now m topic partition target).1 topic partition)
        target := by
  have hps : partitionOf (pollAckAll order now m topic partition target).1 topic partition =
      recompute m.cfg now (partitionOf m topic partition) := partitionOf_setPartition_self ..
  rw [hps] at hsound ⊢
  obtain ⟨hmark, hsize⟩ := Bool.and_eq_true_iff.mp hpoll
  have hall := status_quorum horder m topic partition hsound now (of_decide_eq_true hmark)
  have hmin := of_decide_eq_true hsize
  dsimp only [refresh] at hmin
  omega

/-- The states of brokers whose manager has only been called. -/
def Reached (cfg : ReplicationConfig) (b : Broker) : Prop :=
  ∃ ops, b.replication = run step (newManager cfg) ops

/-- Another goroutine calls the manager, or another component of the broker. -/
def Others (b b' : Broker) : Prop :=
  b'.replication = b.replication ∨ ∃ op, b'.replication = step b.replication op

theorem Reached.step (h : Reached cfg b) {op : Operation}
    (hstep : b'.replication = step b.replication op) : Reached cfg b' := by
  obtain ⟨ops, hops⟩ := h
  refine ⟨ops ++ [op], ?_⟩
  rw [run_append, ← hops, hstep]
  rfl

theorem reached_others (b b' : Broker) (h : Others b b') (hb : Reached cfg b) : Reached cfg b' := by
  rcases h with hsame | ⟨op, hstep⟩
  · obtain ⟨ops, hops⟩ := hb
    exact ⟨ops, hsame.trans hops⟩
  · exact hb.step hstep

/-- The quorum holds the offset. -/
def Held (topic : Str) (partition target : Int) (b : Broker) : Prop :=
  b.replication.cfg.minInSyncReplicas ≤
    replicasAt (partitionOf b.replication topic partition) target

theorem held_others (b b' : Broker) (h : Others b b') (hb : Held topic partition target b) :
    Held topic partition target b' := by
  unfold Held at hb ⊢
  rcases h with hsame | ⟨op, hstep⟩
  · rw [hsame]
    exact hb
  · have hmono := replicasAt_mono
      (step_moves b.replication op topic partition).advanced target
    rw [hstep, step_cfg]
    omega

section Wait

variable {cfg : ReplicationConfig} {topic : Str} {partition target : Int}

/-- One poll amid the calls of others: it leaves a reached state, and if it ends the
wait, the quorum holds the offset from then on. -/
theorem amid_poll (horder : ∀ keys, (order keys).Perm keys) {committed : Bool}
    (hb : Reached cfg b)
    (h : Program.Amid Others
      (onReplication (fun m => pollAckAll order now m topic partition target)) b b' committed) :
    Reached cfg b' ∧ (committed = true → Held topic partition target b') := by
  obtain ⟨t, hbefore, hafter, rfl⟩ := Program.amid_modify h
  have ht := Program.stable reached_others hbefore hb
  have hpolled : Reached cfg { t with
      replication := (pollAckAll order now t.replication topic partition target).1 } :=
    ht.step (show _ = step _ (.pollAckAll order now topic partition target) from rfl)
  refine ⟨Program.stable reached_others hafter hpolled, fun hcommitted => ?_⟩
  refine Program.stable held_others hafter ?_
  obtain ⟨ops, hops⟩ := hpolled
  have hrun : (pollAckAll order now t.replication topic partition target).1 =
      run step (newManager cfg) ops := hops
  have hcfg := step_cfg t.replication (.pollAckAll order now topic partition target)
  have hquorum := poll_quorum horder (hrun ▸ run_sound cfg ops topic partition) hcommitted
  unfold Held
  dsimp only [step] at hcfg ⊢
  rw [hcfg]
  exact hquorum

/-- When a wait for `acks=all` ends without an error, the quorum holds the offset. -/
theorem ackAll_quorum (env : Surroundings) {polls : List Time} {b b' : Broker}
    (hb : Reached cfg b)
    (h : Program.Amid Others (waitForAckAll env topic partition target polls) b b' (.ok ())) :
    Held topic partition target b' := by
  induction polls generalizing b with
  | nil =>
    obtain ⟨t, committed, hpoll, hend⟩ := Program.amid_bind h
    obtain ⟨-, hheld⟩ := amid_poll env.order_perm hb hpoll
    cases committed with
    | true => exact Program.stable held_others hend.1 (hheld rfl)
    | false => cases hend.2
  | cons now rest ih =>
    obtain ⟨t, committed, hpoll, hend⟩ := Program.amid_bind h
    obtain ⟨ht, hheld⟩ := amid_poll env.order_perm hb hpoll
    cases committed with
    | true => exact Program.stable held_others hend.1 (hheld rfl)
    | false => exact ih ht hend

end Wait

def written : Broker :=
  { BrokerRuns.aloneBroker with
    replication := run step (newManager trio) [.onLeaderAppend 0 (lit "orders") 0 0] }

def polled (b : Broker) : Broker :=
  { b with
    replication := (pollAckAll BrokerRuns.quiet.order 0 b.replication (lit "orders") 0 0).1 }

def called (b : Broker) (op : Operation) : Broker :=
  { b with replication := step b.replication op }

theorem others_called (b : Broker) (op : Operation) : Others b (called b op) := .inr ⟨op, rfl⟩

/-- The first poll is in vain; replica 2 acknowledges the record, the second poll ends the
wait, and the leader appends again before it returns. -/
theorem ackAll_quorum_acked :
    let acked := called (polled written) (.ackReplica 0 0 (lit "orders") 0 2 0)
    Held (lit "orders") 0 0 (called (polled acked) (.onLeaderAppend 0 (lit "orders") 0 1)) := by
  intro acked
  have hvain : (pollAckAll BrokerRuns.quiet.order 0 written.replication (lit "orders") 0 0).2 =
      false := by decide
  have hends : (pollAckAll BrokerRuns.quiet.order 0 acked.replication (lit "orders") 0 0).2 =
      true := by decide
  have hreached : Reached trio written := ⟨_, rfl⟩
  have hwait : Program.Amid Others (waitForAckAll BrokerRuns.quiet (lit "orders") 0 0 [0]) written
      (called (polled acked) (.onLeaderAppend 0 (lit "orders") 0 1)) (.ok ()) :=
    ⟨written, polled written, false, .refl,
      congrArg (fun c => Except.ok (polled written, c)) hvain,
      acked, polled acked, true, .single (others_called _ _),
      congrArg (fun c => Except.ok (polled acked, c)) hends, .single (others_called _ _), rfl⟩
  exact ackAll_quorum BrokerRuns.quiet hreached hwait

end Flux.AckQuorum
