import Flux.ReplicaProgress

/-!
The high watermark that a follower reports. `SetRole` resets it and
`BootstrapOffset` sets it, but every call then computes it anew from the offsets
that the partition has as a leader, so what a follower reports is the offset it
was bootstrapped with only if it comes to its role with nothing of its own.
-/
namespace Flux.FollowerWatermarks

open GoRuntime GoStrings FiniteMap ReplicationManager ReplicaProgress Runs

def place : Operation → Str × Int
  | .onLeaderAppend _ topic partition _ => (topic, partition)
  | .ackReplica _ _ topic partition _ _ => (topic, partition)
  | .pollAckAll _ _ topic partition _ => (topic, partition)
  | .highWatermark _ topic partition => (topic, partition)
  | .isLeader topic partition => (topic, partition)
  | .setRole _ topic partition _ => (topic, partition)
  | .bootstrapOffset _ topic partition _ => (topic, partition)
  | .status _ _ topic partition => (topic, partition)

def Unheard (ps : PartitionState) : Prop :=
  ∀ id r, ps.followers.get id = some r → r.lastSeen = zeroTime

section Partition

variable {m : Manager} {topic : Str} {partition : Int}

/-- A call changes no partition but the one it names. -/
theorem step_other {op : Operation} (h : (topic, partition) ≠ place op) :
    partitionOf (step m op) topic partition = partitionOf m topic partition := by
  cases op with
  | onLeaderAppend now topic' partition' offset =>
    dsimp only [step, onLeaderAppend]
    split
    · exact partitionOf_setPartition_ne m _ _ _ h
    · exact partitionOf_setPartition_ne m _ _ _ h
  | ackReplica seen now topic' partition' replicaID offset =>
    dsimp only [step, ackReplica]
    split
    · rfl
    · split
      · exact partitionOf_setPartition_ne m _ _ _ h
      · split
        · exact partitionOf_setPartition_ne m _ _ _ h
        · exact partitionOf_setPartition_ne m _ _ _ h
  | pollAckAll order now topic' partition' targetOffset =>
    exact partitionOf_setPartition_ne m _ _ _ h
  | highWatermark now topic' partition' => exact partitionOf_setPartition_ne m _ _ _ h
  | isLeader topic' partition' => exact partitionOf_setPartition_ne m _ _ _ h
  | setRole now topic' partition' role =>
    dsimp only [step, setRole]
    split
    · rfl
    · exact partitionOf_setPartition_ne m _ _ _ h
  | bootstrapOffset now topic' partition' offset => exact partitionOf_setPartition_ne m _ _ _ h
  | status order now topic' partition' => exact partitionOf_setPartition_ne m _ _ _ h

variable {cfg : ReplicationConfig} {now : Time} {ps : PartitionState}

theorem unheard_mapValues (h : Unheard ps) {f : Int → ReplicaState → ReplicaState}
    {ps' : PartitionState} (hps' : ps'.followers = ps.followers.mapValues f)
    (hf : ∀ id r, (f id r).lastSeen = r.lastSeen) : Unheard ps' := by
  intro id r' hr'
  rw [hps', FMap.get_mapValues] at hr'
  obtain ⟨r, hr, rfl⟩ := Option.map_eq_some_iff.mp hr'
  rw [hf]
  exact h id r hr

theorem unheard_recompute (h : Unheard ps) : Unheard (recompute cfg now ps) :=
  unheard_mapValues h rfl (fun _ _ => rfl)

theorem unheard_turned (h : Unheard ps) (role : Role) : Unheard (ps.turned role) := by
  cases role with
  | leader => exact h
  | follower => exact unheard_mapValues h rfl (fun _ _ => rfl)

/-- Without a replica in sync the watermark is the offset of the leader. -/
theorem recompute_unheard (cfg : ReplicationConfig) (now : Time) (h : Unheard ps)
    (hlow : -1 ≤ ps.leaderOffset) :
    (recompute cfg now ps).highWatermark = ps.leaderOffset := by
  have hnone : inSyncOffsets (recompute cfg now ps).followers = [] := by
    rw [List.eq_nil_iff_forall_not_mem]
    intro o ho
    obtain ⟨id, r', hr', hsync, -⟩ := (mem_inSyncOffsets _ o).mp ho
    dsimp only [recompute] at hr'
    rw [FMap.get_mapValues] at hr'
    obtain ⟨r, hr, rfl⟩ := Option.map_eq_some_iff.mp hr'
    have hseen := h id r hr
    simp [inSyncNow, fresh, hseen] at hsync
  show max (-1) ((inSyncOffsets (recompute cfg now ps).followers).foldl min ps.leaderOffset) = _
  rw [hnone, List.foldl_nil]
  omega

end Partition

section Runs

variable (topic : Str) (partition : Int)

def bootstrapped (m : Manager) (mark : Int) : Operation → Int
  | .setRole _ topic' partition' role =>
      if (topic, partition) = (topic', partition') ∧ readRole role = some .follower ∧
        (partitionOf m topic partition).role = .leader then -1 else mark
  | .bootstrapOffset _ topic' partition' offset =>
      if (topic, partition) = (topic', partition') ∧
        (partitionOf m topic partition).role = .follower then offset else mark
  | _ => mark

abbrev Tracked := Manager × Int

def track (s : Tracked) (op : Operation) : Tracked :=
  (step s.1 op, bootstrapped topic partition s.1 s.2 op)

/-- What the calls report for the partition as a follower. -/
def Reports (s : Tracked) : Prop :=
  (partitionOf s.1 topic partition).role = .follower → ∀ now order,
    (highWatermark now s.1 topic partition).2 = s.2 ∧
      (status order now s.1 topic partition).2.highWatermark = s.2

/-- The partition becomes a follower with no offset of its own and no replica that
has acknowledged, and as a follower it is never bootstrapped behind its offset. -/
def Steady (s : Tracked) : Operation → Prop
  | .setRole _ topic' partition' role =>
      (topic, partition) = (topic', partition') → readRole role = some .follower →
        (partitionOf s.1 topic partition).role = .leader →
          (partitionOf s.1 topic partition).leaderOffset = -1 ∧
            Unheard (partitionOf s.1 topic partition)
  | .bootstrapOffset _ topic' partition' offset =>
      (topic, partition) = (topic', partition') →
        (partitionOf s.1 topic partition).role = .follower →
          (partitionOf s.1 topic partition).leaderOffset ≤ offset
  | _ => True

def Seeded (ps : PartitionState) (mark : Int) : Prop :=
  ps.role = .follower → ps.leaderOffset = mark ∧ -1 ≤ mark ∧ Unheard ps

variable {topic partition}

theorem seeded_recompute {ps : PartitionState} {mark : Int} (h : Seeded ps mark)
    (cfg : ReplicationConfig) (now : Time) : Seeded (recompute cfg now ps) mark := by
  intro hrole
  obtain ⟨hoffset, hlow, hunheard⟩ := h hrole
  exact ⟨hoffset, hlow, unheard_recompute hunheard⟩

theorem seeded_of_leader {ps : PartitionState} (h : ps.role = .leader) (mark : Int) :
    Seeded ps mark := by
  intro hrole
  rw [h] at hrole
  cases hrole

/-- A call that meets the condition keeps the partition seeded. -/
theorem seeded_here {m : Manager} {mark : Int} {op : Operation}
    (hplace : (topic, partition) = place op)
    (h : Seeded (partitionOf m topic partition) mark) (hop : Steady topic partition (m, mark) op) :
    Seeded (partitionOf (step m op) topic partition) (bootstrapped topic partition m mark op) := by
  cases op with
  | onLeaderAppend now topic' partition' offset =>
    cases hplace
    dsimp only [step, onLeaderAppend]
    split
    · rw [partitionOf_setPartition_self]
      exact h
    · rename_i hleader
      rw [partitionOf_setPartition_self]
      refine seeded_of_leader ?_ mark
      exact hleader
  | ackReplica seen now topic' partition' replicaID offset =>
    cases hplace
    dsimp only [step, ackReplica]
    split
    · exact h
    · split
      · rw [partitionOf_setPartition_self]
        exact h
      · rename_i hleader
        split
        · rw [partitionOf_setPartition_self]
          exact h
        · rw [partitionOf_setPartition_self]
          refine seeded_of_leader ?_ mark
          exact hleader
  | pollAckAll order now topic' partition' targetOffset =>
    cases hplace
    dsimp only [step, pollAckAll, refresh]
    rw [partitionOf_setPartition_self]
    exact seeded_recompute h _ _
  | highWatermark now topic' partition' =>
    cases hplace
    dsimp only [step, highWatermark, refresh]
    rw [partitionOf_setPartition_self]
    exact seeded_recompute h _ _
  | isLeader topic' partition' =>
    cases hplace
    dsimp only [step, isLeader]
    rw [partitionOf_setPartition_self]
    exact h
  | status order now topic' partition' =>
    cases hplace
    dsimp only [step, status, refresh]
    rw [partitionOf_setPartition_self]
    exact seeded_recompute h _ _
  | setRole now topic' partition' role =>
    cases hplace
    dsimp only [step, setRole, bootstrapped]
    cases hread : readRole role with
    | none =>
      rw [if_neg (by simp)]
      exact h
    | some role' =>
      rw [partitionOf_setPartition_self]
      cases role' with
      | leader => exact seeded_of_leader rfl _
      | follower =>
        refine seeded_recompute ?_ _ _
        intro _
        cases hrole : (partitionOf m topic partition).role with
        | leader =>
          obtain ⟨hoffset, hunheard⟩ := hop rfl hread hrole
          rw [if_pos ⟨rfl, rfl, rfl⟩]
          exact ⟨hoffset, Int.le_refl _, unheard_turned hunheard _⟩
        | follower =>
          obtain ⟨hoffset, hlow, hunheard⟩ := h hrole
          rw [if_neg (by simp)]
          exact ⟨hoffset, hlow, unheard_turned hunheard _⟩
  | bootstrapOffset now topic' partition' offset =>
    cases hplace
    dsimp only [step, bootstrapOffset, bootstrapped]
    rw [partitionOf_setPartition_self]
    refine seeded_recompute ?_ _ _
    cases hrole : (partitionOf m topic partition).role with
    | leader => exact seeded_of_leader rfl _
    | follower =>
      obtain ⟨hoffset, hlow, hunheard⟩ := h hrole
      have hahead := hop rfl hrole
      have hhere : (topic, partition) = (topic, partition) ∧ Role.follower = Role.follower :=
        ⟨rfl, rfl⟩
      intro _
      rw [if_pos hhere]
      dsimp only at hahead ⊢
      refine ⟨?_, by omega, hunheard⟩
      split <;> omega

theorem seeded_step (s : Tracked) (op : Operation)
    (h : Seeded (partitionOf s.1 topic partition) s.2) (hop : Steady topic partition s op) :
    Seeded (partitionOf (track topic partition s op).1 topic partition)
      (track topic partition s op).2 := by
  by_cases hplace : (topic, partition) = place op
  · exact seeded_here hplace h hop
  · have hmark : bootstrapped topic partition s.1 s.2 op = s.2 := by
      cases op with
      | setRole now topic' partition' role => exact if_neg (fun hcond => hplace hcond.1)
      | bootstrapOffset now topic' partition' offset =>
        exact if_neg (fun hcond => hplace hcond.1)
      | _ => rfl
    simp only [track, hmark, step_other hplace]
    exact h

theorem reports_of_seeded {s : Tracked} (h : Seeded (partitionOf s.1 topic partition) s.2) :
    Reports topic partition s := by
  intro hrole now order
  obtain ⟨hoffset, hlow, hunheard⟩ := h hrole
  have hmark := recompute_unheard s.1.cfg now hunheard (by omega)
  exact ⟨hmark.trans hoffset, hmark.trans hoffset⟩

variable (topic partition)

/-- In every run in which the partition becomes a follower with nothing of its own and
is not bootstrapped backwards, a follower reports what it was bootstrapped with. -/
theorem follower_reports_bootstrap (cfg : ReplicationConfig) (ops : List Operation)
    (h : Valid (track topic partition) (Steady topic partition) (newManager cfg, -1) ops) :
    Reports topic partition (run (track topic partition) (newManager cfg, -1) ops) := by
  have hstart : Seeded (partitionOf (newManager cfg) topic partition) (-1) :=
    seeded_of_leader rfl (-1)
  have hrun : Seeded (partitionOf (run (track topic partition) (newManager cfg, -1) ops).1
      topic partition) (run (track topic partition) (newManager cfg, -1) ops).2 :=
    run_invariant (I := fun s => Seeded (partitionOf s.1 topic partition) s.2) seeded_step hstart h
  exact reports_of_seeded hrun

end Runs

def tolerant : ReplicationConfig := { trio with maxReplicaLag := 5 }

theorem unheard_newManager (cfg : ReplicationConfig) (topic : Str) (partition : Int) :
    Unheard (partitionOf (newManager cfg) topic partition) := by
  intro id r hr
  rw [partitionOf_newManager, newPartition, get_newFollowers] at hr
  split at hr
  · cases hr
    rfl
  · cases hr

def promoted : List Operation :=
  [.setRole 0 (lit "orders") 0 (lit "follower"), .bootstrapOffset 1 (lit "orders") 0 3,
    .bootstrapOffset 2 (lit "orders") 0 7]

theorem follower_reports_bootstrap_twice :
    (partitionOf (run (track (lit "orders") 0) (newManager tolerant, -1) promoted).1
      (lit "orders") 0).role = .follower ∧
    Reports (lit "orders") 0 (run (track (lit "orders") 0) (newManager tolerant, -1) promoted) := by
  have hvalid : Valid (track (lit "orders") 0) (Steady (lit "orders") 0) (newManager tolerant, -1)
      promoted := by
    refine ⟨fun _ _ _ => ⟨rfl, unheard_newManager tolerant _ _⟩, fun _ _ => ?_, fun _ _ => ?_,
      trivial⟩
    · decide
    · decide
  exact ⟨by decide, follower_reports_bootstrap (lit "orders") 0 tolerant promoted hvalid⟩

/-- A leader that has appended up to offset 5 becomes a follower: it reports 5, before and
after it is bootstrapped with 3. -/
theorem demoted_leader_keeps_watermark :
    let demoted := run (track (lit "orders") 0) (newManager tolerant, -1)
      [.onLeaderAppend 0 (lit "orders") 0 5, .setRole 1 (lit "orders") 0 (lit "follower")]
    let seeded := track (lit "orders") 0 demoted (.bootstrapOffset 2 (lit "orders") 0 3)
    (demoted.2 = -1 ∧ (highWatermark 3 demoted.1 (lit "orders") 0).2 = 5) ∧
      (seeded.2 = 3 ∧ (highWatermark 3 seeded.1 (lit "orders") 0).2 = 5) ∧
      ¬ Reports (lit "orders") 0 demoted ∧ ¬ Reports (lit "orders") 0 seeded := by
  refine ⟨by decide, by decide, fun h => ?_, fun h => ?_⟩
  · exact absurd (h (by decide) 3 id).1 (by decide)
  · exact absurd (h (by decide) 3 id).1 (by decide)

end Flux.FollowerWatermarks
