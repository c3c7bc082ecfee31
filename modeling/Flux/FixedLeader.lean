import Flux.ClusterCalls
import Flux.ClusterLogs
import Flux.RuntimeSteps

/-!
A partition whose leader does not change. Whatever a broker reads in its metadata
names the same leader or none. If answers to BROKER_FETCH are composed only while
the leader's manager knows of every record that the leader has stored, then no other
broker has a record that the manager does not know of.
-/
namespace Flux.FixedLeader

open GoStrings FiniteMap BrokerNode ClusterMetadata MemoryLogs ReplicaCluster
open ClusterSteps ClusterCalls ClusterLogs RuntimeSteps
open PartitionStorage (Message)

section Partition

variable (topic : Str) (partition leader : Int) {n : Node} {b : Int} {state : ReplicaWorkerState}

def known (n : Node) : List Message :=
  (n.log topic partition).take ((n.progress topic partition).leaderOffset + 1).toNat

def Event.viewer : Event → Option Int
  | .route b _ => some b
  | .reconcile b => some b
  | .failover b => some b
  | _ => none

def Appoints (b : Int) (pm : PartitionMetadata) : Prop :=
  pm.leaderID = leader ∨ pm.leaderID < 0 ∧ pm.leaderID ≠ b

def Appointed (c : Cluster) (e : Event) : Prop :=
  ∀ b ∈ Event.viewer e, ∀ pm ∈ (c b).view topic partition, Appoints leader b pm

def Reported (c : Cluster) (e : Event) : Prop :=
  ∀ _ ∈ Event.answer e, (((c leader).log topic partition).length : Int) ≤
    ((c leader).progress topic partition).leaderOffset + 1

/-- The conditions under which followers have known records only. -/
structure Faithful (c : Cluster) (e : Event) : Prop where
  appointed : Appointed topic partition leader c e
  retains : Retains topic partition c e
  legible : Legible topic partition c e
  reported : Reported topic partition leader c e

section Decidable

variable (c : Cluster) (e : Event)

instance (b : Int) (pm : PartitionMetadata) : Decidable (Appoints leader b pm) :=
  inferInstanceAs (Decidable (_ ∨ _))

instance : Decidable (Appointed topic partition leader c e) :=
  inferInstanceAs (Decidable (∀ _ ∈ _, ∀ _ ∈ _, _))

instance : Decidable (Reported topic partition leader c e) :=
  inferInstanceAs (Decidable (∀ _ ∈ _, _))

instance : Decidable (Faithful topic partition leader c e) :=
  decidable_of_iff (Appointed topic partition leader c e ∧ Retains topic partition c e ∧
      Legible topic partition c e ∧ Reported topic partition leader c e)
    ⟨fun h => ⟨h.1, h.2.1, h.2.2.1, h.2.2.2⟩,
      fun h => ⟨h.appointed, h.retains, h.legible, h.reported⟩⟩

end Decidable

/-- What a turn of `reconcileRoles` has read so far is still true. -/
def Planned (b : Int) (n : Node) : Activity → Prop
  | .snapped pm => Appoints leader b pm
  | .looked pm lastOffset =>
      Appoints leader b pm ∧ (b ≠ leader → lastOffset + 1 = (n.log topic partition).length)
  | .turned pm lastOffset =>
      pm.leaderID = leader ∧ (b ≠ leader → lastOffset + 1 = (n.log topic partition).length)
  | .booted pm lastOffset =>
      pm.leaderID = leader ∧ (b ≠ leader → lastOffset + 1 = (n.log topic partition).length)
  | .failing pm => Appoints leader b pm
  | _ => True

structure Led (c : Cluster) : Prop where
  whole : ∀ b, Whole (c b).broker.storage topic partition
  id : ∀ b, (c b).broker.localBrokerID = b
  requests : ∀ b, b ≠ leader → (c b).produces = []
  planned : ∀ b, Planned topic partition leader b (c b) (c b).runtime
  hired : ∀ b state, (c b).following topic partition = some state →
    b ≠ leader ∧ state.leaderID = leader
  linked : ∀ b state, (c b).following topic partition = some state →
    Linked topic partition (fun _ => known topic partition (c leader)) (c b) state
  behind : ∀ b, b ≠ leader → (c b).log topic partition <+: known topic partition (c leader)

variable {topic partition leader} {c : Cluster} {e : Event}

theorem Started.led (hstart : Started topic partition c) : Led topic partition leader c where
  whole := whole_started hstart
  id := hstart.id
  requests b _ := hstart.produces b
  planned b := by
    rw [hstart.runtime b]
    trivial
  hired b state hstate := by
    rw [hstart.workers b] at hstate
    cases hstate
  linked b state hstate := by
    rw [hstart.workers b] at hstate
    cases hstate
  behind b _ := by
    rw [log_started hstart b]
    exact List.nil_prefix

variable (topic partition) in
theorem known_isPrefix (n : Node) : known topic partition n <+: n.log topic partition :=
  List.take_prefix ..

/-- Where everything is reported, everything is known. -/
theorem known_reported
    (h : ((n.log topic partition).length : Int) ≤ (n.progress topic partition).leaderOffset + 1) :
    known topic partition n = n.log topic partition :=
  List.take_of_length_le (by omega)

variable (topic partition) in
theorem leaderOffset_step (c : Cluster) (e : Event) (b : Int) :
    ((c b).progress topic partition).leaderOffset ≤
      ((step topic partition c e b).progress topic partition).leaderOffset := by
  unfold Node.progress
  rcases managed_step topic partition c e b with ⟨hsame, -⟩ | ⟨op, -, hop, -⟩
  · rw [hsame]
  · rw [hop]
    exact (ReplicaProgress.step_moves _ op topic partition).advanced.leader

section Linked

variable (h : Led topic partition leader c)

include h

theorem Led.extends (hretains : Retains topic partition c e) (b : Int) :
    Whole (step topic partition c e b).broker.storage topic partition ∧
      (c b).log topic partition <+: (step topic partition c e b).log topic partition :=
  extends_step (h.linked b) (h.whole b) hretains

theorem Led.known_step (hretains : Retains topic partition c e) :
    known topic partition (c leader) <+:
      known topic partition (step topic partition c e leader) := by
  have hoffset := leaderOffset_step topic partition c e leader
  exact ((h.extends hretains leader).2.take _).trans (List.take_prefix_take_left (by omega))

/-- A broker other than the leader has no requests that could store records. -/
theorem Led.append_quiet (hb : b ≠ leader) (i : ℕ) (env : PartitionStorage.Env) :
    (c b).append topic partition i env = c b := by
  unfold Node.append
  rw [h.requests b hb]
  rfl

theorem Led.requests_step (happointed : Appointed topic partition leader c e) (hb : b ≠ leader) :
    (step topic partition c e b).produces = [] := by
  refine List.eq_nil_iff_forall_not_mem.mpr (fun p hp => ?_)
  have hnone := h.requests b hb
  rcases mem_produces_step hp with hin | hstaged
  · rw [hnone] at hin
    cases hin
  · cases hstaged with
    | routed value pm hview hleader =>
      rw [h.id b] at hleader
      rcases happointed b rfl pm hview with heq | ⟨-, hne⟩
      · exact hb (hleader.symm.trans heq)
      · exact hne hleader
    | admitted i value hget => simp [hnone] at hget
    | stored i env value hget => simp [hnone] at hget
    | awaiting i now offset value hget => simp [hnone] at hget

end Linked

theorem planned_ofCycle (cycle : FollowerWorkers.Cycle) :
    Planned topic partition leader b n (.ofCycle cycle) := by
  cases cycle <;> trivial

section Led

variable (h : Led topic partition leader c)

include h

/-- The steps of `reconcileRoles` use what is still true. -/
theorem Led.planned_step (happointed : Appointed topic partition leader c e) (b : Int) :
    Planned topic partition leader b (step topic partition c e b)
      (step topic partition c e b).runtime := by
  have hplan := h.planned b
  have hlog : b ≠ leader → (c b).runtime.cycle = .idle →
      (step topic partition c e b).log topic partition = (c b).log topic partition := by
    intro hb hidle
    unfold Node.log
    rw [storage_idle (h.requests b hb) hidle]
  have hlength : ∀ lastOffset : Int, (c b).runtime.cycle = .idle →
      (b ≠ leader → lastOffset + 1 = ((c b).log topic partition).length) →
      (b ≠ leader → lastOffset + 1 =
        ((step topic partition c e b).log topic partition).length) := by
    intro lastOffset hidle hlast hb
    rw [hlog hb hidle]
    exact hlast hb
  rcases moved_step topic partition c b e with hsame | hmoved
  · rw [hsame]
    generalize hrun : (c b).runtime = activity at hplan hlength ⊢
    cases activity with
    | looked pm lastOffset => exact ⟨hplan.1, hlength lastOffset rfl hplan.2⟩
    | turned pm lastOffset => exact ⟨hplan.1, hlength lastOffset rfl hplan.2⟩
    | booted pm lastOffset => exact ⟨hplan.1, hlength lastOffset rfl hplan.2⟩
    | snapped pm => exact hplan
    | failing pm => exact hplan
    | idle => trivial
    | granted => trivial
    | asked st => trivial
    | stepping cycle => trivial
  · generalize step topic partition c e b = n at hmoved hlength ⊢
    generalize hrun : n.runtime = activity at hmoved ⊢
    cases hmoved with
    | reconcile pm hidle hview => exact happointed b rfl pm hview
    | look pm hsnapped =>
      rw [hsnapped] at hplan
      refine ⟨hplan, hlength _ (by rw [hsnapped]; rfl) (fun _ => ?_)⟩
      exact FollowerWorkers.lastOffset_whole (h.whole b)
    | turn now pm lastOffset hlooked hpart =>
      rw [hlooked] at hplan
      refine ⟨?_, hlength _ (by rw [hlooked]; rfl) hplan.2⟩
      rw [h.id b] at hpart
      rcases hplan.1 with heq | ⟨hneg, hne⟩
      · exact heq
      · omega
    | boot now pm lastOffset hturned =>
      rw [hturned] at hplan
      exact ⟨hplan.1, hlength _ (by rw [hturned]; rfl) hplan.2⟩
    | failover pm hidle hview => exact happointed b rfl pm hview
    | reply seq state st hasked hstate => exact planned_ofCycle _
    | apply env record rest state happlying hstate => exact planned_ofCycle _
    | ask hidle => trivial
    | status now state hgranted hstate => trivial
    | ack seen now state offset hacking hstate => trivial
    | lose => trivial
    | idle e hidle => trivial

/-- Workers follow the leader, and the leader has none. -/
theorem Led.hired_step
    (hstate : (step topic partition c e b).following topic partition = some state) :
    b ≠ leader ∧ state.leaderID = leader := by
  rcases following_step hstate with ⟨state', hstate', heq⟩ | ⟨pm, lastOffset, -, hbooted, hhired⟩
  · obtain ⟨hb, hleader⟩ := h.hired b state' hstate'
    exact ⟨hb, heq ▸ hleader⟩
  · have hplan := h.planned b
    rw [hbooted] at hplan
    have hother := hhired.other
    rw [h.id b] at hother
    exact ⟨fun heq => hother (hplan.1.trans heq.symm), hhired.leader.trans hplan.1⟩

/-- A worker of the leader stays linked to its log. -/
theorem Led.linked_step (hfaithful : Faithful topic partition leader c e)
    (hstate : (step topic partition c e b).following topic partition = some state) :
    Linked topic partition (fun _ => known topic partition (step topic partition c e leader))
      (step topic partition c e b) state := by
  have hgrow := h.known_step hfaithful.retains
  refine ClusterLogs.linked_step (fun state hstate => (h.linked b state hstate).grow
    (fun _ => hgrow)) (h.whole b) hfaithful.retains hfaithful.legible ?_ ?_ ?_ hstate
  · rintro seq rfl state hstate
    rw [(h.hired b state hstate).2, ← known_reported (hfaithful.reported (b, seq) rfl)]
    exact hgrow
  · rintro i env rfl state hstate
    exact h.append_quiet (h.hired b state hstate).1 i env
  · rintro rfl state hstate
    rcases settle_cases topic partition (c b) with
      hcalm | ⟨pm, lastOffset, state', hbooted, hhired, heq⟩
    · rcases hcalm.following with hsame | hnone
      · exact .inl (hsame.symm.trans hstate)
      · rw [hnone] at hstate
        cases hstate
    · rw [heq] at hstate
      dsimp only [Node.following] at hstate
      rw [FMap.get_set_self] at hstate
      cases hstate
      have hplan := h.planned b
      rw [hbooted] at hplan
      have hother := hhired.other
      rw [h.id b, hplan.1] at hother
      exact .inr ⟨(h.behind b hother.symm).trans hgrow, hhired.next.trans (hplan.2 hother.symm)⟩

/-- The storage of a broker that has no worker is left alone. -/
theorem Led.storage_unhired (hb : b ≠ leader)
    (hnone : (step topic partition c e b).following topic partition = none) :
    (step topic partition c e b).broker.storage = (c b).broker.storage := by
  have hcases := calm_or_busy topic partition c e b
  generalize step topic partition c e b = n at hnone hcases ⊢
  rcases hcases with hcalm | hbusy
  · exact hcalm.storage
  · cases hbusy with
    | append i env => rw [h.append_quiet hb i env]
    | apply env =>
      rcases apply_cases topic partition (c b) env with
        hquiet | ⟨record, rest, state, -, -, heq⟩
      · rw [hquiet]
      · rw [heq] at hnone
        dsimp only [Node.following] at hnone
        rw [FMap.get_set_self] at hnone
        cases hnone
    | reply seq => exact reply_storage c b seq
    | settle => exact settle_storage (c b)

theorem Led.behind_step (hfaithful : Faithful topic partition leader c e) (hb : b ≠ leader) :
    (step topic partition c e b).log topic partition <+:
      known topic partition (step topic partition c e leader) := by
  cases hfollowing : (step topic partition c e b).following topic partition with
  | some state =>
    obtain ⟨htopic, hpartition, -, -, -, hin⟩ := h.linked_step hfaithful hfollowing
    have hbehind := hin.behind
    rwa [htopic, hpartition] at hbehind
  | none =>
    unfold Node.log
    rw [h.storage_unhired hb hfollowing]
    exact (h.behind b hb).trans (h.known_step hfaithful.retains)

/-- One faithful step keeps every other broker within what the manager knows. -/
theorem Led.step (hfaithful : Faithful topic partition leader c e) :
    Led topic partition leader (step topic partition c e) where
  whole b := (h.extends hfaithful.retains b).1
  id := id_step h.id
  requests _ hb := h.requests_step hfaithful.appointed hb
  planned := h.planned_step hfaithful.appointed
  hired _ _ hstate := h.hired_step hstate
  linked _ _ hstate := h.linked_step hfaithful hstate
  behind _ hb := h.behind_step hfaithful hb

end Led

end Partition

end Flux.FixedLeader
