import Flux.LeaderElections
import Flux.ReplicaProgress

/-!
The roles of the partitions in the replication manager, and what a reconcile does
to them: each partition of the metadata gets the role that the metadata has for
this broker, except where it has none.
-/
namespace Flux.RoleReconciliation

open GoRuntime GoStrings FiniteMap ReplicationManager ReplicaProgress ClusterMetadata
open Interleavings BrokerNode BrokerContracts ClusterRuntime ControllerSteps

variable {topic : Str} {partition : Int} {pm : PartitionMetadata}

def roleOf (b : Broker) (topic : Str) (partition : Int) : Role :=
  (partitionOf b.replication topic partition).role

/-- A partition of the metadata. -/
def Listed (metadata : MetadataSnapshot) (topic : Str) (partition : Int)
    (pm : PartitionMetadata) : Prop :=
  ∃ md, metadata.topics.get topic = some md ∧ md.partitions.get partition = some pm

theorem Listed.unique {metadata : MetadataSnapshot} {pm' : PartitionMetadata}
    (h : Listed metadata topic partition pm) (h' : Listed metadata topic partition pm') :
    pm' = pm := by
  obtain ⟨md, hmd, hpm⟩ := h
  obtain ⟨md', hmd', hpm'⟩ := h'
  rw [hmd] at hmd'
  cases hmd'
  rw [hpm] at hpm'
  exact (Option.some.inj hpm').symm

section Roles

theorem readRole_text (role : Role) : readRole role.text = some role := by
  cases role with
  | leader => decide
  | follower => decide

theorem turned_role (ps : PartitionState) (role : Role) : (ps.turned role).role = role := by
  cases role with
  | leader => rfl
  | follower => rfl

/-- The partitions whose roles a call leaves alone, and the one it gives a role. -/
theorem role_setPartition (m : Manager) (topic topic' : Str) (partition partition' : Int)
    (ps : PartitionState) :
    (partitionOf (setPartition m topic partition ps) topic' partition').role =
      if (topic', partition') = (topic, partition) then ps.role
      else (partitionOf m topic' partition').role := by
  split
  · rename_i hkey
    cases hkey
    rw [partitionOf_setPartition_self]
  · rename_i hkey
    rw [partitionOf_setPartition_ne m topic partition ps hkey]

theorem role_setRole (now : Time) (m : Manager) (topic topic' : Str) (partition partition' : Int)
    (role : Role) :
    (partitionOf (setRole now m topic partition role.text).1 topic' partition').role =
      if (topic', partition') = (topic, partition) then role
      else (partitionOf m topic' partition').role := by
  rw [setRole, readRole_text]
  dsimp only
  rw [role_setPartition]
  exact if_congr Iff.rfl (turned_role _ role) rfl

theorem role_bootstrapOffset (now : Time) (m : Manager) (topic topic' : Str)
    (partition partition' offset : Int) :
    (partitionOf (bootstrapOffset now m topic partition offset) topic' partition').role =
      (partitionOf m topic' partition').role := by
  unfold bootstrapOffset
  dsimp only
  rw [role_setPartition]
  split
  · rename_i hkey
    cases hkey
    cases (partitionOf m topic partition).role with
    | leader => rfl
    | follower => rfl
  · rfl

structure Turned (b : Broker) (topic : Str) (partition : Int) (role : Role) (b' : Broker) :
    Prop where
  controller : b'.controller = b.controller
  local_eq : b'.localBrokerID = b.localBrokerID
  roles : ∀ t p, roleOf b' t p = if (t, p) = (topic, partition) then role else roleOf b t p

theorem yields_takeRole (tick : Tick) (b : Broker) (topic : Str) (partition lastOffset : Int)
    (role : Role) :
    Program.Yields (fun b' _ => Turned b topic partition role b')
      (takeRole tick topic partition lastOffset role) b := by
  have hset : Program.Yields (fun b' _ => Turned b topic partition role b')
      (onReplication (fun m => setRole (tick.env.clock 1) m topic partition role.text)) b :=
    Program.yields_modify ⟨rfl, rfl, fun t p => role_setRole _ _ _ _ _ _ _⟩
  refine Program.upholds_bind hset (fun b' _ h => ?_)
  refine Program.yields_modify ⟨h.controller, h.local_eq, fun t p => ?_⟩
  exact (role_bootstrapOffset _ _ _ _ _ _ _).trans (h.roles t p)

end Roles

def reconciled (localBrokerID : Int) (pm : PartitionMetadata) (role : Role) : Role :=
  if pm.leaderID = localBrokerID then .leader
  else if localBrokerID ∉ pm.replicas ∨ pm.leaderID < 0 then role
  else .follower

theorem reconciled_idem (localBrokerID : Int) (pm : PartitionMetadata) (role : Role) :
    reconciled localBrokerID pm (reconciled localBrokerID pm role) =
      reconciled localBrokerID pm role := by
  unfold reconciled
  split
  · rfl
  · split
    · rfl
    · rfl

section Reconcile

variable {b b' : Broker}

theorem turned_same (b : Broker) (topic : Str) (partition : Int)
    (workers : FMap Str ReplicaWorkerState) :
    Turned b topic partition (roleOf b topic partition) { b with workers := workers } := by
  refine ⟨rfl, rfl, fun t p => ?_⟩
  split
  · rename_i hkey
    cases hkey
    rfl
  · rfl

theorem Turned.workers {role : Role} (h : Turned b topic partition role b')
    (workers : FMap Str ReplicaWorkerState) :
    Turned b topic partition role { b' with workers := workers } :=
  ⟨h.controller, h.local_eq, h.roles⟩

/-- One turn of the loop. -/
theorem yields_reconcilePartition (tick : Tick) (b : Broker) (topic : Str) (partition : Int)
    (pm : PartitionMetadata) :
    Program.Yields (fun b' _ => Turned b topic partition
      (reconciled b.localBrokerID pm (roleOf b topic partition)) b')
      (reconcilePartition tick topic partition pm) b := by
  refine Program.yields_read_bind (Program.yields_read_bind ?_)
  dsimp only [id]
  unfold reconciled
  split
  · refine Program.upholds_bind (yields_takeRole tick b topic partition _ .leader) ?_
    exact fun b' _ h => Program.yields_modify (h.workers _)
  · split
    · exact Program.yields_modify (turned_same b topic partition _)
    · refine Program.upholds_bind (yields_takeRole tick b topic partition _ .follower) ?_
      intro b' _ h
      cases b.peers.get pm.leaderID with
      | none => exact h
      | some leaderAddr => exact Program.yields_modify (h.workers _)

structure Visiting (b : Broker) (ahead : List (Str × Int × PartitionMetadata)) (b' : Broker) :
    Prop where
  controller : b'.controller = b.controller
  local_eq : b'.localBrokerID = b.localBrokerID
  listed : ∀ item ∈ ahead, Listed b.controller.metadata item.1 item.2.1 item.2.2
  roles : ∀ t p pm, Listed b.controller.metadata t p pm →
    roleOf b' t p = reconciled b.localBrokerID pm (roleOf b t p) ∨
      (roleOf b' t p = roleOf b t p ∧ (t, p, pm) ∈ ahead)

/-- The loop goes on to the next partition. -/
theorem Visiting.next {rest : List (Str × Int × PartitionMetadata)} {b'' : Broker}
    (h : Visiting b ((topic, partition, pm) :: rest) b')
    (hturned : Turned b' topic partition
      (reconciled b'.localBrokerID pm (roleOf b' topic partition)) b'') : Visiting b rest b'' := by
  have hhead := h.listed _ (List.mem_cons_self ..)
  refine ⟨hturned.controller.trans h.controller, hturned.local_eq.trans h.local_eq,
    fun item hitem => h.listed item (List.mem_cons_of_mem _ hitem), fun t p pm' hlisted => ?_⟩
  rw [hturned.roles, h.local_eq]
  by_cases hkey : (t, p) = (topic, partition)
  · cases hkey
    rw [if_pos rfl, hhead.unique hlisted]
    refine .inl ?_
    rcases h.roles _ _ pm hhead with hdone | ⟨hbefore, -⟩
    · rw [hdone, reconciled_idem]
    · rw [hbefore]
  · rw [if_neg hkey]
    rcases h.roles t p pm' hlisted with hdone | ⟨hbefore, hmem⟩
    · exact .inl hdone
    · refine .inr ⟨hbefore, (List.mem_cons.mp hmem).resolve_left (fun heq => hkey ?_)⟩
      cases heq
      rfl

theorem mem_visited {tick : Tick} {metadata : MetadataSnapshot} :
    (topic, partition, pm) ∈ visited tick metadata ↔ Listed metadata topic partition pm := by
  unfold visited
  rw [List.mem_flatMap]
  constructor
  · rintro ⟨t, ht, hmem⟩
    obtain ⟨p, -, hget⟩ := List.mem_filterMap.mp hmem
    obtain ⟨pm', hpm', heq⟩ := Option.map_eq_some_iff.mp hget
    cases heq
    obtain ⟨md, hmd⟩ := (FMap.mem_keys_iff _ _).mp ((tick.names_perm _).mem_iff.mp ht)
    rw [topicOf, hmd] at hpm'
    exact ⟨md, hmd, hpm'⟩
  · rintro ⟨md, hmd, hpm⟩
    refine ⟨topic, (tick.names_perm _).mem_iff.mpr ((FMap.mem_keys_iff _ _).mpr ⟨md, hmd⟩),
      List.mem_filterMap.mpr ⟨partition, ?_, ?_⟩⟩
    · rw [topicOf, hmd]
      exact (tick.env.order_perm _).mem_iff.mpr ((FMap.mem_keys_iff _ _).mpr ⟨pm, hpm⟩)
    · rw [topicOf, hmd, Option.getD_some, hpm]
      rfl

/-- After a reconcile every partition of the metadata has the role it leaves. -/
theorem yields_reconcileRoles (tick : Tick) (b : Broker) :
    Program.Yields (fun b' _ =>
      b'.controller.metadata.topics = b.controller.metadata.topics ∧
      b'.localBrokerID = b.localBrokerID ∧
      ∀ t p pm, Listed b.controller.metadata t p pm →
        roleOf b' t p = reconciled b.localBrokerID pm (roleOf b t p))
      (reconcileRoles tick) b := by
  refine Program.yields_read_bind ?_
  dsimp only [id]
  have hbeat : Program.Yields (fun b' _ =>
      b'.controller.metadata.topics = b.controller.metadata.topics ∧
      b'.localBrokerID = b.localBrokerID ∧ b'.replication = b.replication)
      (onController (fun store => heartbeatBroker (tick.env.clock 0) store b.localBrokerID)) b :=
    Program.yields_modify ⟨heartbeatBroker_topics _ _ _, rfl, rfl⟩
  refine Program.upholds_bind hbeat ?_
  rintro b' _ ⟨htopics, hlocal, hreplication⟩
  refine Program.yields_read_bind ?_
  have hsame : ∀ t p pm, Listed b.controller.metadata t p pm ↔
      Listed b'.controller.metadata t p pm := by
    intro t p pm
    unfold Listed
    rw [htopics]
  have hroles : ∀ t p, roleOf b' t p = roleOf b t p := by
    intro t p
    unfold roleOf
    rw [hreplication]
  have hstart : Visiting b' (visited tick b'.controller.metadata) b' :=
    ⟨rfl, rfl, fun item hitem => mem_visited.mp hitem,
      fun t p pm hlisted => .inr ⟨rfl, mem_visited.mpr hlisted⟩⟩
  have hloop : Program.Yields (fun b'' _ => Visiting b' [] b'') (forEach
      (fun item => reconcilePartition tick item.1 item.2.1 item.2.2)
      (visited tick b'.controller.metadata)) b' := by
    refine upholds_forEach (Visiting b') (fun item rest c h => ?_) hstart
    exact (yields_reconcilePartition tick c item.1 item.2.1 item.2.2).weaken
      (fun c' _ hturned => h.next hturned)
  refine hloop.weaken (fun b'' _ h => ⟨?_, h.local_eq.trans hlocal, fun t p pm hlisted => ?_⟩)
  · rw [h.controller, htopics]
  · rcases h.roles t p pm ((hsame t p pm).mp hlisted) with hdone | ⟨-, hmem⟩
    · rw [hdone, hlocal, hroles]
    · exact absurd hmem List.not_mem_nil

end Reconcile

end Flux.RoleReconciliation
