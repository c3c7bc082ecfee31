import Flux.Groups

/-!
Committed offsets, and the coordinator that holds them next to the consumer
groups. A commit is validated by the group manager and then written by the
offset manager, each under its own lock.
-/
namespace Flux.OffsetCommits

open GoStrings FiniteMap Groups

structure OffsetManager where
  offsets : FMap Str (FMap Str (FMap Int Int))
  deriving DecidableEq

structure Coordinator where
  groupManager : GroupManager
  offsetManager : OffsetManager
  deriving DecidableEq

structure Commit where
  groupName : Str
  topic : Str
  consumerID : Str
  generation : Int
  partition : Int
  offset : Int
  deriving DecidableEq

def OffsetManager.commit (om : OffsetManager) (group topic : Str) (partition offset : Int) :
    OffsetManager :=
  let groupData := (om.offsets.get group).getD FMap.empty
  ⟨om.offsets.set group (set2 groupData topic partition offset)⟩

def OffsetManager.getOffset (om : OffsetManager) (group topic : Str) (partition : Int) : Int :=
  match om.offsets.get group with
  | none => 0
  | some groupData =>
      match groupData.get topic with
      | none => 0
      | some topicData => (topicData.get partition).getD 0

theorem getOffset_eq (om : OffsetManager) (group topic : Str) (partition : Int) :
    om.getOffset group topic partition =
      (get2 ((om.offsets.get group).getD FMap.empty) topic partition).getD 0 := by
  unfold OffsetManager.getOffset
  cases om.offsets.get group with
  | none => simp
  | some groupData =>
    dsimp only [Option.getD_some]
    unfold get2
    cases groupData.get topic with
    | none => rfl
    | some topicData => rfl

theorem getOffset_commit_self (om : OffsetManager) (group topic : Str) (partition offset : Int) :
    (om.commit group topic partition offset).getOffset group topic partition = offset := by
  simp [getOffset_eq, OffsetManager.commit]

theorem getOffset_commit_ne (om : OffsetManager) {group group' topic topic' : Str}
    {partition partition' : Int} (offset : Int)
    (h : (group', topic', partition') ≠ (group, topic, partition)) :
    (om.commit group topic partition offset).getOffset group' topic' partition' =
      om.getOffset group' topic' partition' := by
  rw [getOffset_eq, getOffset_eq]
  by_cases hgroup : group' = group
  · subst hgroup
    have hcell : (topic', partition') ≠ (topic, partition) := fun heq => h (by rw [heq])
    simp [OffsetManager.commit, get2_set2_ne _ _ hcell]
  · simp [OffsetManager.commit, hgroup]

end Flux.OffsetCommits
