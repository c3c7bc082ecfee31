import Flux.GroupRuns

/-!
What the group manager answers depends only on what its maps hold. Managers whose
groups have the same entries answer every request alike and go on to hold the
same entries, in whatever order their maps are laid out.
-/
namespace Flux.GroupReplies

open GoRuntime GoStrings FiniteMap Groups GroupExpiry GroupGenerations

variable {g g' : Group} {groups groups' : FMap Str Group}

structure SameGroup (g g' : Group) : Prop where
  topic : g'.topic = g.topic
  generation : g'.generation = g.generation
  assignor : g'.assignor = g.assignor
  memberOrder : g'.memberOrder = g.memberOrder
  members : ∀ id, g'.members.get id = g.members.get id
  assignments : ∀ id, g'.assignments.get id = g.assignments.get id

theorem SameGroup.refl (g : Group) : SameGroup g g :=
  ⟨rfl, rfl, rfl, rfl, fun _ => rfl, fun _ => rfl⟩

theorem SameGroup.symm (h : SameGroup g g') : SameGroup g' g :=
  ⟨h.topic.symm, h.generation.symm, h.assignor.symm, h.memberOrder.symm,
    fun id => (h.members id).symm, fun id => (h.assignments id).symm⟩

theorem SameGroup.trans {g'' : Group} (h : SameGroup g g') (h' : SameGroup g' g'') :
    SameGroup g g'' :=
  ⟨h'.topic.trans h.topic, h'.generation.trans h.generation, h'.assignor.trans h.assignor,
    h'.memberOrder.trans h.memberOrder, fun id => (h'.members id).trans (h.members id),
    fun id => (h'.assignments id).trans (h.assignments id)⟩

/-- The same groups under the same names. -/
def SameGroups (groups groups' : FMap Str Group) : Prop :=
  ∀ name, Option.Rel SameGroup (groups.get name) (groups'.get name)

theorem SameGroups.refl (groups : FMap Str Group) : SameGroups groups groups := by
  intro name
  cases groups.get name with
  | none => exact .none
  | some g => exact .some (SameGroup.refl g)

theorem SameGroups.symm (h : SameGroups groups groups') : SameGroups groups' groups := by
  intro name
  have hname := h name
  generalize groups.get name = o, groups'.get name = o' at hname ⊢
  cases hname with
  | none => exact .none
  | some hg => exact .some hg.symm

theorem SameGroups.trans {groups'' : FMap Str Group} (h : SameGroups groups groups')
    (h' : SameGroups groups' groups'') : SameGroups groups groups'' := by
  intro name
  have hfirst := h name
  have hsecond := h' name
  generalize groups.get name = o, groups'.get name = o', groups''.get name = o''
    at hfirst hsecond ⊢
  cases hfirst with
  | none =>
    cases hsecond with
    | none => exact .none
  | some hg =>
    cases hsecond with
    | some hg' => exact .some (hg.trans hg')

structure SameManager (gm gm' : GroupManager) : Prop where
  numPartitions : gm'.numPartitions = gm.numPartitions
  groups : SameGroups gm.groups gm'.groups

/-- A rebalance looks at the assignor and the members only. -/
theorem same_rebalance (n : ℕ) (htopic : g'.topic = g.topic)
    (hgeneration : g'.generation = g.generation) (hassignor : g'.assignor = g.assignor)
    (horder : g'.memberOrder = g.memberOrder)
    (hmembers : ∀ id, g'.members.get id = g.members.get id) :
    SameGroup (rebalance n g) (rebalance n g') := by
  refine ⟨htopic, hgeneration, hassignor, horder, hmembers, fun id => ?_⟩
  simp only [rebalance, hassignor, horder]

section Groups

variable {g g' : Group} (h : SameGroup g g')

include h

theorem same_switchTopic (topic : Str) :
    SameGroup (switchTopic g topic) (switchTopic g' topic) := by
  unfold switchTopic
  rw [h.topic]
  split
  · exact h
  · exact ⟨rfl, by rw [h.generation], h.assignor, rfl, fun _ => rfl, fun _ => rfl⟩

theorem same_switchAssignor (n : ℕ) (assignor : Str) :
    SameGroup (switchAssignor n g assignor) (switchAssignor n g' assignor) := by
  unfold switchAssignor
  rw [h.assignor]
  split
  · exact h
  · refine same_rebalance n h.topic ?_ rfl h.memberOrder h.members
    simp only [h.generation]

theorem same_alive (now : Time) : alive now g'.members = alive now g.members := by
  funext id
  unfold alive
  rw [h.members]

/-- Groups that are the same lose the same members. -/
theorem same_cleanupExpired (n : ℕ) (now : Time) :
    SameGroup (cleanupExpired n now g).1 (cleanupExpired n now g').1 ∧
      (cleanupExpired n now g').2 = (cleanupExpired n now g).2 := by
  obtain ⟨hactive, hmembers, hremoved⟩ := sweep now g.memberOrder ⟨g.members, [], false⟩
  obtain ⟨hactive', hmembers', hremoved'⟩ := sweep now g'.memberOrder ⟨g'.members, [], false⟩
  simp only [h.memberOrder, same_alive h now, h.members] at hactive' hmembers' hremoved'
  have hswept : SameGroup
      { g with
        members := (g.memberOrder.foldl (expireMember now) ⟨g.members, [], false⟩).members
        memberOrder := (g.memberOrder.foldl (expireMember now) ⟨g.members, [], false⟩).active }
      { g' with
        members := (g'.memberOrder.foldl (expireMember now) ⟨g'.members, [], false⟩).members
        memberOrder :=
          (g'.memberOrder.foldl (expireMember now) ⟨g'.members, [], false⟩).active } := by
    refine ⟨h.topic, h.generation, h.assignor, ?_, fun id => ?_, h.assignments⟩
    · rw [h.memberOrder]
      exact hactive'.trans hactive.symm
    · rw [h.memberOrder]
      exact (hmembers' id).trans (hmembers id).symm
  have hsame : (g'.memberOrder.foldl (expireMember now) ⟨g'.members, [], false⟩).removed =
      (g.memberOrder.foldl (expireMember now) ⟨g.members, [], false⟩).removed := by
    rw [h.memberOrder]
    exact hremoved'.trans hremoved.symm
  unfold cleanupExpired
  dsimp only
  rw [hsame]
  split
  · refine ⟨same_rebalance n h.topic ?_ h.assignor hswept.memberOrder hswept.members, rfl⟩
    simp only [h.generation]
  · exact ⟨hswept, rfl⟩

theorem same_setMember (id : Str) (t : Time) (id' : Str) :
    (g'.members.set id t).get id' = (g.members.set id t).get id' := by
  rw [FMap.get_set, FMap.get_set, h.members]

theorem same_addMember (n : ℕ) (now : Time) (consumerID : Str) :
    SameGroup (addMember n now g consumerID) (addMember n now g' consumerID) := by
  unfold addMember
  rw [h.members]
  split
  · refine same_rebalance n h.topic ?_ h.assignor ?_ (same_setMember h consumerID now)
    · simp only [h.generation]
    · simp only [h.memberOrder]
  · exact ⟨h.topic, h.generation, h.assignor, h.memberOrder, same_setMember h consumerID now,
      h.assignments⟩

theorem same_removeMember (n : ℕ) (consumerID : Str) :
    SameGroup (removeMember n g consumerID) (removeMember n g' consumerID) := by
  refine same_rebalance n h.topic ?_ h.assignor ?_ (fun id => ?_)
  · simp only [h.generation]
  · simp only [h.memberOrder]
  · by_cases hid : id = consumerID
    · simp [hid]
    · simp [hid, h.members]

theorem same_refreshMember (beat : Time) (consumerID : Str) :
    SameGroup (refreshMember beat g consumerID) (refreshMember beat g' consumerID) :=
  ⟨h.topic, h.generation, h.assignor, h.memberOrder, same_setMember h consumerID beat,
    h.assignments⟩

theorem same_assigned (id : Str) : assigned g'.assignments id = assigned g.assignments id := by
  unfold assigned
  rw [h.assignments]

end Groups

section Managers

variable {gm gm' : GroupManager} (h : SameManager gm gm')

include h

theorem same_setGroup (name : Str) (hg : SameGroup g g') :
    SameManager (setGroup gm name g) (setGroup gm' name g') := by
  refine ⟨h.numPartitions, fun name' => ?_⟩
  unfold setGroup
  by_cases heq : name' = name
  · rw [heq, FMap.get_set_self, FMap.get_set_self]
    exact .some hg
  · rw [FMap.get_set_ne _ _ heq, FMap.get_set_ne _ _ heq]
    exact h.groups name'

theorem same_saveLocked (outcome : SaveOutcome) :
    SameManager (saveLocked outcome gm) (saveLocked outcome gm') := by
  cases outcome with
  | written => exact ⟨h.numPartitions, h.groups⟩
  | unchanged => exact h
  | torn => exact ⟨h.numPartitions, h.groups⟩

theorem same_ensureGroup (groupName topic assignor : Str) :
    SameGroup (ensureGroup gm groupName topic assignor)
      (ensureGroup gm' groupName topic assignor) := by
  have hget := h.groups groupName
  unfold ensureGroup
  rw [h.numPartitions]
  cases hg : gm.groups.get groupName with
  | none =>
    rw [hg] at hget
    cases hg' : gm'.groups.get groupName with
    | none => exact SameGroup.refl _
    | some g' =>
      rw [hg'] at hget
      cases hget
  | some g =>
    rw [hg] at hget
    cases hg' : gm'.groups.get groupName with
    | none =>
      rw [hg'] at hget
      cases hget
    | some g' =>
      rw [hg'] at hget
      cases hget with
      | some hsame => exact same_switchAssignor (same_switchTopic hsame topic) _ assignor

theorem same_cleanup (visit : Visit) (name : Str) (hg : SameGroup g g') :
    SameManager (cleanup visit gm name g).1 (cleanup visit gm' name g').1 ∧
      SameGroup (cleanup visit gm name g).2 (cleanup visit gm' name g').2 := by
  obtain ⟨hswept, hremoved⟩ := same_cleanupExpired hg gm.numPartitions visit.now
  have hset := same_setGroup h name hswept
  unfold cleanup
  dsimp only
  rw [h.numPartitions, hremoved]
  refine ⟨?_, hswept⟩
  split
  · exact same_saveLocked hset _
  · exact hset

theorem same_joinGroup (visit : Visit) (groupName topic consumerID assignor : Str) :
    SameManager (joinGroup visit gm groupName topic consumerID assignor).1
        (joinGroup visit gm' groupName topic consumerID assignor).1 ∧
      (joinGroup visit gm' groupName topic consumerID assignor).2 =
        (joinGroup visit gm groupName topic consumerID assignor).2 := by
  obtain ⟨hclean, hgroup⟩ := same_cleanup h visit groupName
    (same_ensureGroup h groupName topic assignor)
  have hadded := same_addMember hgroup gm.numPartitions visit.now consumerID
  unfold joinGroup
  dsimp only
  rw [h.numPartitions]
  refine ⟨same_saveLocked (same_setGroup hclean groupName hadded) _, ?_⟩
  rw [hadded.generation, same_assigned hadded]

/-- The checks end alike: with the same error, or with the same group. -/
theorem same_checkMember (visit : Visit) (groupName topic consumerID : Str) (generation : Int) :
    (∃ e gm₁ gm₁', checkMember visit gm groupName topic consumerID generation = (gm₁, .error e) ∧
      checkMember visit gm' groupName topic consumerID generation = (gm₁', .error e) ∧
      SameManager gm₁ gm₁') ∨
    (∃ g g' gm₁ gm₁', checkMember visit gm groupName topic consumerID generation = (gm₁, .ok g) ∧
      checkMember visit gm' groupName topic consumerID generation = (gm₁', .ok g') ∧
      SameManager gm₁ gm₁' ∧ SameGroup g g') := by
  have hget := h.groups groupName
  unfold checkMember
  generalize gm.groups.get groupName = o, gm'.groups.get groupName = o' at hget
  cases hget with
  | none => exact .inl ⟨_, _, _, rfl, rfl, h⟩
  | some hg =>
    obtain ⟨hclean, hgroup⟩ := same_cleanup h visit groupName hg
    dsimp only
    rw [hg.topic, hgroup.generation, hgroup.members]
    split
    · exact .inl ⟨_, _, _, rfl, rfl, h⟩
    · split
      · exact .inl ⟨_, _, _, rfl, rfl, hclean⟩
      · split
        · exact .inl ⟨_, _, _, rfl, rfl, hclean⟩
        · exact .inr ⟨_, _, _, _, rfl, rfl, hclean, hgroup⟩

end Managers

/-- What a request is answered. -/
inductive Reply
  | joined (result : JoinResult)
  | synced (result : Except GroupError JoinResult)
  | done (result : Except GroupError Unit)

def reply (gm : GroupManager) : Request → Reply
  | .join visit groupName topic consumerID assignor =>
      .joined (joinGroup visit gm groupName topic consumerID assignor).2
  | .leave visit groupName topic consumerID generation =>
      .done (leaveGroup visit gm groupName topic consumerID generation).2
  | .sync visit groupName topic consumerID generation =>
      .synced (syncGroup visit gm groupName topic consumerID generation).2
  | .heartbeat visit groupName topic consumerID generation =>
      .done (Groups.heartbeat visit gm groupName topic consumerID generation).2
  | .validateCommit visit groupName topic consumerID generation partition =>
      .done (validateCommit visit gm groupName topic consumerID generation partition).2

/-- Managers with the same groups answer alike. -/
theorem same_serve {gm gm' : GroupManager} (h : SameManager gm gm') (request : Request) :
    SameManager (serve gm request) (serve gm' request) ∧ reply gm' request = reply gm request := by
  cases request with
  | join visit groupName topic consumerID assignor =>
    obtain ⟨hsame, hresult⟩ := same_joinGroup h visit groupName topic consumerID assignor
    exact ⟨hsame, congrArg Reply.joined hresult⟩
  | leave visit groupName topic consumerID generation =>
    simp only [serve, reply, leaveGroup]
    rcases same_checkMember h visit groupName topic consumerID generation with
      ⟨e, gm₁, gm₁', hcheck, hcheck', hsame⟩ | ⟨g, g', gm₁, gm₁', hcheck, hcheck', hsame, hg⟩
    · rw [hcheck, hcheck']
      exact ⟨hsame, rfl⟩
    · rw [hcheck, hcheck']
      dsimp only
      rw [hsame.numPartitions]
      exact ⟨same_saveLocked (same_setGroup hsame _ (same_removeMember hg _ _)) _, rfl⟩
  | sync visit groupName topic consumerID generation =>
    simp only [serve, reply, syncGroup]
    rcases same_checkMember h visit groupName topic consumerID generation with
      ⟨e, gm₁, gm₁', hcheck, hcheck', hsame⟩ | ⟨g, g', gm₁, gm₁', hcheck, hcheck', hsame, hg⟩
    · rw [hcheck, hcheck']
      exact ⟨hsame, rfl⟩
    · rw [hcheck, hcheck']
      dsimp only
      rw [hg.generation, same_assigned hg]
      exact ⟨same_saveLocked (same_setGroup hsame _ (same_refreshMember hg _ _)) _, rfl⟩
  | heartbeat visit groupName topic consumerID generation =>
    simp only [serve, reply, Groups.heartbeat]
    rcases same_checkMember h visit groupName topic consumerID generation with
      ⟨e, gm₁, gm₁', hcheck, hcheck', hsame⟩ | ⟨g, g', gm₁, gm₁', hcheck, hcheck', hsame, hg⟩
    · rw [hcheck, hcheck']
      exact ⟨hsame, rfl⟩
    · rw [hcheck, hcheck']
      exact ⟨same_saveLocked (same_setGroup hsame _ (same_refreshMember hg _ _)) _, rfl⟩
  | validateCommit visit groupName topic consumerID generation partition =>
    simp only [serve, reply, validateCommit]
    rcases same_checkMember h visit groupName topic consumerID generation with
      ⟨e, gm₁, gm₁', hcheck, hcheck', hsame⟩ | ⟨g, g', gm₁, gm₁', hcheck, hcheck', hsame, hg⟩
    · rw [hcheck, hcheck']
      exact ⟨hsame, rfl⟩
    · rw [hcheck, hcheck']
      dsimp only
      rw [same_assigned hg]
      split
      · exact ⟨hsame, rfl⟩
      · exact ⟨hsame, rfl⟩

end Flux.GroupReplies
