import Flux.GroupGenerations

/-!
Requests that leave a group's generation alone. A request is about one group, and
where no session has run out it changes the generation only if somebody new
joins, the topic or the assignor changes, or a LEAVE is accepted.
-/
namespace Flux.CalmRequests

open GoRuntime GoStrings Groups GroupExpiry GroupGenerations

/-- No session of the group has run out. -/
def Fresh (now : Time) (g : Group) : Prop :=
  ∀ id ∈ g.memberOrder, alive now g.members id = true

def Calm (g : Group) : Request → Prop
  | .join visit _ topic consumerID assignor =>
      Fresh visit.now g ∧ topic = g.topic ∧ (assignor = [] ∨ assignor = g.assignor) ∧
        (g.members.get consumerID).isSome
  | .leave visit _ topic consumerID generation =>
      Fresh visit.now g ∧
        (topic ≠ g.topic ∨ generation ≠ g.generation ∨ (g.members.get consumerID).isNone)
  | .sync visit _ _ _ _ => Fresh visit.now g
  | .heartbeat visit _ _ _ _ => Fresh visit.now g
  | .validateCommit visit _ _ _ _ _ => Fresh visit.now g

structure Steady (g g' : Group) : Prop where
  topic : g'.topic = g.topic
  generation : g'.generation = g.generation
  members : ∀ id, (g.members.get id).isSome → (g'.members.get id).isSome

theorem Steady.refl (g : Group) : Steady g g := ⟨rfl, rfl, fun _ h => h⟩

theorem steady_refreshMember (g : Group) (id : Str) (beat : Time) :
    Steady g (refreshMember beat g id) := by
  refine ⟨rfl, rfl, ?_⟩
  intro id' h
  by_cases heq : id' = id
  · simp [refreshMember, heq]
  · simpa [refreshMember, heq] using h

section Requests

variable {gm : GroupManager} {g : Group} {visit : Visit} {name topic id assignor : Str}
  {generation : Int}

theorem cleanup_fresh (h : Fresh visit.now g) (gm : GroupManager) (name : Str) :
    cleanup visit gm name g = (setGroup gm name g, g) := by
  simp [cleanup, cleanupExpired_alive gm.numPartitions visit.now g h]

theorem ensureGroup_same (hg : gm.groups.get name = some g) (htopic : topic = g.topic)
    (hassignor : assignor = [] ∨ assignor = g.assignor) :
    ensureGroup gm name topic assignor = g := by
  simp [ensureGroup, hg, switchTopic, htopic, switchAssignor, hassignor]

theorem joinGroup_calm (hg : gm.groups.get name = some g)
    (h : Calm g (.join visit name topic id assignor)) :
    ∃ g', (joinGroup visit gm name topic id assignor).1.groups.get name = some g' ∧
      Steady g g' := by
  obtain ⟨hfresh, htopic, hassignor, hmember⟩ := h
  obtain ⟨hb, hget⟩ := Option.isSome_iff_exists.mp hmember
  refine ⟨refreshMember visit.now g id, ?_, steady_refreshMember g id visit.now⟩
  unfold joinGroup
  rw [ensureGroup_same hg htopic hassignor, cleanup_fresh hfresh gm name]
  simp [setGroup, addMember, hget, refreshMember]

/-- The shared checks leave a group without expired members as it is. -/
theorem checkMember_fresh (hg : gm.groups.get name = some g) (h : Fresh visit.now g)
    (topic id : Str) (generation : Int) : ∃ gm', gm'.groups.get name = some g ∧
      ((∃ e, checkMember visit gm name topic id generation = (gm', .error e)) ∨
        checkMember visit gm name topic id generation = (gm', .ok g)) := by
  have hset : (setGroup gm name g).groups.get name = some g := by simp [setGroup]
  unfold checkMember
  simp only [hg, cleanup_fresh h gm name]
  split
  · exact ⟨gm, hg, Or.inl ⟨_, rfl⟩⟩
  · split
    · exact ⟨_, hset, Or.inl ⟨_, rfl⟩⟩
    · split
      · exact ⟨_, hset, Or.inl ⟨_, rfl⟩⟩
      · exact ⟨_, hset, Or.inr rfl⟩

/-- A member at the current generation passes the shared checks. -/
theorem checkMember_enrolled (hg : gm.groups.get name = some g) (h : Fresh visit.now g)
    (htopic : g.topic = topic) (hgeneration : g.generation = generation)
    (hmember : (g.members.get id).isSome) :
    checkMember visit gm name topic id generation = (setGroup gm name g, .ok g) := by
  have hpresent : (g.members.get id).isNone = false := by
    rw [← Option.not_isSome, hmember]
    rfl
  simp [checkMember, hg, cleanup_fresh h gm name, htopic, hgeneration, hpresent]

/-- A calm request leaves its group steady. -/
theorem serve_calm {request : Request} (hg : gm.groups.get (groupName request) = some g)
    (h : Calm g request) :
    ∃ g', (serve gm request).groups.get (groupName request) = some g' ∧ Steady g g' := by
  cases request with
  | join visit name topic id assignor => exact joinGroup_calm hg h
  | leave visit name topic id generation =>
    obtain ⟨hfresh, hrefused⟩ := h
    simp only [groupName, serve, leaveGroup] at hg ⊢
    obtain ⟨gm', hstored, ⟨e, hresult⟩ | hresult⟩ :=
      checkMember_fresh hg hfresh topic id generation
    · exact ⟨g, by simpa [hresult] using hstored, Steady.refl g⟩
    · obtain ⟨-, htopic, hgeneration, hmember⟩ := checkMember_accepted hresult
      rcases hrefused with hother | hstale | hunknown
      · exact absurd htopic.symm hother
      · exact absurd hgeneration.symm hstale
      · rw [Option.isNone_iff_eq_none] at hunknown
        simp [hunknown] at hmember
  | sync visit name topic id generation =>
    simp only [groupName, serve, syncGroup] at hg ⊢
    obtain ⟨gm', hstored, ⟨e, hresult⟩ | hresult⟩ := checkMember_fresh hg h topic id generation
    · exact ⟨g, by simpa [hresult] using hstored, Steady.refl g⟩
    · exact ⟨_, by simp [hresult, setGroup], steady_refreshMember g id visit.beat⟩
  | heartbeat visit name topic id generation =>
    simp only [groupName, serve, heartbeat] at hg ⊢
    obtain ⟨gm', hstored, ⟨e, hresult⟩ | hresult⟩ := checkMember_fresh hg h topic id generation
    · exact ⟨g, by simpa [hresult] using hstored, Steady.refl g⟩
    · exact ⟨_, by simp [hresult, setGroup], steady_refreshMember g id visit.beat⟩
  | validateCommit visit name topic id generation partition =>
    simp only [groupName, serve, validateCommit] at hg ⊢
    obtain ⟨gm', hstored, ⟨e, hresult⟩ | hresult⟩ := checkMember_fresh hg h topic id generation
    · exact ⟨g, by simpa [hresult] using hstored, Steady.refl g⟩
    · refine ⟨g, ?_, Steady.refl g⟩
      simp only [hresult]
      split
      · exact hstored
      · exact hstored

theorem cleanup_other (visit : Visit) (gm : GroupManager) (g : Group) {name name' : Str}
    (h : name' ≠ name) : (cleanup visit gm name g).1.groups.get name' = gm.groups.get name' := by
  unfold cleanup
  dsimp only
  split
  · simp [setGroup, h]
  · simp [setGroup, h]

theorem checkMember_other (visit : Visit) (gm : GroupManager) (topic id : Str) (generation : Int)
    {name name' : Str} (h : name' ≠ name) :
    (checkMember visit gm name topic id generation).1.groups.get name' =
      gm.groups.get name' := by
  unfold checkMember
  split
  · rfl
  · rename_i g _
    have hclean := cleanup_other visit gm g h
    dsimp only
    split
    · rfl
    · split
      · exact hclean
      · split
        · exact hclean
        · exact hclean

/-- A request leaves other groups alone. -/
theorem other_served {gm' : GroupManager} {request : Request} (h : Served gm request gm')
    {name : Str} (hname : name ≠ groupName request) :
    gm'.groups.get name = gm.groups.get name := by
  cases h with
  | joined visit name' topic id assignor =>
    have hne : name ≠ name' := hname
    have hclean := cleanup_other visit gm (ensureGroup gm name' topic assignor) hne
    simpa [joinGroup, setGroup, hne] using hclean
  | checked _ topic id generation => exact checkMember_other _ gm topic id generation hname
  | @removed _ topic id generation _ _ hresult =>
    have hcheck := checkMember_other request.visit gm topic id generation hname
    simpa [setGroup, hname, hresult] using hcheck
  | @refreshed _ topic id generation _ _ hresult =>
    have hcheck := checkMember_other request.visit gm topic id generation hname
    simpa [setGroup, hname, hresult] using hcheck

/-- A request is about one group. -/
theorem serve_other (gm : GroupManager) (request : Request) {name : Str}
    (h : name ≠ groupName request) :
    (serve gm request).groups.get name = gm.groups.get name :=
  other_served (serve_served gm request) h

end Requests

end Flux.CalmRequests
