import Flux.GroupExpiry

/-!
Generations only move forward until the 64-bit counter overflows. A request that
changes a group's topic, assignor, members or assignments raises its generation,
by at most 4, whatever the names, the clock readings and the outcome of the
saves, and no request removes a group.
-/
namespace Flux.GroupGenerations

open GoRuntime GoStrings Groups GroupExpiry

variable {g g' : Group} {k : ℕ} {name : Str}

/-- What a generation stands for. -/
structure SameShape (g g' : Group) : Prop where
  topic : g'.topic = g.topic
  assignor : g'.assignor = g.assignor
  memberOrder : g'.memberOrder = g.memberOrder
  assignments : ∀ id, g'.assignments.get id = g.assignments.get id

/-- Where `k` more generations are left, the generation rises by at most `k` or
everything it stands for stays. -/
def Follows (k : ℕ) (g g' : Group) : Prop :=
  -2 ^ 63 ≤ g.generation → g.generation + k < 2 ^ 63 →
    (g.generation < g'.generation ∧ g'.generation ≤ g.generation + k) ∨
      (g'.generation = g.generation ∧ SameShape g g')

theorem SameShape.refl (g : Group) : SameShape g g := ⟨rfl, rfl, rfl, fun _ => rfl⟩

theorem SameShape.trans {g'' : Group} (h : SameShape g g') (h' : SameShape g' g'') :
    SameShape g g'' :=
  ⟨h'.topic.trans h.topic, h'.assignor.trans h.assignor, h'.memberOrder.trans h.memberOrder,
    fun id => (h'.assignments id).trans (h.assignments id)⟩

theorem Follows.refl (k : ℕ) (g : Group) : Follows k g g :=
  fun _ _ => Or.inr ⟨rfl, SameShape.refl g⟩

theorem follows_next (h : g'.generation = wrap64 (g.generation + 1)) : Follows 1 g g' := by
  intro hlow hhigh
  rw [wrap64_of_inInt64 ⟨by omega, by omega⟩] at h
  exact Or.inl ⟨by omega, by omega⟩

theorem Follows.trans {j : ℕ} {g'' : Group} (h : Follows j g g') (h' : Follows k g' g'') :
    Follows (j + k) g g'' := by
  intro hlow hhigh
  rw [Nat.cast_add] at hhigh ⊢
  rcases h hlow (by omega) with ⟨hlt, hle⟩ | ⟨heq, hs⟩
  · rcases h' (by omega) (by omega) with ⟨hlt', hle'⟩ | ⟨heq', -⟩
    · exact Or.inl ⟨by omega, by omega⟩
    · exact Or.inl ⟨by omega, by omega⟩
  · rcases h' (by omega) (by omega) with ⟨hlt', hle'⟩ | ⟨heq', hs'⟩
    · exact Or.inl ⟨by omega, by omega⟩
    · exact Or.inr ⟨by omega, hs.trans hs'⟩

theorem Follows.generation_le (h : Follows k g g') (hlow : -2 ^ 63 ≤ g.generation)
    (hhigh : g.generation + k < 2 ^ 63) :
    g.generation ≤ g'.generation ∧ g'.generation ≤ g.generation + k := by
  rcases h hlow hhigh with ⟨hlt, hle⟩ | ⟨heq, -⟩
  · exact ⟨by omega, hle⟩
  · exact ⟨by omega, by omega⟩

section Groups

variable (n : ℕ) (g : Group)

theorem switchTopic_follows (topic : Str) : Follows 1 g (switchTopic g topic) := by
  unfold switchTopic
  split
  · exact Follows.refl 1 g
  · exact follows_next rfl

theorem switchAssignor_follows (assignor : Str) : Follows 1 g (switchAssignor n g assignor) := by
  unfold switchAssignor
  split
  · exact Follows.refl 1 g
  · exact follows_next rfl

theorem cleanupExpired_follows (now : Time) : Follows 1 g (cleanupExpired n now g).1 := by
  cases hr : (cleanupExpired n now g).2 with
  | false =>
    rw [cleanupExpired_quiet n now g hr]
    exact Follows.refl 1 g
  | true =>
    unfold cleanupExpired at hr ⊢
    dsimp only at hr ⊢
    split at hr
    · rename_i hremoved
      rw [if_pos hremoved]
      exact follows_next rfl
    · exact absurd hr Bool.false_ne_true

theorem addMember_follows (now : Time) (consumerID : Str) :
    Follows 1 g (addMember n now g consumerID) := by
  unfold addMember
  cases g.members.get consumerID with
  | none => exact follows_next rfl
  | some hb => exact fun _ _ => Or.inr ⟨rfl, rfl, rfl, rfl, fun _ => rfl⟩

theorem removeMember_follows (consumerID : Str) : Follows 1 g (removeMember n g consumerID) :=
  follows_next rfl

theorem refreshMember_follows (beat : Time) (consumerID : Str) :
    Follows 1 g (refreshMember beat g consumerID) :=
  fun _ _ => Or.inr ⟨rfl, rfl, rfl, rfl, fun _ => rfl⟩

end Groups

def Onward (k : ℕ) (gm gm' : GroupManager) : Prop :=
  ∀ name g, gm.groups.get name = some g → ∃ g', gm'.groups.get name = some g' ∧ Follows k g g'

theorem Onward.refl (k : ℕ) (gm : GroupManager) : Onward k gm gm :=
  fun _ g hg => ⟨g, hg, Follows.refl k g⟩

theorem Onward.trans {j : ℕ} {gm gm' gm'' : GroupManager} (h : Onward j gm gm')
    (h' : Onward k gm' gm'') : Onward (j + k) gm gm'' := by
  intro name g hg
  obtain ⟨g', hg', hf⟩ := h name g hg
  obtain ⟨g'', hg'', hf'⟩ := h' name g' hg'
  exact ⟨g'', hg'', hf.trans hf'⟩

@[simp] theorem groups_saveLocked (outcome : SaveOutcome) (gm : GroupManager) :
    (saveLocked outcome gm).groups = gm.groups := by
  cases outcome <;> rfl

@[simp] theorem numPartitions_saveLocked (outcome : SaveOutcome) (gm : GroupManager) :
    (saveLocked outcome gm).numPartitions = gm.numPartitions := by
  cases outcome <;> rfl

section Calls

variable (gm : GroupManager)

theorem saveLocked_onward (outcome : SaveOutcome) : Onward 0 gm (saveLocked outcome gm) :=
  fun _ g hg => ⟨g, by simpa using hg, Follows.refl 0 g⟩

theorem setGroup_onward (hfollows : ∀ g, gm.groups.get name = some g → Follows k g g') :
    Onward k gm (setGroup gm name g') := by
  intro name' g hg
  by_cases hname : name' = name
  · exact ⟨g', by simp [setGroup, hname], hfollows g (hname ▸ hg)⟩
  · exact ⟨g, by simp [setGroup, hname, hg], Follows.refl k g⟩

theorem ensureGroup_follows (groupName topic assignor : Str) (g : Group)
    (hget : gm.groups.get groupName = some g) :
    Follows 2 g (ensureGroup gm groupName topic assignor) := by
  simp only [ensureGroup, hget]
  exact (switchTopic_follows g topic).trans (switchAssignor_follows _ _ assignor)

theorem cleanup_stored (visit : Visit) (name : Str) (g : Group) :
    (cleanup visit gm name g).1.groups.get name = some (cleanup visit gm name g).2 := by
  unfold cleanup
  dsimp only
  split
  · simp [setGroup]
  · simp [setGroup]

theorem cleanup_onward (visit : Visit)
    (hfollows : ∀ old, gm.groups.get name = some old → Follows k old g) :
    Onward (k + 1) gm (cleanup visit gm name g).1 := by
  have hset : Onward (k + 1) gm
      (setGroup gm name (cleanupExpired gm.numPartitions visit.now g).1) :=
    setGroup_onward gm (fun old hold => (hfollows old hold).trans (cleanupExpired_follows _ g _))
  unfold cleanup
  dsimp only
  split
  · exact hset.trans (saveLocked_onward _ _)
  · exact hset

/-- Replace a group by one that follows it, and save. -/
theorem store_onward (hget : gm.groups.get name = some g) (hfollows : Follows k g g')
    (outcome : SaveOutcome) : Onward k gm (saveLocked outcome (setGroup gm name g')) := by
  refine (setGroup_onward gm ?_).trans (saveLocked_onward _ outcome)
  intro old hold
  rw [hget] at hold
  cases hold
  exact hfollows

theorem joinGroup_onward (visit : Visit) (groupName topic consumerID assignor : Str) :
    Onward 4 gm (joinGroup visit gm groupName topic consumerID assignor).1 :=
  (cleanup_onward gm visit (ensureGroup_follows gm groupName topic assignor)).trans
    (store_onward _ (cleanup_stored gm visit groupName _) (addMember_follows _ _ _ _) _)

end Calls

section Checks

variable {gm gm' : GroupManager} {visit : Visit} {groupName topic consumerID : Str}
  {generation : Int}

theorem checkMember_onward (gm : GroupManager) (visit : Visit) (groupName topic consumerID : Str)
    (generation : Int) :
    Onward 1 gm (checkMember visit gm groupName topic consumerID generation).1 := by
  unfold checkMember
  cases hget : gm.groups.get groupName with
  | none => exact Onward.refl 1 gm
  | some g =>
    have hclean : Onward 1 gm (cleanup visit gm groupName g).1 := by
      refine cleanup_onward gm visit ?_
      intro old hold
      rw [hget] at hold
      cases hold
      exact Follows.refl 0 g
    dsimp only
    split
    · exact Onward.refl 1 gm
    · split
      · exact hclean
      · split
        · exact hclean
        · exact hclean

/-- What the shared checks establish about the group they let through. -/
theorem checkMember_accepted
    (h : checkMember visit gm groupName topic consumerID generation = (gm', .ok g)) :
    gm'.groups.get groupName = some g ∧ g.topic = topic ∧ g.generation = generation ∧
      (g.members.get consumerID).isSome := by
  unfold checkMember at h
  cases hget : gm.groups.get groupName with
  | none => simp [hget] at h
  | some old =>
    simp only [hget] at h
    split at h
    · simp at h
    · rename_i htopic
      split at h
      · simp at h
      · rename_i hgeneration
        split at h
        · simp at h
        · rename_i hmember
          obtain ⟨rfl, hg⟩ := Prod.mk.inj h
          cases hg
          refine ⟨cleanup_stored gm visit groupName old, ?_, (not_not.mp hgeneration).symm, ?_⟩
          · rw [show (cleanup visit gm groupName old).2.topic = old.topic from
              (cleanupExpired_names gm.numPartitions visit.now old).1]
            exact not_not.mp htopic
          · simpa [Option.isSome_iff_ne_none] using hmember

theorem checked_onward
    (hresult : checkMember visit gm groupName topic consumerID generation = (gm', .ok g))
    (hfollows : Follows 1 g g') (outcome : SaveOutcome) :
    Onward 2 gm (saveLocked outcome (setGroup gm' groupName g')) := by
  have hcheck := checkMember_onward gm visit groupName topic consumerID generation
  rw [hresult] at hcheck
  exact hcheck.trans (store_onward gm' (checkMember_accepted hresult).1 hfollows outcome)

/-- An accepted commit holds its partition under the group's generation. -/
theorem validateCommit_accepted {partition : Int}
    (h : (validateCommit visit gm groupName topic consumerID generation partition).2 = .ok ()) :
    ∃ g, (validateCommit visit gm groupName topic consumerID generation partition).1.groups.get
        groupName = some g ∧ g.topic = topic ∧ g.generation = generation ∧
      partition ∈ assigned g.assignments consumerID := by
  unfold validateCommit at h ⊢
  rcases hresult : checkMember visit gm groupName topic consumerID generation with ⟨gm', _ | g⟩
  · simp [hresult] at h
  · rw [hresult] at h
    obtain ⟨hstored, htopic, hgeneration, -⟩ := checkMember_accepted hresult
    dsimp only at h ⊢
    split at h
    · rename_i hassigned
      rw [if_pos hassigned]
      exact ⟨g, hstored, htopic, hgeneration, hassigned⟩
    · exact absurd h (by simp)

end Checks

inductive Request
  | join (visit : Visit) (groupName topic consumerID assignor : Str)
  | leave (visit : Visit) (groupName topic consumerID : Str) (generation : Int)
  | sync (visit : Visit) (groupName topic consumerID : Str) (generation : Int)
  | heartbeat (visit : Visit) (groupName topic consumerID : Str) (generation : Int)
  | validateCommit (visit : Visit) (groupName topic consumerID : Str) (generation partition : Int)

def Request.visit : Request → Visit
  | .join visit _ _ _ _ => visit
  | .leave visit _ _ _ _ => visit
  | .sync visit _ _ _ _ => visit
  | .heartbeat visit _ _ _ _ => visit
  | .validateCommit visit _ _ _ _ _ => visit

def groupName : Request → Str
  | .join _ name _ _ _ => name
  | .leave _ name _ _ _ => name
  | .sync _ name _ _ _ => name
  | .heartbeat _ name _ _ _ => name
  | .validateCommit _ name _ _ _ _ => name

def serve (gm : GroupManager) : Request → GroupManager
  | .join visit groupName topic consumerID assignor =>
      (joinGroup visit gm groupName topic consumerID assignor).1
  | .leave visit groupName topic consumerID generation =>
      (leaveGroup visit gm groupName topic consumerID generation).1
  | .sync visit groupName topic consumerID generation =>
      (syncGroup visit gm groupName topic consumerID generation).1
  | .heartbeat visit groupName topic consumerID generation =>
      (heartbeat visit gm groupName topic consumerID generation).1
  | .validateCommit visit groupName topic consumerID generation partition =>
      (validateCommit visit gm groupName topic consumerID generation partition).1

def prompt : Visit := ⟨0, 0, .written, .written⟩

def late : Visit := ⟨2 * sessionTimeout, 2 * sessionTimeout, .written, .written⟩

inductive Served (gm : GroupManager) : Request → GroupManager → Prop
  | joined (visit : Visit) (groupName topic consumerID assignor : Str) :
      Served gm (.join visit groupName topic consumerID assignor)
        (joinGroup visit gm groupName topic consumerID assignor).1
  | checked (request : Request) (topic consumerID : Str) (generation : Int) :
      Served gm request
        (checkMember request.visit gm (groupName request) topic consumerID generation).1
  | removed (request : Request) {topic consumerID : Str} {generation : Int} {gm' : GroupManager}
      {g : Group}
      (h : checkMember request.visit gm (groupName request) topic consumerID generation =
        (gm', .ok g)) :
      Served gm request (saveLocked request.visit.finalSave
        (setGroup gm' (groupName request) (removeMember gm'.numPartitions g consumerID)))
  | refreshed (request : Request) {topic consumerID : Str} {generation : Int} {gm' : GroupManager}
      {g : Group}
      (h : checkMember request.visit gm (groupName request) topic consumerID generation =
        (gm', .ok g)) :
      Served gm request (saveLocked request.visit.finalSave
        (setGroup gm' (groupName request) (refreshMember request.visit.beat g consumerID)))

/-- Every request is served in one of these ways. -/
theorem serve_served (gm : GroupManager) (request : Request) :
    Served gm request (serve gm request) := by
  cases request with
  | join visit groupName topic consumerID assignor => exact .joined ..
  | leave visit groupName topic consumerID generation =>
    have hend : Served gm (.leave visit groupName topic consumerID generation)
        (checkMember visit gm groupName topic consumerID generation).1 := .checked ..
    simp only [serve, leaveGroup]
    rcases hresult : checkMember visit gm groupName topic consumerID generation with ⟨gm', _ | g⟩
    · rwa [hresult] at hend
    · exact .removed (.leave visit groupName topic consumerID generation) hresult
  | sync visit groupName topic consumerID generation =>
    have hend : Served gm (.sync visit groupName topic consumerID generation)
        (checkMember visit gm groupName topic consumerID generation).1 := .checked ..
    simp only [serve, syncGroup]
    rcases hresult : checkMember visit gm groupName topic consumerID generation with ⟨gm', _ | g⟩
    · rwa [hresult] at hend
    · exact .refreshed (.sync visit groupName topic consumerID generation) hresult
  | heartbeat visit groupName topic consumerID generation =>
    have hend : Served gm (.heartbeat visit groupName topic consumerID generation)
        (checkMember visit gm groupName topic consumerID generation).1 := .checked ..
    simp only [serve, Groups.heartbeat]
    rcases hresult : checkMember visit gm groupName topic consumerID generation with ⟨gm', _ | g⟩
    · rwa [hresult] at hend
    · exact .refreshed (.heartbeat visit groupName topic consumerID generation) hresult
  | validateCommit visit groupName topic consumerID generation partition =>
    have hend : Served gm
        (.validateCommit visit groupName topic consumerID generation partition)
        (checkMember visit gm groupName topic consumerID generation).1 := .checked ..
    simp only [serve, Groups.validateCommit]
    rcases hresult : checkMember visit gm groupName topic consumerID generation with ⟨gm', _ | g⟩
    · rwa [hresult] at hend
    · rw [hresult] at hend
      dsimp only
      split
      · exact hend
      · exact hend

/-- A request takes no group through more than four generations. -/
theorem Served.onward {gm gm' : GroupManager} {request : Request} (h : Served gm request gm') :
    Onward 4 gm gm' := by
  cases h with
  | joined visit groupName topic consumerID assignor =>
    exact joinGroup_onward gm visit groupName topic consumerID assignor
  | checked _ topic consumerID generation =>
    exact (checkMember_onward gm request.visit _ topic consumerID generation).trans
      (Onward.refl 3 _)
  | removed _ hresult =>
    exact (checked_onward hresult (removeMember_follows _ _ _) _).trans (Onward.refl 2 _)
  | refreshed _ hresult =>
    exact (checked_onward hresult (refreshMember_follows _ _ _) _).trans (Onward.refl 2 _)

end Flux.GroupGenerations
