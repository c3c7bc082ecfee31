import Flux.CoordinatorFiles
import Flux.GroupGenerations

/-!
Crashes of the coordinator while it saves. A save truncates the file first and then
writes the whole state, so a crash leaves some part of the new text in place of the
old one. As long as the manager holds nothing such a crash costs nothing. After that
every save puts at risk what the manager held before.
-/
namespace Flux.CrashSafety

open GoRuntime GoStrings FiniteMap JsonState Groups GroupExpiry GroupGenerations OffsetCommits
open CoordinatorFiles

def Expiring (now : Time) (g : Group) : Prop :=
  ∃ id ∈ g.memberOrder, alive now g.members id = false

instance (now : Time) (g : Group) : Decidable (Expiring now g) :=
  inferInstanceAs (Decidable (∃ _ ∈ _, _))

def expirySaves (visit : Visit) (gm : GroupManager) (groupName : Str) (g : Group) :
    List (FMap Str Group) :=
  if (cleanupExpired gm.numPartitions visit.now g).2 then
    [(cleanup visit gm groupName g).1.groups]
  else []

def checkSaves (visit : Visit) (gm : GroupManager) (groupName topic : Str) :
    List (FMap Str Group) :=
  match gm.groups.get groupName with
  | none => []
  | some g => if g.topic ≠ topic then [] else expirySaves visit gm groupName g

def changeSaves (visit : Visit) (gm : GroupManager) (groupName topic consumerID : Str)
    (generation : Int) (change : GroupManager → Group → Group) : List (FMap Str Group) :=
  checkSaves visit gm groupName topic ++
    match checkMember visit gm groupName topic consumerID generation with
    | (_, .error _) => []
    | (gm, .ok g) => [(setGroup gm groupName (change gm g)).groups]

def groupSaves (gm : GroupManager) : Request → List (FMap Str Group)
  | .join visit groupName topic consumerID assignor =>
      expirySaves visit gm groupName (ensureGroup gm groupName topic assignor) ++
        [(joinGroup visit gm groupName topic consumerID assignor).1.groups]
  | .leave visit groupName topic consumerID generation =>
      changeSaves visit gm groupName topic consumerID generation
        (fun gm g => removeMember gm.numPartitions g consumerID)
  | .sync visit groupName topic consumerID generation =>
      changeSaves visit gm groupName topic consumerID generation
        (fun _ g => refreshMember visit.beat g consumerID)
  | .heartbeat visit groupName topic consumerID generation =>
      changeSaves visit gm groupName topic consumerID generation
        (fun _ g => refreshMember visit.beat g consumerID)
  | .validateCommit visit groupName topic _ _ _ => checkSaves visit gm groupName topic

def restartGroups (file : Str) : FMap Str Group := load (decodeGroups file)

def restartOffsets (file : Str) : FMap Str (FMap Str (FMap Int Int)) := (loadOffsets file).offsets

section Restarts

variable {V : Type}

def SameMap (m m' : FMap Str V) : Prop := ∀ key, m.get key = m'.get key

/-- Whatever part of the file is written at the crash, a restart finds what it would
have found before or after. -/
def Recovers (restart : Str → FMap Str V) (file before after : Str) : Prop :=
  ∀ k, SameMap (restart (file.take k)) (restart before) ∨
    SameMap (restart (file.take k)) (restart after)

end Restarts

/-- A crash in any save of the request leaves the groups as they were before it or as
they are after it. -/
def GroupsAtomic (gm : GroupManager) (request : Request) : Prop :=
  ∀ groups ∈ groupSaves gm request, Recovers restartGroups (groupsFile groups)
    (groupsFile gm.groups) (groupsFile (serve gm request).groups)

/-- A crash in the save of a commit leaves the offsets as they were before it or as
they are after it. -/
def OffsetsAtomic (om : OffsetManager) (group topic : Str) (partition offset : Int) : Prop :=
  Recovers restartOffsets (offsetsFile (om.commit group topic partition offset))
    (offsetsFile om) (offsetsFile (om.commit group topic partition offset))

/-- The request changes the state file: it joins, or its group is known under its topic
and loses a member or has the one that the request refreshes or removes. -/
def Saving (gm : GroupManager) : Request → Prop
  | .join .. => True
  | .leave visit groupName topic consumerID generation
  | .sync visit groupName topic consumerID generation
  | .heartbeat visit groupName topic consumerID generation =>
      ∃ g ∈ gm.groups.get groupName, g.topic = topic ∧ (Expiring visit.now g ∨
        g.generation = generation ∧ (g.members.get consumerID).isSome)
  | .validateCommit visit groupName topic _ _ _ =>
      ∃ g ∈ gm.groups.get groupName, g.topic = topic ∧ Expiring visit.now g

section Cuts

theorem restartGroups_take (groups : FMap Str Group) (k : ℕ) :
    restartGroups ((groupsFile groups).take k) =
      if k < (groupsText groups).length then FMap.empty else load (.holds (persist groups)) := by
  rw [restartGroups, decodeGroups_take]
  split
  · rfl
  · rfl

theorem restartGroups_file (groups : FMap Str Group) :
    restartGroups (groupsFile groups) = load (.holds (persist groups)) := by
  rw [restartGroups, decodeGroups_file]

theorem restartGroups_empty (groups : FMap Str Group) :
    SameMap FMap.empty (restartGroups (groupsFile groups)) ↔ groups.keys = [] := by
  rw [restartGroups_file, ← jsonMap_eq_empty persistGroup groups]
  simp only [SameMap, load, persist, FMap.get_empty, FMap.get_mapValues, eq_comm (a := none),
    Option.map_eq_none_iff]

theorem restartOffsets_take (om : OffsetManager) (k : ℕ) :
    restartOffsets ((offsetsFile om).take k) =
      if k < (offsetsText om.offsets).length then FMap.empty else persistOffsets om.offsets := by
  rw [restartOffsets, loadOffsets_take]

theorem restartOffsets_file (om : OffsetManager) :
    restartOffsets (offsetsFile om) = persistOffsets om.offsets := by
  have htake := restartOffsets_take om (offsetsFile om).length
  rwa [List.take_length, if_neg (by simp [offsetsFile])] at htake

theorem restartOffsets_empty (om : OffsetManager) :
    SameMap FMap.empty (restartOffsets (offsetsFile om)) ↔ om.offsets.keys = [] := by
  rw [restartOffsets_file, persistOffsets,
    ← jsonMap_eq_empty (jsonMap (fun partitions => collect (numberedEntries partitions)))
      om.offsets]
  simp only [SameMap, FMap.get_empty, eq_comm (a := none)]

end Cuts

section Saves

theorem cleanupExpired_removed (n : ℕ) (now : Time) (g : Group) :
    (cleanupExpired n now g).2 = decide (Expiring now g) := by
  have hsweep := (sweep now g.memberOrder ⟨g.members, [], false⟩).2.2
  unfold cleanupExpired
  dsimp only
  rw [hsweep]
  by_cases hexpiring : Expiring now g
  · have hany : g.memberOrder.any (fun id => !alive now g.members id) = true := by
      simpa [Expiring] using hexpiring
    simp [hany, hexpiring]
  · have hany : g.memberOrder.any (fun id => !alive now g.members id) = false := by
      simpa [Expiring] using hexpiring
    simp [hany, hexpiring]

theorem expirySaves_eq_nil (visit : Visit) (gm : GroupManager) (groupName : Str) (g : Group) :
    expirySaves visit gm groupName g = [] ↔ ¬ Expiring visit.now g := by
  rw [expirySaves, cleanupExpired_removed]
  by_cases hexpiring : Expiring visit.now g
  · simp [hexpiring]
  · simp [hexpiring]

theorem checkSaves_eq_nil (visit : Visit) (gm : GroupManager) (groupName topic : Str) :
    checkSaves visit gm groupName topic = [] ↔
      ¬ ∃ g ∈ gm.groups.get groupName, g.topic = topic ∧ Expiring visit.now g := by
  unfold checkSaves
  cases gm.groups.get groupName with
  | none => simp
  | some g =>
    dsimp only
    by_cases htopic : g.topic = topic
    · simp [htopic, expirySaves_eq_nil]
    · simp [htopic]

/-- When a change of a group saves nothing. -/
theorem changeSaves_eq_nil (visit : Visit) (gm : GroupManager) (groupName topic consumerID : Str)
    (generation : Int) (change : GroupManager → Group → Group) :
    changeSaves visit gm groupName topic consumerID generation change = [] ↔
      ¬ ∃ g ∈ gm.groups.get groupName, g.topic = topic ∧ (Expiring visit.now g ∨
        g.generation = generation ∧ (g.members.get consumerID).isSome) := by
  rw [changeSaves, List.append_eq_nil_iff, checkSaves_eq_nil]
  unfold checkMember
  cases gm.groups.get groupName with
  | none => simp
  | some g =>
    by_cases htopic : g.topic = topic
    · by_cases hexpiring : Expiring visit.now g
      · simp [htopic, hexpiring]
      · have hquiet : cleanupExpired gm.numPartitions visit.now g = (g, false) :=
          cleanupExpired_quiet _ _ _ (by rw [cleanupExpired_removed]; simp [hexpiring])
        by_cases hgeneration : generation = g.generation
        · cases hmember : g.members.get consumerID with
          | none => simp [htopic, hexpiring, cleanup, hquiet, hgeneration, hmember]
          | some hb => simp [htopic, hexpiring, cleanup, hquiet, hgeneration, hmember]
        · simp [htopic, hexpiring, cleanup, hquiet, hgeneration, Ne.symm hgeneration]
    · simp [htopic]

theorem groupSaves_eq_nil (gm : GroupManager) (request : Request) :
    groupSaves gm request = [] ↔ ¬ Saving gm request := by
  cases request with
  | join visit groupName topic consumerID assignor => simp [groupSaves, Saving]
  | leave visit groupName topic consumerID generation => exact changeSaves_eq_nil ..
  | sync visit groupName topic consumerID generation => exact changeSaves_eq_nil ..
  | heartbeat visit groupName topic consumerID generation => exact changeSaves_eq_nil ..
  | validateCommit visit groupName topic consumerID generation partition =>
    exact checkSaves_eq_nil ..

def savedFile (gm : GroupManager) (saves : List (FMap Str Group)) : GroupsFile :=
  match saves.getLast? with
  | none => gm.file
  | some groups => decodeGroups (groupsFile groups)

theorem savedFile_append (gm : GroupManager) (saves : List (FMap Str Group))
    (groups : FMap Str Group) : savedFile gm (saves ++ [groups]) = .holds (persist groups) := by
  simp [savedFile, decodeGroups_file]

section Files

variable {visit : Visit} {gm gm' : GroupManager} {groupName topic consumerID : Str}
  {generation : Int}

theorem file_cleanup (hvisit : visit.expirySave = .written) (g : Group) :
    (cleanup visit gm groupName g).1.file = savedFile gm (expirySaves visit gm groupName g) := by
  unfold expirySaves cleanup
  dsimp only
  split
  · rw [hvisit]
    exact (savedFile_append gm [] _).symm
  · rfl

theorem file_checkMember (hvisit : visit.expirySave = .written) :
    (checkMember visit gm groupName topic consumerID generation).1.file =
      savedFile gm (checkSaves visit gm groupName topic) := by
  unfold checkMember checkSaves
  cases gm.groups.get groupName with
  | none => rfl
  | some g =>
    dsimp only
    split
    · rfl
    · rw [← file_cleanup hvisit]
      split
      · rfl
      · split
        · rfl
        · rfl

theorem file_rejected (hvisit : visit.expirySave = .written) {e : GroupError}
    (h : checkMember visit gm groupName topic consumerID generation = (gm', .error e))
    (change : GroupManager → Group → Group) :
    gm'.file =
      savedFile gm (changeSaves visit gm groupName topic consumerID generation change) := by
  have hfile := congrArg (·.1.file) h
  dsimp only at hfile
  rw [changeSaves, h, ← hfile, file_checkMember hvisit]
  simp

theorem file_changed (hvisit : visit.finalSave = .written) {g : Group}
    (h : checkMember visit gm groupName topic consumerID generation = (gm', .ok g))
    (change : GroupManager → Group → Group) :
    (saveLocked visit.finalSave (setGroup gm' groupName (change gm' g))).file =
      savedFile gm (changeSaves visit gm groupName topic consumerID generation change) := by
  rw [changeSaves, h, savedFile_append, hvisit]
  rfl

end Files

/-- When the saves succeed, the state file is what the last of them wrote. -/
theorem file_serve (gm : GroupManager) (request : Request)
    (hexpiry : request.visit.expirySave = .written) (hfinal : request.visit.finalSave = .written) :
    (serve gm request).file = savedFile gm (groupSaves gm request) := by
  cases request with
  | join visit groupName topic consumerID assignor =>
    rw [groupSaves, savedFile_append]
    simp only [serve, joinGroup, show visit.finalSave = .written from hfinal]
    rfl
  | leave visit groupName topic consumerID generation =>
    simp only [serve, leaveGroup, groupSaves]
    rcases hresult : checkMember visit gm groupName topic consumerID generation with ⟨gm', e | g⟩
    · exact file_rejected hexpiry hresult _
    · exact file_changed hfinal hresult (fun gm g => removeMember gm.numPartitions g consumerID)
  | sync visit groupName topic consumerID generation =>
    simp only [serve, syncGroup, groupSaves]
    rcases hresult : checkMember visit gm groupName topic consumerID generation with ⟨gm', e | g⟩
    · exact file_rejected hexpiry hresult _
    · exact file_changed hfinal hresult (fun _ g => refreshMember visit.beat g consumerID)
  | heartbeat visit groupName topic consumerID generation =>
    simp only [serve, Groups.heartbeat, groupSaves]
    rcases hresult : checkMember visit gm groupName topic consumerID generation with ⟨gm', e | g⟩
    · exact file_rejected hexpiry hresult _
    · exact file_changed hfinal hresult (fun _ g => refreshMember visit.beat g consumerID)
  | validateCommit visit groupName topic consumerID generation partition =>
    have hfile : (checkMember visit gm groupName topic consumerID generation).1.file = _ :=
      file_checkMember hexpiry
    simp only [serve, Groups.validateCommit, groupSaves]
    rcases hresult : checkMember visit gm groupName topic consumerID generation with ⟨gm', e | g⟩
    · rwa [hresult] at hfile
    · rw [hresult] at hfile
      dsimp only
      split
      · exact hfile
      · exact hfile

/-- A manager without groups saves only a member's first join. -/
theorem groupSaves_empty {gm : GroupManager} {request : Request} (hempty : gm.groups.keys = [])
    {groups : FMap Str Group} (h : groups ∈ groupSaves gm request) :
    groups = (serve gm request).groups := by
  have hnone : ∀ name, gm.groups.get name = none := by
    intro name
    rw [← FMap.not_mem_keys_iff, hempty]
    exact List.not_mem_nil
  cases request with
  | join visit groupName topic consumerID assignor =>
    have hexpiry :
        expirySaves visit gm groupName (ensureGroup gm groupName topic assignor) = [] := by
      rw [expirySaves_eq_nil, ensureGroup, hnone]
      simp [Expiring, newGroup]
    rw [groupSaves, hexpiry, List.nil_append, List.mem_singleton] at h
    exact h
  | leave visit groupName topic consumerID generation =>
    simp [groupSaves, changeSaves, checkSaves, checkMember, hnone] at h
  | sync visit groupName topic consumerID generation =>
    simp [groupSaves, changeSaves, checkSaves, checkMember, hnone] at h
  | heartbeat visit groupName topic consumerID generation =>
    simp [groupSaves, changeSaves, checkSaves, checkMember, hnone] at h
  | validateCommit visit groupName topic consumerID generation partition =>
    simp [groupSaves, checkSaves, hnone] at h

end Saves

theorem keys_serve {gm : GroupManager} {request : Request}
    (h : (serve gm request).groups.keys = []) : gm.groups.keys = [] := by
  refine List.eq_nil_iff_forall_not_mem.mpr (fun name hname => ?_)
  obtain ⟨g, hg⟩ := (gm.groups.mem_keys_iff name).mp hname
  obtain ⟨g', hg', -⟩ := (serve_served gm request).onward name g hg
  have hkey := ((serve gm request).groups.mem_keys_iff name).mpr ⟨g', hg'⟩
  rw [h] at hkey
  exact absurd hkey List.not_mem_nil

theorem keys_commit (om : OffsetManager) (group topic : Str) (partition offset : Int) :
    (om.commit group topic partition offset).offsets.keys ≠ [] := by
  intro hnil
  have hkey : group ∈ (om.commit group topic partition offset).offsets.keys :=
    (FMap.mem_keys_set _ _ _ _).mpr (.inl rfl)
  rw [hnil] at hkey
  exact absurd hkey List.not_mem_nil

/-- A request that saves is atomic only where no group is known. -/
theorem groupsAtomic_iff (gm : GroupManager) (request : Request) :
    GroupsAtomic gm request ↔ (Saving gm request → gm.groups.keys = []) := by
  constructor
  · intro hatomic hsaving
    obtain ⟨groups, hgroups⟩ := List.exists_mem_of_ne_nil _
      (fun hnil => (groupSaves_eq_nil gm request).mp hnil hsaving)
    have hcrash := hatomic groups hgroups 0
    have hnothing : restartGroups ((groupsFile groups).take 0) = FMap.empty := rfl
    rw [hnothing, restartGroups_empty, restartGroups_empty] at hcrash
    rcases hcrash with hbefore | hafter
    · exact hbefore
    · exact keys_serve hafter
  · intro hempty groups hgroups k
    by_cases hsaving : Saving gm request
    · obtain rfl := groupSaves_empty (hempty hsaving) hgroups
      rw [restartGroups_take]
      split
      · exact .inl ((restartGroups_empty gm.groups).mpr (hempty hsaving))
      · exact .inr (fun name => by rw [restartGroups_file])
    · rw [(groupSaves_eq_nil gm request).mpr hsaving] at hgroups
      exact absurd hgroups List.not_mem_nil

theorem offsetsAtomic_iff (om : OffsetManager) (group topic : Str) (partition offset : Int) :
    OffsetsAtomic om group topic partition offset ↔ om.offsets.keys = [] := by
  constructor
  · intro hatomic
    have hcrash := hatomic 0
    have hnothing : restartOffsets
        ((offsetsFile (om.commit group topic partition offset)).take 0) = FMap.empty := rfl
    rw [hnothing, restartOffsets_empty, restartOffsets_empty] at hcrash
    rcases hcrash with hbefore | hafter
    · exact hbefore
    · exact absurd hafter (keys_commit om group topic partition offset)
  · intro hempty k
    rw [restartOffsets_take]
    split
    · exact .inl ((restartOffsets_empty om).mpr hempty)
    · exact .inr (fun name => by rw [restartOffsets_file])

/-- A request whose saves succeed leaves the file that the last of them wrote, and a
crash during a save is harmless exactly while there is nothing to lose. -/
theorem crash_atomic (gm : GroupManager) (request : Request) (om : OffsetManager)
    (group topic : Str) (partition offset : Int) :
    (request.visit.expirySave = .written ∧ request.visit.finalSave = .written →
        (serve gm request).file = savedFile gm (groupSaves gm request)) ∧
      (GroupsAtomic gm request ↔ (Saving gm request → gm.groups.keys = [])) ∧
      (OffsetsAtomic om group topic partition offset ↔ om.offsets.keys = []) :=
  ⟨fun hwritten => file_serve gm request hwritten.1 hwritten.2, groupsAtomic_iff gm request,
    offsetsAtomic_iff om group topic partition offset⟩

def joined : GroupManager :=
  serve (newGroupManager 3 (.holds FMap.empty))
    (.join prompt (lit "group") (lit "orders") (lit "consumer") [])

def beat : Request := .heartbeat prompt (lit "group") (lit "orders") (lit "consumer") 2

def committed : OffsetManager :=
  (OffsetManager.mk FMap.empty).commit (lit "group") (lit "orders") 0 5

/-- A heartbeat's save that is cut off at its start takes the group with it, and a commit's
save the offset committed before. -/
theorem truncated_save_loses :
    ¬ GroupsAtomic joined beat ∧
      ¬ OffsetsAtomic committed (lit "group") (lit "orders") 0 6 := by
  constructor
  · intro hatomic
    have hsaves : groupSaves joined beat = [(serve joined beat).groups] := by rfl
    have hsaved : (serve joined beat).groups ∈ groupSaves joined beat := by
      rw [hsaves]
      exact List.mem_singleton_self _
    rcases hatomic _ hsaved 0 with hbefore | hafter
    · exact absurd (hbefore (lit "group")) (by decide +kernel)
    · exact absurd (hafter (lit "group")) (by decide +kernel)
  · intro hatomic
    rcases hatomic 0 with hbefore | hafter
    · exact absurd (hbefore (lit "group")) (by decide)
    · exact absurd (hafter (lit "group")) (by decide)

end Flux.CrashSafety
