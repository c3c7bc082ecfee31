import Flux.JsonState

/-!
Consumer groups: membership with lazy session expiry, generations, the two
partition assignors, and the state file the manager saves and reloads. The file
is represented by what a decoder reads from it, so names that are not valid
UTF-8 come back changed; an absent file holds no groups. A call is given the
clock readings it makes and how its saves end.
-/
namespace Flux.Groups

open GoRuntime GoStrings FiniteMap JsonState

structure Group where
  topic : Str
  generation : Int
  assignor : Str
  members : FMap Str Time
  memberOrder : List Str
  assignments : FMap Str (List Int)
  deriving DecidableEq

structure PersistedGroup where
  topic : Str
  generation : Int
  assignor : Str
  memberOrder : List Str
  assignments : FMap Str (List Int)
  members : List (Str × Int)
  deriving DecidableEq

inductive GroupsFile
  | holds (groups : FMap Str PersistedGroup)
  | torn
  deriving DecidableEq

structure GroupManager where
  numPartitions : ℕ
  groups : FMap Str Group
  file : GroupsFile
  deriving DecidableEq

inductive SaveOutcome
  | written
  | unchanged
  | torn
  deriving DecidableEq

structure Visit where
  now : Time
  beat : Time
  expirySave : SaveOutcome
  finalSave : SaveOutcome

inductive GroupError
  | groupNotFound
  | staleGeneration
  | unknownMember
  | partitionNotAssigned
  deriving DecidableEq, Repr

def GroupError.text : GroupError → Str
  | .groupNotFound => lit "group not found"
  | .staleGeneration => lit "stale generation"
  | .unknownMember => lit "unknown member"
  | .partitionNotAssigned => lit "partition not assigned to member"

structure JoinResult where
  generation : Int
  assigned : List Int
  deriving DecidableEq, Repr

def assignorRoundRobin : Str := lit "round_robin"

def assignorRange : Str := lit "range"

/-- `sessionTimeout`, 10 seconds in nanoseconds. -/
def sessionTimeout : Int := 10 * 1000000000

def assigned (assignments : FMap Str (List Int)) (memberID : Str) : List Int :=
  (assignments.get memberID).getD []

def assignRoundRobin (numPartitions : ℕ) (members : List Str) (h : members ≠ []) :
    FMap Str (List Int) :=
  (List.range numPartitions).foldl
    (fun assignments partition =>
      let memberID := members.get
        ⟨partition % members.length, Nat.mod_lt partition (List.length_pos_of_ne_nil h)⟩
      assignments.set memberID (assigned assignments memberID ++ [(partition : Int)]))
    FMap.empty

/-- The loop of `assignRangeLocked` from member number `idx` on. -/
def rangeLoop (base extra : ℕ) : ℕ → ℕ → List Str → FMap Str (List Int) → FMap Str (List Int)
  | _, _, [], assignments => assignments
  | idx, start, memberID :: rest, assignments =>
      let count := if idx < extra then base + 1 else base
      if count = 0 then rangeLoop base extra (idx + 1) start rest (assignments.set memberID [])
      else rangeLoop base extra (idx + 1) (start + count) rest
        (assignments.set memberID ((List.range' start count).map (fun p : ℕ => (p : Int))))

def assignRange (numPartitions : ℕ) (members : List Str) : FMap Str (List Int) :=
  rangeLoop (numPartitions / members.length) (numPartitions % members.length) 0 0 members
    FMap.empty

/-- The assignments `rebalanceLocked` computes. -/
def assign (numPartitions : ℕ) (assignor : Str) (memberOrder : List Str) : FMap Str (List Int) :=
  if h : sortStrings memberOrder = [] then FMap.empty
  else if assignor = assignorRange then assignRange numPartitions (sortStrings memberOrder)
  else assignRoundRobin numPartitions (sortStrings memberOrder) h

def rebalance (numPartitions : ℕ) (g : Group) : Group :=
  { g with assignments := assign numPartitions g.assignor g.memberOrder }

def newGroup (topic assignor : Str) : Group where
  topic := topic
  generation := 1
  assignor := if assignor = [] then assignorRoundRobin else assignor
  members := FMap.empty
  memberOrder := []
  assignments := FMap.empty

def switchTopic (g : Group) (topic : Str) : Group :=
  if g.topic = topic then g
  else { g with
    topic := topic
    members := FMap.empty
    memberOrder := []
    assignments := FMap.empty
    generation := wrap64 (g.generation + 1) }

def switchAssignor (numPartitions : ℕ) (g : Group) (assignor : Str) : Group :=
  if assignor = [] ∨ assignor = g.assignor then g
  else rebalance numPartitions
    { g with assignor := assignor, generation := wrap64 (g.generation + 1) }

def ensureGroup (gm : GroupManager) (groupName topic assignor : Str) : Group :=
  match gm.groups.get groupName with
  | none => newGroup topic assignor
  | some g => switchAssignor gm.numPartitions (switchTopic g topic) assignor

structure ExpiryState where
  members : FMap Str Time
  active : List Str
  removed : Bool

/-- One turn of the loop of `cleanupExpiredLocked`. -/
def expireMember (now : Time) (acc : ExpiryState) (memberID : Str) : ExpiryState :=
  match acc.members.get memberID with
  | none => { acc with removed := true }
  | some lastHeartbeat =>
      if sessionTimeout < timeSub now lastHeartbeat then
        { acc with members := acc.members.del memberID, removed := true }
      else { acc with active := acc.active ++ [memberID] }

def cleanupExpired (numPartitions : ℕ) (now : Time) (g : Group) : Group × Bool :=
  let swept := g.memberOrder.foldl (expireMember now) ⟨g.members, [], false⟩
  let g := { g with members := swept.members, memberOrder := swept.active }
  if swept.removed then
    (rebalance numPartitions { g with generation := wrap64 (g.generation + 1) }, true)
  else (g, false)

/-- A group as `saveLocked` writes it and a decoder reads it. -/
def persistGroup (g : Group) : PersistedGroup where
  topic := coerce g.topic
  generation := g.generation
  assignor := coerce g.assignor
  memberOrder := g.memberOrder.map coerce
  assignments := jsonMap id g.assignments
  members := g.memberOrder.filterMap
    (fun memberID => (g.members.get memberID).map (fun hb => (coerce memberID, unixMilli hb)))

def persist (groups : FMap Str Group) : FMap Str PersistedGroup := jsonMap persistGroup groups

def saveLocked (outcome : SaveOutcome) (gm : GroupManager) : GroupManager :=
  match outcome with
  | .written => { gm with file := .holds (persist gm.groups) }
  | .unchanged => gm
  | .torn => { gm with file := .torn }

def loadGroup (p : PersistedGroup) : Group where
  topic := p.topic
  generation := if p.generation ≤ 0 then 1 else p.generation
  assignor := if p.assignor = [] then assignorRoundRobin else p.assignor
  members := p.members.foldl (fun members m => members.set m.1 (m.2 * 1000000)) FMap.empty
  memberOrder := p.memberOrder
  assignments := p.assignments

def load (file : GroupsFile) : FMap Str Group :=
  match file with
  | .holds groups => groups.mapValues (fun _ p => loadGroup p)
  | .torn => FMap.empty

def newGroupManager (numPartitions : ℕ) (file : GroupsFile) : GroupManager :=
  ⟨numPartitions, load file, file⟩

def setGroup (gm : GroupManager) (groupName : Str) (g : Group) : GroupManager :=
  { gm with groups := gm.groups.set groupName g }

def cleanup (visit : Visit) (gm : GroupManager) (groupName : Str) (g : Group) :
    GroupManager × Group :=
  let swept := cleanupExpired gm.numPartitions visit.now g
  let gm := setGroup gm groupName swept.1
  (if swept.2 then saveLocked visit.expirySave gm else gm, swept.1)

def addMember (numPartitions : ℕ) (now : Time) (g : Group) (consumerID : Str) : Group :=
  match g.members.get consumerID with
  | none => rebalance numPartitions
      { g with
        memberOrder := g.memberOrder ++ [consumerID]
        members := g.members.set consumerID now
        generation := wrap64 (g.generation + 1) }
  | some _ => { g with members := g.members.set consumerID now }

def joinGroup (visit : Visit) (gm : GroupManager) (groupName topic consumerID assignor : Str) :
    GroupManager × JoinResult :=
  let cleaned := cleanup visit gm groupName (ensureGroup gm groupName topic assignor)
  let g := addMember gm.numPartitions visit.now cleaned.2 consumerID
  (saveLocked visit.finalSave (setGroup cleaned.1 groupName g),
    ⟨g.generation, assigned g.assignments consumerID⟩)

def checkMember (visit : Visit) (gm : GroupManager) (groupName topic consumerID : Str)
    (generation : Int) : GroupManager × Except GroupError Group :=
  match gm.groups.get groupName with
  | none => (gm, .error .groupNotFound)
  | some g =>
      if g.topic ≠ topic then (gm, .error .groupNotFound)
      else
        let cleaned := cleanup visit gm groupName g
        if generation ≠ cleaned.2.generation then (cleaned.1, .error .staleGeneration)
        else if (cleaned.2.members.get consumerID).isNone then
          (cleaned.1, .error .unknownMember)
        else (cleaned.1, .ok cleaned.2)

def removeMember (numPartitions : ℕ) (g : Group) (consumerID : Str) : Group :=
  rebalance numPartitions
    { g with
      members := g.members.del consumerID
      memberOrder := g.memberOrder.filter (fun id => id ≠ consumerID)
      generation := wrap64 (g.generation + 1) }

def leaveGroup (visit : Visit) (gm : GroupManager) (groupName topic consumerID : Str)
    (generation : Int) : GroupManager × Except GroupError Unit :=
  match checkMember visit gm groupName topic consumerID generation with
  | (gm, .error e) => (gm, .error e)
  | (gm, .ok g) =>
      (saveLocked visit.finalSave
        (setGroup gm groupName (removeMember gm.numPartitions g consumerID)), .ok ())

def refreshMember (beat : Time) (g : Group) (consumerID : Str) : Group :=
  { g with members := g.members.set consumerID beat }

def syncGroup (visit : Visit) (gm : GroupManager) (groupName topic consumerID : Str)
    (generation : Int) : GroupManager × Except GroupError JoinResult :=
  match checkMember visit gm groupName topic consumerID generation with
  | (gm, .error e) => (gm, .error e)
  | (gm, .ok g) =>
      (saveLocked visit.finalSave (setGroup gm groupName (refreshMember visit.beat g consumerID)),
        .ok ⟨g.generation, assigned g.assignments consumerID⟩)

def heartbeat (visit : Visit) (gm : GroupManager) (groupName topic consumerID : Str)
    (generation : Int) : GroupManager × Except GroupError Unit :=
  match checkMember visit gm groupName topic consumerID generation with
  | (gm, .error e) => (gm, .error e)
  | (gm, .ok g) =>
      (saveLocked visit.finalSave (setGroup gm groupName (refreshMember visit.beat g consumerID)),
        .ok ())

def validateCommit (visit : Visit) (gm : GroupManager) (groupName topic consumerID : Str)
    (generation partition : Int) : GroupManager × Except GroupError Unit :=
  match checkMember visit gm groupName topic consumerID generation with
  | (gm, .error e) => (gm, .error e)
  | (gm, .ok g) =>
      if partition ∈ assigned g.assignments consumerID then (gm, .ok ())
      else (gm, .error .partitionNotAssigned)

end Flux.Groups
