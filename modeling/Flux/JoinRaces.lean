import Flux.CalmRequests
import Flux.ConsumerLoops

/-!
Joining under interleaving. `joinAndSync` repeats SYNC with the generation its
JOIN was answered, so whatever moves the group on in between, the JOIN of a new
member above all, makes every retry fail and ends `run`. As long as the group
stays as it is between a JOIN and its SYNC, and the generation can be held as a
double where the client holds it as one, no consumer ends that way.
-/
namespace Flux.JoinRaces

open GoRuntime GoStrings ClientText Groups GroupExpiry GroupGenerations OffsetCommits Runs
  ConsumerLoops CalmRequests
open CommitFencing hiding step

variable {group : Str} {c : Consumer}

def askedBy (group : Str) (c : Consumer) : Move → Option Request
  | .join visit =>
      match c.stage with
      | .joining => some (.join visit group c.topic c.id c.assignor)
      | _ => none
  | .sync visit =>
      match c.stage with
      | .syncing _ => some (.sync visit group c.topic c.id c.generation)
      | _ => none
  | .heartbeat visit => some (.heartbeat visit group c.topic c.id c.generation)
  | .disconnect visit =>
      if 0 < c.generation then some (.leave visit group c.topic c.id c.generation) else none
  | _ => none

def validation (visit : Visit) (c : Commit) : Request :=
  .validateCommit visit c.groupName c.topic c.consumerID c.generation c.partition

def asked (group : Str) (w : World) : Event → Option Request
  | .move i m => w.consumers[i]?.bind (fun c => askedBy group c m)
  | .validate place visit => w.received[place]?.map (validation visit)
  | .request request => some request
  | .foreign visit c => if c.groupName = group then none else some (validation visit c)
  | _ => none

def served (gm : GroupManager) : Option Request → GroupManager
  | none => gm
  | some request => serve gm request

/-- A move changes the groups by the request it sends. -/
theorem move_groups (group : Str) (co : Coordinator) (c : Consumer) (m : Move) :
    (move group co c m).groupManager = served co.groupManager (askedBy group c m) := by
  cases m with
  | join visit =>
    simp only [move, askedBy]
    cases c.stage with
    | joining => rfl
    | _ => rfl
  | sync visit =>
    simp only [move, askedBy]
    cases c.stage with
    | syncing attempt => rfl
    | _ => rfl
  | heartbeat visit => rfl
  | heartbeatFails => rfl
  | disconnect visit =>
    simp only [move, askedBy]
    split
    · rfl
    · rfl
  | crash => rfl
  | pass =>
    simp only [move, askedBy]
    split
    · rfl
    · rfl
  | offset =>
    simp only [move, askedBy]
    split
    · split
      · rfl
      · rfl
    · rfl
  | consume count =>
    simp only [move, askedBy]
    split
    · rfl
    · rfl
  | eachMessage =>
    simp only [move, askedBy]
    split
    · rfl
    · rfl
  | commit =>
    simp only [move, askedBy]
    split
    · rfl
    · rfl
  | committed =>
    simp only [move, askedBy]
    split
    · rfl
    · rfl
  | commitRefused =>
    simp only [move, askedBy]
    split
    · split
      · rfl
      · rfl
    · rfl

theorem validate_groups (visit : Visit) (s : Server) (c : Commit) :
    (validate visit s c).coordinator.groupManager =
      serve s.coordinator.groupManager (validation visit c) := by
  unfold validate
  simp only [serve, validation]
  rcases validateCommit visit s.coordinator.groupManager c.groupName c.topic c.consumerID
    c.generation c.partition with ⟨gm, _ | ok⟩
  · rfl
  · rfl

theorem step_groups (group : Str) (w : World) (e : Event) :
    (step group w e).server.coordinator.groupManager =
      served w.server.coordinator.groupManager (asked group w e) := by
  cases e with
  | start settings => rfl
  | move i m =>
    simp only [step, asked]
    cases hget : w.consumers[i]? with
    | none => rfl
    | some c => exact move_groups group w.server.coordinator c m
  | validate place visit =>
    simp only [step, asked]
    cases hget : w.received[place]? with
    | none => rfl
    | some c => exact validate_groups visit w.server c
  | write place =>
    simp only [step, asked, CommitFencing.step]
    split
    · rfl
    · rfl
  | lose place => rfl
  | request request => rfl
  | foreign visit c =>
    simp only [step, asked]
    split
    · rfl
    · exact validate_groups visit w.server c

/-- The group is as the consumer's JOIN left it. -/
def Enrolled (group : Str) (gm : GroupManager) (c : Consumer) : Prop :=
  ∃ g, gm.groups.get group = some g ∧ g.topic = c.topic ∧ g.generation = c.generation ∧
    (g.members.get c.id).isSome

/-- A TypeScript consumer is told a generation below `2 ^ 53` by its JOIN. -/
def Exact (group : Str) (w : World) : Event → Prop
  | .move i (.join visit) => ∀ c, w.consumers[i]? = some c → c.sdk = .typescript →
      (joinGroup visit w.server.coordinator.groupManager group c.topic c.id
        c.assignor).2.generation.natAbs < 2 ^ 53
  | _ => True

/-- While a consumer is between its JOIN and its SYNC, the requests to its group
are calm. -/
def Undisturbed (group : Str) (w : World) (e : Event) : Prop :=
  ∀ request, asked group w e = some request → groupName request = group →
    ∀ c ∈ w.consumers, ∀ attempt, c.stage = .syncing attempt →
      ∀ g, w.server.coordinator.groupManager.groups.get group = some g → Calm g request

theorem Enrolled.served {gm : GroupManager} (h : Enrolled group gm c) {o : Option Request}
    (hcalm : ∀ request, o = some request → groupName request = group →
      ∀ g, gm.groups.get group = some g → Calm g request) : Enrolled group (served gm o) c := by
  cases o with
  | none => exact h
  | some request =>
    obtain ⟨g, hg, htopic, hgeneration, hmember⟩ := h
    by_cases hname : groupName request = group
    · have hget : gm.groups.get (groupName request) = some g := by rw [hname, hg]
      obtain ⟨g', hg', hsteady⟩ := serve_calm hget (hcalm request rfl hname g hg)
      rw [hname] at hg'
      exact ⟨g', hg', hsteady.topic.trans htopic, hsteady.generation.trans hgeneration,
        hsteady.members c.id hmember⟩
    · refine ⟨g, ?_, htopic, hgeneration, hmember⟩
      exact (serve_other gm request (Ne.symm hname)).trans hg

theorem addMember_member (n : ℕ) (now : Time) (g : Group) (id : Str) :
    ((addMember n now g id).members.get id).isSome := by
  unfold addMember
  split
  · simp [rebalance]
  · simp

theorem addMember_topic (n : ℕ) (now : Time) (g : Group) (id : Str) :
    (addMember n now g id).topic = g.topic := by
  unfold addMember
  split
  · rfl
  · rfl

theorem switchTopic_topic (g : Group) (topic : Str) : (switchTopic g topic).topic = topic := by
  unfold switchTopic
  split
  · assumption
  · rfl

theorem switchAssignor_topic (n : ℕ) (g : Group) (assignor : Str) :
    (switchAssignor n g assignor).topic = g.topic := by
  unfold switchAssignor
  split
  · rfl
  · rfl

theorem ensureGroup_topic (gm : GroupManager) (name topic assignor : Str) :
    (ensureGroup gm name topic assignor).topic = topic := by
  unfold ensureGroup
  split
  · rfl
  · rw [switchAssignor_topic, switchTopic_topic]

/-- A JOIN enrols the consumer whatever group it finds. -/
theorem enrolled_joined (group : Str) (gm : GroupManager) (visit : Visit) (c : Consumer)
    (hexact : c.sdk = .typescript →
      (joinGroup visit gm group c.topic c.id c.assignor).2.generation.natAbs < 2 ^ 53) :
    Enrolled group (joinGroup visit gm group c.topic c.id c.assignor).1
      (joined c (joinGroup visit gm group c.topic c.id c.assignor).2) := by
  refine ⟨_, by simp [joinGroup, setGroup], ?_, (number_of_small hexact).symm,
    addMember_member _ _ _ _⟩
  refine (addMember_topic _ _ _ _).trans ?_
  exact (cleanupExpired_names _ _ _).1.trans (ensureGroup_topic gm group c.topic c.assignor)

theorem synced_enrolled {gm : GroupManager} {visit : Visit} (h : Enrolled group gm c)
    (hfresh : ∀ g, gm.groups.get group = some g → Fresh visit.now g) (attempt : ℕ) :
    ∃ todo, (synced c attempt
      (syncGroup visit gm group c.topic c.id c.generation).2).stage = .polling todo := by
  obtain ⟨g, hg, htopic, hgeneration, hmember⟩ := h
  have hcheck := checkMember_enrolled hg (hfresh g hg) htopic hgeneration hmember
  refine ⟨(assigned g.assignments c.id).map (number c.sdk), ?_⟩
  simp [syncGroup, hcheck, synced]

/-- A move that is neither JOIN nor SYNC leaves a consumer where it stood, or
takes it to a stage that does not wait for SYNC. -/
theorem move_seat (group : Str) (co : Coordinator) (c : Consumer) {m : Move}
    (hjoin : ∀ visit, m ≠ .join visit) (hsync : ∀ visit, m ≠ .sync visit) :
    ((move group co c m).consumer.toSettings = c.toSettings ∧
      (move group co c m).consumer.generation = c.generation ∧
      (move group co c m).consumer.stage = c.stage) ∨
    ((move group co c m).consumer.stage ≠ .mismatched ∧
      ∀ attempt, (move group co c m).consumer.stage ≠ .syncing attempt) := by
  cases m with
  | join visit => exact absurd rfl (hjoin visit)
  | sync visit => exact absurd rfl (hsync visit)
  | heartbeat visit => exact Or.inl ⟨rfl, rfl, rfl⟩
  | heartbeatFails => exact Or.inl ⟨rfl, rfl, rfl⟩
  | pass =>
    simp only [move]
    split
    · refine Or.inr ?_
      unfold nextPass
      split
      · exact ⟨nofun, nofun⟩
      · split
        · split
          · exact ⟨nofun, nofun⟩
          · exact ⟨nofun, nofun⟩
        · exact ⟨nofun, nofun⟩
    · exact Or.inl ⟨rfl, rfl, rfl⟩
  | offset =>
    simp only [move]
    split
    · split
      · exact Or.inr ⟨nofun, nofun⟩
      · exact Or.inr ⟨nofun, nofun⟩
    · exact Or.inl ⟨rfl, rfl, rfl⟩
  | consume count =>
    simp only [move]
    split
    · cases count with
      | zero => exact Or.inr ⟨nofun, nofun⟩
      | succ k => exact Or.inr ⟨nofun, nofun⟩
    · exact Or.inl ⟨rfl, rfl, rfl⟩
  | eachMessage =>
    simp only [move]
    split
    · rename_i records todo _
      cases records with
      | nil => exact Or.inr ⟨nofun, nofun⟩
      | cons o rest => exact Or.inr ⟨nofun, nofun⟩
    · exact Or.inl ⟨rfl, rfl, rfl⟩
  | commit =>
    simp only [move]
    split
    · exact Or.inl ⟨rfl, rfl, rfl⟩
    · exact Or.inl ⟨rfl, rfl, rfl⟩
  | committed =>
    simp only [move]
    split
    · exact Or.inr ⟨nofun, nofun⟩
    · exact Or.inl ⟨rfl, rfl, rfl⟩
  | commitRefused =>
    simp only [move]
    split
    · split
      · exact Or.inr ⟨nofun, nofun⟩
      · exact Or.inr ⟨nofun, nofun⟩
    · exact Or.inl ⟨rfl, rfl, rfl⟩
  | disconnect visit =>
    simp only [move]
    split
    · exact Or.inl ⟨rfl, rfl, rfl⟩
    · exact Or.inl ⟨rfl, rfl, rfl⟩
  | crash => exact Or.inr ⟨nofun, nofun⟩

def Seated (group : Str) (gm : GroupManager) (c : Consumer) : Prop :=
  c.stage ≠ .mismatched ∧ ∀ attempt, c.stage = .syncing attempt → Enrolled group gm c

/-- A consumer's own move keeps it seated. -/
theorem move_seated {co : Coordinator} (m : Move) (h : Seated group co.groupManager c)
    (hcalm : ∀ request, askedBy group c m = some request → groupName request = group →
      ∀ attempt, c.stage = .syncing attempt →
        ∀ g, co.groupManager.groups.get group = some g → Calm g request)
    (hexact : ∀ visit, m = .join visit → c.sdk = .typescript →
      (joinGroup visit co.groupManager group c.topic c.id c.assignor).2.generation.natAbs <
        2 ^ 53) :
    Seated group (served co.groupManager (askedBy group c m)) (move group co c m).consumer := by
  have hstay : Seated group (served co.groupManager (askedBy group c m)) c := by
    refine ⟨h.1, ?_⟩
    intro attempt hstage
    exact (h.2 attempt hstage).served (fun r hr hname g hg => hcalm r hr hname attempt hstage g hg)
  by_cases hjoin : ∃ visit, m = .join visit
  · obtain ⟨visit, rfl⟩ := hjoin
    simp only [move, askedBy] at hstay ⊢
    cases hstage : c.stage with
    | joining =>
      exact ⟨by simp [joined], fun _ _ => enrolled_joined group co.groupManager visit c
        (hexact visit rfl)⟩
    | _ =>
      rw [hstage] at hstay
      exact hstay
  by_cases hsync : ∃ visit, m = .sync visit
  · obtain ⟨visit, rfl⟩ := hsync
    simp only [move, askedBy] at hstay hcalm ⊢
    cases hstage : c.stage with
    | syncing attempt =>
      rw [hstage] at hcalm
      obtain ⟨todo, htodo⟩ := synced_enrolled (h.2 attempt hstage)
        (fun g hg => hcalm _ rfl rfl attempt rfl g hg) attempt
      refine ⟨?_, ?_⟩
      · show (synced c attempt _).stage ≠ _
        rw [htodo]
        simp
      · intro attempt' hstage'
        exact absurd (htodo.symm.trans hstage') (by simp)
    | _ =>
      rw [hstage] at hstay
      exact hstay
  · rcases move_seat group co c (fun visit heq => hjoin ⟨visit, heq⟩)
      (fun visit heq => hsync ⟨visit, heq⟩) with ⟨hsettings, hgeneration, hstage⟩ | ⟨hno, hnot⟩
    · refine ⟨by rw [hstage]; exact hstay.1, ?_⟩
      intro attempt hattempt
      rw [hstage] at hattempt
      obtain ⟨g, hg, htopic, hgen, hmember⟩ := hstay.2 attempt hattempt
      refine ⟨g, hg, ?_, hgen.trans hgeneration.symm, ?_⟩
      · rw [hsettings]
        exact htopic
      · rw [hsettings]
        exact hmember
    · exact ⟨hno, fun attempt hattempt => absurd hattempt (hnot attempt)⟩

/-- Every undisturbed step leaves all consumers seated. -/
theorem step_welcome (group : Str) (w : World) (e : Event)
    (h : ∀ c ∈ w.consumers, Seated group w.server.coordinator.groupManager c)
    (hundisturbed : Undisturbed group w e) (hexact : Exact group w e) :
    ∀ c ∈ (step group w e).consumers,
      Seated group (step group w e).server.coordinator.groupManager c := by
  rw [step_groups]
  have hkept : ∀ c ∈ w.consumers,
      Seated group (served w.server.coordinator.groupManager (asked group w e)) c := by
    intro c hc
    refine ⟨(h c hc).1, ?_⟩
    intro attempt hstage
    exact ((h c hc).2 attempt hstage).served (fun r hr hname g hg =>
      hundisturbed r hr hname c hc attempt hstage g hg)
  cases e with
  | start settings =>
    intro c hc
    rcases List.mem_append.mp hc with hold | hnew
    · exact hkept c hold
    · rw [List.mem_singleton.mp hnew]
      exact ⟨nofun, nofun⟩
  | move i m =>
    simp only [step, asked] at hkept ⊢
    cases hget : w.consumers[i]? with
    | none =>
      rw [hget] at hkept
      exact hkept
    | some mover =>
      have hmem := List.mem_of_getElem? hget
      rw [hget] at hkept
      intro c hc
      rcases List.mem_or_eq_of_mem_set hc with hold | rfl
      · exact hkept c hold
      · refine move_seated m (h mover hmem) ?_ ?_
        case refine_2 =>
          rintro visit rfl
          exact hexact mover hget
        intro r hr hname attempt hstage g hg
        refine hundisturbed r ?_ hname mover hmem attempt hstage g hg
        simpa [asked, hget] using hr
  | validate place visit =>
    intro c hc
    refine hkept c ?_
    simp only [step] at hc
    split at hc
    · exact hc
    · exact hc
  | write place => exact hkept
  | lose place => exact hkept
  | request request => exact hkept
  | foreign visit c' =>
    intro c hc
    refine hkept c ?_
    simp only [step] at hc
    split at hc
    · exact hc
    · exact hc

/-- In every run in which the group stays as it is between each JOIN and its
SYNC and the TypeScript consumers are told generations below `2 ^ 53`, no consumer
ends with GENERATION_MISMATCH out of `joinAndSync`. -/
theorem joins_survive (group : Str) (co : Coordinator) (events : List Event)
    (hundisturbed : Valid (step group) (fun w e => Undisturbed group w e ∧ Exact group w e)
      (quiet co) events) :
    ∀ c ∈ (run (step group) (quiet co) events).consumers, c.stage ≠ .mismatched := by
  have hseated := run_invariant
    (I := fun w => ∀ c ∈ w.consumers, Seated group w.server.coordinator.groupManager c)
    (fun w e h hallowed => step_welcome group w e h hallowed.1 hallowed.2) (by simp [quiet])
    hundisturbed
  exact fun c hc => (hseated c hc).1

def waits : Stage → Bool
  | .syncing _ => true
  | _ => false

theorem undisturbed_of_nobody {w : World} {e : Event}
    (h : ∀ c ∈ w.consumers, waits c.stage = false) : Undisturbed group w e := by
  intro request _ _ c hc attempt hstage
  have hwaits := h c hc
  rw [hstage] at hwaits
  cases hwaits

def joinAndSync (i : ℕ) : List Event := [.move i (.join prompt), .move i (.sync prompt)]

def inTurn : List Event :=
  .start (onOrders .typescript "c1") :: .start (onOrders .python "c2") ::
    joinAndSync 0 ++ joinAndSync 1 ++
    [.move 0 (.heartbeat prompt), .move 0 .offset, .move 0 (.consume 0), .move 0 .pass] ++
    joinAndSync 0

/-- Two consumers that join in turn both come to poll. -/
theorem joins_survive_inTurn :
    ((run (step (lit "g")) (quiet freshCoordinator) inTurn).consumers.map (fun c => c.stage) =
      [.polling [0], .polling []]) ∧
    ∀ c ∈ (run (step (lit "g")) (quiet freshCoordinator) inTurn).consumers,
      c.stage ≠ .mismatched := by
  refine ⟨by decide, joins_survive (lit "g") freshCoordinator inTurn ?_⟩
  have hfresh : ∀ w : World, ∀ e request g, asked (lit "g") w e = some request →
      w.server.coordinator.groupManager.groups.get (lit "g") = some g → Calm g request →
      Undisturbed (lit "g") w e := by
    intro w e request g hasked hg hcalm r hr _ _ _ _ _ g' hg'
    rw [hasked] at hr
    rw [hg] at hg'
    cases hr
    cases hg'
    exact hcalm
  have hsmall : ∀ (w : World) (i : ℕ) (mover : Consumer), w.consumers[i]? = some mover →
      (joinGroup prompt w.server.coordinator.groupManager (lit "g") mover.topic mover.id
        mover.assignor).2.generation.natAbs < 2 ^ 53 →
      Exact (lit "g") w (.move i (.join prompt)) := by
    intro w i mover hget hlow c hc _
    rw [hget] at hc
    cases hc
    exact hlow
  refine ⟨⟨nofun, trivial⟩, ⟨nofun, trivial⟩, ⟨?_, ?_⟩, ⟨?_, trivial⟩, ⟨?_, ?_⟩, ⟨?_, trivial⟩,
    ⟨?_, trivial⟩, ⟨?_, trivial⟩, ⟨?_, trivial⟩, ⟨?_, trivial⟩, ⟨?_, ?_⟩, ⟨?_, trivial⟩, trivial⟩
  all_goals first
    | exact undisturbed_of_nobody (by decide)
    | exact hfresh _ _ _ _ rfl rfl (by unfold Calm Fresh; decide)
    | exact hsmall _ _ _ rfl (by decide)

/-- The second consumer joins between JOIN and SYNC of the first. -/
def overtaken : List Event :=
  [.start (onOrders .typescript "c1"), .start (onOrders .python "c2"), .move 0 (.join prompt),
    .move 1 (.join prompt)]

/-- The first consumer is told to rejoin, and a third joins before its SYNC. -/
def overtakenAgain : List Event :=
  inTurn.dropLast ++ [.start (onOrders .python "c3"), .move 2 (.join prompt)]

/-- Every retry of SYNC is refused, at start-up as well as on a rejoin. -/
theorem overtaken_join_throws :
    ((run (step (lit "g")) (quiet freshCoordinator)
        (overtaken ++ List.replicate 4 (.move 0 (.sync prompt)))).consumers.map
      (fun c => c.stage) = [.mismatched, .syncing 0]) ∧
    (run (step (lit "g")) (quiet freshCoordinator)
        (overtakenAgain ++ List.replicate 4 (.move 0 (.sync prompt)))).consumers.map
      (fun c => c.stage) = [.mismatched, .polling [], .syncing 0] := by
  refine ⟨by decide, by decide⟩

end Flux.JoinRaces
