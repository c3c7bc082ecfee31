import Flux.LeaderAgreement
import Flux.ProgramCalls

/-!
Calls that set up one topic, side by side. `EnsureTopicMetadata` looks whether the
topic is known, creates it, sets one leader after the other and reads it back, and
the calls of other goroutines may run in between; `CreateTopic` replaces whatever
is known of the topic. The metadata that is returned has all its leaders and lasts
as long as the call that sets up the topic has it to itself.
-/
namespace Flux.TopicRaces

open GoRuntime GoStrings ClusterMetadata Interleavings BrokerNode BrokerRuns
open ProgramCalls ControllerSteps TopicCreation LeaderAgreement

inductive Answer
  | ensured (result : Except Str TopicMetadata)
  | created (result : Except Str ApplyResult)

inductive Call
  | ensure (env : Surroundings)
  | create (now : Time) (partitions replicationFactor : Int)

def Call.program (topic : Str) : Call → Handler Answer
  | .ensure env => do
      let result ← ensureTopicMetadata env topic
      pure (.ensured result)
  | .create now partitions replicationFactor => do
      let result ← callCreateTopic now topic partitions replicationFactor
      pure (.created result)

/-- A call starts, or one under way takes its next step; the last step returns. -/
inductive Moment
  | start (call : Call)
  | advance (i : ℕ)

def Moment.turn (topic : Str) : Moment → Turn Broker Panic Answer
  | .start call => .start (call.program topic)
  | .advance i => .advance i

/-- The calls under way, and the metadata that has been returned. -/
structure Race : Type 1 where
  pool : Pool Broker Panic Answer
  returned : List TopicMetadata

variable {topic : Str} {race : Race}

def returns (pool : Pool Broker Panic Answer) : Moment → Option TopicMetadata
  | .start _ => none
  | .advance i =>
      match pool.running[i]? with
      | some (.done (.ensured (.ok md))) => some md
      | _ => none

def Race.step (topic : Str) (race : Race) (moment : Moment) : Except Panic Race :=
  (race.pool.step (moment.turn topic)).map (fun pool =>
    ⟨pool, race.returned ++ (returns race.pool moment).toList⟩)

def Race.exec (topic : Str) (race : Race) : List Moment → Except Panic Race
  | [] => .ok race
  | moment :: rest => (race.step topic moment).bind (fun race => race.exec topic rest)

def begin (b : Broker) : Race := ⟨⟨b, []⟩, []⟩

/-- The metadata that has been returned gives every partition a leader, and it is
still what the store has. -/
structure Lasting (topic : Str) (race : Race) : Prop where
  led : ∀ md ∈ race.returned, ∀ p pm, md.partitions.get p = some pm → 0 ≤ pm.leaderID
  kept : ∀ md ∈ race.returned, ∀ p pm, md.partitions.get p = some pm →
    ∃ pm', (topicOf race.pool.state.controller.metadata topic).partitions.get p = some pm' ∧
      pm'.leaderID = pm.leaderID

def Settled (topic : Str) (b : Broker) : Prop :=
  ∃ md, b.controller.metadata.topics.get topic = some md ∧
    ∀ p pm, md.partitions.get p = some pm → 0 ≤ pm.leaderID

/-- There is a broker to lead. -/
structure Staffed (b : Broker) : Prop where
  enrolled : Enrolled b.controller.metadata
  leader : alive b ≠ [] ∨ 0 ≤ b.localBrokerID

def Empty (a : Answer) : Prop := ∀ md, a ≠ .ensured (.ok md)

/-- An answer that returns nothing but the metadata of the store. -/
def Current (topic : Str) (b : Broker) (a : Answer) : Prop :=
  ∀ md, a = .ensured (.ok md) → b.controller.metadata.topics.get topic = some md

def Inert (p : Handler Answer) (b : Broker) : Prop :=
  Program.Upholds (fun _ _ => True) (fun t u => u = t) (fun _ a => Empty a) p b

def Mute (p : Handler Answer) (b : Broker) : Prop :=
  Program.Upholds (fun _ _ => True) (fun _ _ => True) (fun _ a => Empty a) p b

/-- The topic is set up by a call that shares it with calls without effect only; calls
that find it settled overlap as they like, and an accepted creation runs where no call has
returned metadata or will. -/
def Orderly (topic : Str) (race : Race) : Moment → Prop
  | .start (.ensure _) => race.returned ≠ [] ∨
      (race.pool.state.controller.metadata.topics.get topic = none ∧
        ∀ p ∈ race.pool.running, Inert p race.pool.state) ∨
      (Settled topic race.pool.state ∧ ∀ p ∈ race.pool.running,
        Program.Still (Current topic race.pool.state) p race.pool.state)
  | .start (.create _ partitions replicationFactor) =>
      Refused topic partitions replicationFactor ∨
        (race.returned = [] ∧ ∀ p ∈ race.pool.running, Mute p race.pool.state)
  | .advance _ => True

def OrderlyRun (topic : Str) (race : Race) : List Moment → Prop
  | [] => True
  | moment :: rest => Orderly topic race moment ∧
      ∀ race', race.step topic moment = .ok race' → OrderlyRun topic race' rest

structure Sets (topic : Str) (b : Broker) (a : Answer) : Prop where
  current : Current topic b a
  settled : ∀ md, a = .ensured (.ok md) → Settled topic b

inductive Phase (topic : Str) (race : Race) : Prop
  | idle (none : race.returned = []) (mute : ∀ p ∈ race.pool.running, Mute p race.pool.state)
  | setup (none : race.returned = []) (p : Handler Answer) (rest : List (Handler Answer))
      (running : race.pool.running.Perm (p :: rest))
      (sets : Program.Yields (Sets topic) p race.pool.state)
      (inert : ∀ q ∈ rest, Inert q race.pool.state)
  | served (settled : Settled topic race.pool.state)
      (returned : ∀ md ∈ race.returned,
        race.pool.state.controller.metadata.topics.get topic = some md)
      (still : ∀ p ∈ race.pool.running,
        Program.Still (Current topic race.pool.state) p race.pool.state)

/-- No call registers or fences a broker. -/
def SameBrokers (b b' : Broker) : Prop :=
  b'.controller.metadata.brokers = b.controller.metadata.brokers ∧
    b'.localBrokerID = b.localBrokerID

section Programs

variable {p : Handler Answer} {b b' : Broker} {topic : Str}

theorem Inert.anywhere (h : Inert p b) (b' : Broker) : Inert p b' :=
  h.others (fun _ _ _ _ ha => ha) (.single trivial)

theorem Mute.anywhere (h : Mute p b) (b' : Broker) : Mute p b' :=
  h.others (fun _ _ _ _ ha => ha) (.single trivial)

theorem Inert.mute (h : Inert p b) : Mute p b :=
  h.mono (fun _ _ => id) (fun _ _ _ => trivial) (fun _ _ => id)

theorem mute_create (now : Time) (partitions replicationFactor : Int) (b : Broker) :
    Mute ((Call.create now partitions replicationFactor).program topic) b := by
  have hcreate : Program.Upholds (fun _ _ => True) (fun _ _ => True) (fun _ _ => True)
      (callCreateTopic now topic partitions replicationFactor) b :=
    Program.upholds_atomically (fun _ _ _ _ _ => ⟨trivial, trivial⟩)
  exact Program.upholds_bind hcreate (fun _ _ _ md => Answer.noConfusion)

theorem Inert.still (h : Inert p b) : Program.Still (Current topic b') p b := by
  refine h.mono (fun _ _ hfalse => hfalse.elim) (fun _ _ => id) (fun _ a ha md hmd => ?_)
  exact absurd hmd (ha md)

/-- A creation that is refused changes nothing. -/
theorem inert_create (now : Time) {partitions replicationFactor : Int}
    (hrefused : Refused topic partitions replicationFactor) (b : Broker) :
    Inert ((Call.create now partitions replicationFactor).program topic) b := by
  have hcreate : Program.Upholds (fun _ _ => True) (fun t u => u = t) (fun _ _ => True)
      (callCreateTopic now topic partitions replicationFactor) b := by
    refine Program.upholds_atomically (fun t _ u a hop => ⟨?_, trivial⟩)
    cases hr : createTopic now t.controller topic partitions replicationFactor with
    | error e =>
      rw [hr] at hop
      cases hop
    | ok r =>
      rw [hr] at hop
      cases hop
      rcases createTopic_cases hr with ⟨-, e, rfl⟩ | ⟨⟨hname, hcount, hfactor, -⟩, -⟩
      · rfl
      · rcases hrefused with hempty | hnone | hnone
        · exact absurd hempty hname
        · omega
        · omega
  exact Program.upholds_bind hcreate (fun _ _ _ md => Answer.noConfusion)

/-- A topic that is settled is only read. -/
theorem still_ensure (env : Surroundings) (h : Settled topic b) :
    Program.Still (Current topic b) ((Call.ensure env).program topic) b := by
  obtain ⟨md, hmd, -⟩ := h
  have hread : Program.Upholds (fun _ _ => False) (fun t u => u = t)
      (fun _ r => ∀ md', r = .ok md' → md' = md) (ensureTopicMetadata env topic) b := by
    unfold ensureTopicMetadata
    split
    · exact fun md' herror => by cases herror
    · have hsnapshot : Program.Upholds (fun _ _ => False) (fun t u => u = t)
          (fun _ metadata => metadata = b.controller.metadata) snapshot b :=
        Program.upholds_modify (fun t halone => ⟨rfl, by rw [Program.alone halone]⟩)
      refine Program.upholds_bind hsnapshot ?_
      rintro b' metadata rfl
      rw [hmd]
      rintro md' ⟨⟩
      rfl
  refine Program.upholds_bind hread (fun _ r hr md' hmd' => ?_)
  cases hmd'
  rw [hr md' rfl, hmd]

theorem Staffed.keep (h : Staffed b) (hsame : SameBrokers b b') : Staffed b' := by
  refine ⟨fun id broker hget => ?_, ?_⟩
  · rw [hsame.1] at hget
    exact h.enrolled id broker hget
  · have halive : alive b' = alive b := by
      unfold alive
      rw [unfenced_congr hsame.1, hsame.1]
    rw [halive, hsame.2]
    exact h.leader

theorem confined_create (now : Time) (partitions replicationFactor : Int) :
    Program.Confined (fun _ => True) SameBrokers
      (callCreateTopic now topic partitions replicationFactor) := by
  refine Program.obeys_mapping (fun ht => ht.elim) (fun b r _ hr => ⟨?_, trivial⟩)
  rcases createTopic_cases hr with ⟨-, e, rfl⟩ | ⟨-, result, rfl⟩
  · exact ⟨rfl, rfl⟩
  · exact ⟨rfl, rfl⟩

/-- Calls for one topic leave the brokers alone. -/
theorem confined_program (call : Call) :
    Program.Confined (fun _ => True) SameBrokers (call.program topic) := by
  cases call with
  | ensure env =>
    have hreads : Reads (fun _ => True) False False SameBrokers :=
      ⟨False.elim, False.elim, fun _ _ => ⟨rfl, rfl⟩⟩
    refine Program.obeys_bind (obeys_ensuring hreads env (fun _ _ _ _ =>
      (confined_create _ _ _).weaken id (fun _ _ hl => hl.elim))
      (fun now partition leaderID isr => ?_)) (fun _ _ => trivial)
    refine Program.obeys_modify (fun b _ => ⟨⟨?_, rfl⟩, fun hl => hl.elim⟩)
    dsimp only
    rcases setPartitionLeader_cases now b.controller topic partition leaderID isr with
      ⟨-, e, hcall⟩ | ⟨md, pm, r, -, -, -, -, -, hcall⟩
    · rw [hcall]
    · rw [hcall]
      rfl
  | create now partitions replicationFactor =>
    exact Program.obeys_bind (confined_create _ _ _) (fun _ _ => trivial)

theorem Staffed.candidate_nonneg (h : Staffed b) {env : Surroundings} {id : Int}
    (hid : id ∈ candidates env b) : 0 ≤ id := by
  rw [mem_candidates] at hid
  split at hid
  · rename_i hnone
    rw [List.mem_singleton.mp hid]
    exact h.leader.resolve_left (fun hne => hne hnone)
  · obtain ⟨broker, hbroker, -⟩ := mem_alive.mp hid
    exact (h.enrolled id broker hbroker).2

/-- A call that finds the topic unknown, alone, sets it up. -/
theorem ensure_sets (env : Surroundings) (h : Staffed b)
    (hunknown : b.controller.metadata.topics.get topic = none) :
    Program.Yields (Sets topic) ((Call.ensure env).program topic) b := by
  refine Program.upholds_bind (ensureTopicMetadata_creates env hunknown) (fun b' r hr => ?_)
  cases r with
  | error e => exact ⟨nofun, nofun⟩
  | ok md =>
    obtain ⟨-, hopened, hmd⟩ := hr
    refine ⟨fun md' hmd' => ?_, fun md' hmd' => ⟨md, hmd, ?_⟩⟩
    · cases hmd'
      exact hmd
    · intro p pm hpm
      obtain ⟨md'', hmd'', hpartitions⟩ := hopened.opened
      rw [hmd] at hmd''
      cases hmd''
      rw [hpartitions] at hpm
      split at hpm
      · cases hpm
        rw [stage, if_pos (by omega)]
        exact h.candidate_nonneg (dealt_mem (candidates_ne_nil env b) p)
      · cases hpm

end Programs

/-- What has been returned is what the store has. -/
theorem Phase.current (h : Phase topic race) :
    ∀ md ∈ race.returned, race.pool.state.controller.metadata.topics.get topic = some md := by
  intro md hmd
  cases h with
  | idle none mute =>
    rw [none] at hmd
    cases hmd
  | setup none p rest running sets inert =>
    rw [none] at hmd
    cases hmd
  | served settled returned still => exact returned md hmd

theorem Phase.settled (h : Phase topic race) (hreturned : race.returned ≠ []) :
    Settled topic race.pool.state ∧
      ∀ p ∈ race.pool.running, Program.Still (Current topic race.pool.state) p race.pool.state := by
  cases h with
  | idle none mute => exact absurd none hreturned
  | setup none p rest running sets inert => exact absurd none hreturned
  | served settled returned still => exact ⟨settled, still⟩

theorem Phase.lasting (h : Phase topic race) : Lasting topic race := by
  have hled : ∀ md ∈ race.returned, ∀ p pm, md.partitions.get p = some pm → 0 ≤ pm.leaderID := by
    intro md hmd
    obtain ⟨⟨md', hmd', hled⟩, -⟩ := h.settled (List.ne_nil_of_mem hmd)
    rw [h.current md hmd] at hmd'
    exact Option.some.inj hmd' ▸ hled
  refine ⟨hled, fun md hmd p pm hpm => ⟨pm, ?_, rfl⟩⟩
  rw [topicOf, h.current md hmd, Option.getD_some]
  exact hpm

section Steps

variable {topic : Str} {race race' : Race}

theorem step_start {call : Call} (h : race.step topic (.start call) = .ok race') :
    race' = ⟨{ race.pool with running := race.pool.running ++ [call.program topic] },
      race.returned⟩ := by
  cases h
  simp [returns]

theorem Phase.start_ensure (h : Phase topic race) (hstaffed : Staffed race.pool.state)
    (env : Surroundings) (horderly : Orderly topic race (.start (.ensure env)))
    (hstep : race.step topic (.start (.ensure env)) = .ok race') : Phase topic race' := by
  rw [step_start hstep]
  have hserved : Settled topic race.pool.state → (∀ p ∈ race.pool.running,
      Program.Still (Current topic race.pool.state) p race.pool.state) →
      Phase topic ⟨{ race.pool with
        running := race.pool.running ++ [(Call.ensure env).program topic] }, race.returned⟩ := by
    intro hsettled hstill
    refine .served hsettled h.current (fun p hp => ?_)
    rcases List.mem_append.mp hp with hold | hnew
    · exact hstill p hold
    · rw [List.mem_singleton.mp hnew]
      exact still_ensure env hsettled
  rcases horderly with hne | ⟨hunknown, hinert⟩ | ⟨hsettled, hstill⟩
  · obtain ⟨hsettled, hstill⟩ := h.settled hne
    exact hserved hsettled hstill
  · have hnone : race.returned = [] := by
      by_contra hne
      obtain ⟨⟨md, hmd, -⟩, -⟩ := h.settled hne
      rw [hunknown] at hmd
      cases hmd
    exact .setup hnone _ race.pool.running List.perm_append_comm
      (ensure_sets env hstaffed hunknown) hinert
  · exact hserved hsettled hstill

theorem Phase.start_create (h : Phase topic race) (now : Time) (partitions replicationFactor : Int)
    (horderly : Orderly topic race (.start (.create now partitions replicationFactor)))
    (hstep : race.step topic (.start (.create now partitions replicationFactor)) = .ok race') :
    Phase topic race' := by
  rw [step_start hstep]
  have hidle : race.returned = [] → (∀ p ∈ race.pool.running, Mute p race.pool.state) →
      Phase topic ⟨{ race.pool with running := race.pool.running ++
        [(Call.create now partitions replicationFactor).program topic] }, race.returned⟩ := by
    intro hnone hmute
    refine .idle hnone (fun p hp => ?_)
    rcases List.mem_append.mp hp with hold | hnew
    · exact hmute p hold
    · rw [List.mem_singleton.mp hnew]
      exact mute_create _ _ _ _
  rcases horderly with hrefused | ⟨hnone, hmute⟩
  · have hinert := inert_create now hrefused
    cases h with
    | idle none mute => exact hidle none mute
    | setup none p rest running sets inert =>
      refine .setup none p (rest ++ [_]) (running.append_right _) sets (fun q hq => ?_)
      rcases List.mem_append.mp hq with hold | hnew
      · exact inert q hold
      · rw [List.mem_singleton.mp hnew]
        exact hinert _
    | served settled returned still =>
      refine .served settled returned (fun p hp => ?_)
      rcases List.mem_append.mp hp with hold | hnew
      · exact still p hold
      · rw [List.mem_singleton.mp hnew]
        exact (hinert _).still
  · exact hidle hnone hmute

def Answer.metadata : Answer → Option TopicMetadata
  | .ensured (.ok md) => some md
  | _ => none

/-- A call under way returns, or takes a step. -/
theorem step_advance {i : ℕ} (h : race.step topic (.advance i) = .ok race') :
    race' = race ∨
    (∃ a, race.pool.running.Perm (.done a :: race'.pool.running) ∧
      race'.pool.state = race.pool.state ∧
      race'.returned = race.returned ++ a.metadata.toList) ∨
    ∃ (β : Type) (op : Broker → Except Panic (Broker × β)) (next : β → Handler Answer) (c : β)
      (rest : List (Handler Answer)), race.pool.running.Perm (.call op next :: rest) ∧
      op race.pool.state = .ok (race'.pool.state, c) ∧
      race'.pool.running.Perm (next c :: rest) ∧ race'.returned = race.returned := by
  unfold Race.step at h
  cases hpool : race.pool.step (.advance i) with
  | error e =>
    simp only [Moment.turn, hpool] at h
    cases h
  | ok pool =>
    simp only [Moment.turn, hpool] at h
    cases h
    rcases Pool.advance_cases hpool with ⟨hnone, rfl⟩ | ⟨a, hdone, hstate, hrunning⟩ |
      ⟨β, op, next, c, rest, hcall, hop, hbefore, hafter⟩
    · exact .inl (by simp [returns, hnone])
    · refine .inr (.inl ⟨a, hrunning, hstate, ?_⟩)
      simp only [returns, hdone]
      rcases a with (e | md) | r
      · rfl
      · rfl
      · rfl
    · exact .inr (.inr ⟨β, op, next, c, rest, hbefore, hop, hafter, by simp [returns, hcall]⟩)

theorem Empty.metadata {a : Answer} (h : Empty a) : a.metadata = none := by
  rcases a with (e | md) | r
  · rfl
  · exact absurd rfl (h md)
  · rfl

/-- A call returns. -/
theorem Phase.returning (h : Phase topic race) {a : Answer}
    (hrunning : race.pool.running.Perm (.done a :: race'.pool.running))
    (hstate : race'.pool.state = race.pool.state)
    (hreturned : race'.returned = race.returned ++ a.metadata.toList) : Phase topic race' := by
  have hmem : .done a ∈ race.pool.running := hrunning.symm.subset (List.mem_cons_self ..)
  have hothers : ∀ p ∈ race'.pool.running, p ∈ race.pool.running := fun p hp =>
    hrunning.symm.subset (List.mem_cons_of_mem _ hp)
  cases h with
  | idle none mute =>
    have hempty : Empty a := mute _ hmem
    refine .idle ?_ (fun p hp => hstate ▸ mute p (hothers p hp))
    rw [hreturned, none, hempty.metadata]
    rfl
  | setup none p rest running sets inert =>
    rcases perm_cons_cases running hrunning with ⟨rfl, hrest⟩ | ⟨others, hrest, hrest'⟩
    · have hsets : Sets topic race.pool.state a := sets
      have hinert : ∀ p ∈ race'.pool.running, Inert p race'.pool.state := fun p hp =>
        hstate ▸ inert p (hrest.subset hp)
      rcases a with (e | md) | r
      · exact .idle (by rw [hreturned, none]; rfl) (fun p hp => (hinert p hp).mute)
      · refine .served (hstate ▸ hsets.settled md rfl) ?_ (fun _ hp => (hinert _ hp).still)
        intro md' hmd'
        rw [hreturned, none] at hmd'
        cases List.mem_singleton.mp hmd'
        exact hstate ▸ hsets.current md rfl
      · exact .idle (by rw [hreturned, none]; rfl) (fun p hp => (hinert p hp).mute)
    · have hempty : Empty a := inert _ (hrest.symm.subset (List.mem_cons_self ..))
      refine .setup ?_ p others hrest' (hstate ▸ sets) (fun q hq => ?_)
      · rw [hreturned, none, hempty.metadata]
        rfl
      · exact hstate ▸ inert q (hrest.symm.subset (List.mem_cons_of_mem _ hq))
  | served settled returned still =>
    refine .served (hstate ▸ settled) (fun md hmd => ?_)
      (fun p hp => hstate ▸ still p (hothers p hp))
    rw [hreturned] at hmd
    rw [hstate]
    rcases List.mem_append.mp hmd with hold | hnew
    · exact returned md hold
    · have hcurrent : Current topic race.pool.state a := still _ hmem
      rcases a with (e | md') | r
      · cases hnew
      · cases List.mem_singleton.mp hnew
        exact hcurrent md rfl
      · cases hnew

/-- A call under way takes a step. -/
theorem Phase.calling (h : Phase topic race) {β : Type}
    {op : Broker → Except Panic (Broker × β)} {next : β → Handler Answer} {c : β}
    {rest' : List (Handler Answer)} (hbefore : race.pool.running.Perm (.call op next :: rest'))
    (hop : op race.pool.state = .ok (race'.pool.state, c))
    (hafter : race'.pool.running.Perm (next c :: rest'))
    (hreturned : race'.returned = race.returned) : Phase topic race' := by
  have hmem : .call op next ∈ race.pool.running := hbefore.symm.subset (List.mem_cons_self ..)
  have hothers : ∀ p ∈ rest', p ∈ race.pool.running := fun p hp =>
    hbefore.symm.subset (List.mem_cons_of_mem _ hp)
  cases h with
  | idle none mute =>
    obtain ⟨-, hnext⟩ := mute _ hmem _ .refl _ c hop
    refine .idle (hreturned.trans none) (fun p hp => ?_)
    rcases List.mem_cons.mp (hafter.subset hp) with rfl | hp'
    · exact hnext
    · exact (mute p (hothers p hp')).anywhere _
  | setup none p rest running sets inert =>
    rcases perm_cons_cases running hbefore with ⟨rfl, hrest⟩ | ⟨others, hrest, hrest'⟩
    · refine .setup (hreturned.trans none) (next c) rest' hafter (sets _ .refl _ c hop).2
        (fun q hq => ?_)
      exact (inert q (hrest.subset hq)).anywhere _
    · obtain ⟨hstate, hnext⟩ := inert _ (hrest.symm.subset (List.mem_cons_self ..)) _ .refl _ c hop
      refine .setup (hreturned.trans none) p (next c :: others) ?_ (hstate ▸ sets)
        (fun q hq => ?_)
      · exact (hafter.trans (hrest'.cons _)).trans (List.Perm.swap ..)
      · rcases List.mem_cons.mp hq with rfl | hq'
        · exact hnext
        · exact hstate ▸ inert q (hrest.symm.subset (List.mem_cons_of_mem _ hq'))
  | served settled returned still =>
    obtain ⟨hstate, hnext⟩ := (still _ hmem).next hop
    refine .served (hstate ▸ settled) (hreturned ▸ hstate ▸ returned) (fun p hp => ?_)
    rw [hstate]
    rcases List.mem_cons.mp (hafter.subset hp) with rfl | hp'
    · exact hnext
    · exact still p (hothers p hp')

theorem Phase.step (h : Phase topic race) (hstaffed : Staffed race.pool.state) {moment : Moment}
    (horderly : Orderly topic race moment)
    (hstep : race.step topic moment = .ok race') : Phase topic race' := by
  cases moment with
  | start call =>
    cases call with
    | ensure env => exact h.start_ensure hstaffed env horderly hstep
    | create now partitions replicationFactor =>
      exact h.start_create now partitions replicationFactor horderly hstep
  | advance i =>
    rcases step_advance hstep with rfl | ⟨a, hrunning, hstate, hreturned⟩ |
      ⟨β, op, next, c, rest, hbefore, hop, hafter, hreturned⟩
    · exact h
    · exact h.returning hrunning hstate hreturned
    · exact h.calling hbefore hop hafter hreturned

structure Manned (race : Race) : Prop where
  staffed : Staffed race.pool.state
  confined : ∀ p ∈ race.pool.running, Program.Confined (fun _ => True) SameBrokers p

theorem Manned.step (h : Manned race) {moment : Moment}
    (hstep : race.step topic moment = .ok race') : Manned race' := by
  unfold Race.step at hstep
  cases hpool : race.pool.step (moment.turn topic) with
  | error e =>
    rw [hpool] at hstep
    cases hstep
  | ok pool =>
    rw [hpool] at hstep
    cases hstep
    have hturn : ∀ p, moment.turn topic = .start p →
        Program.Confined (fun _ => True) SameBrokers p := by
      intro p hp
      cases moment with
      | start call =>
        cases hp
        exact confined_program call
      | advance i => cases hp
    obtain ⟨hstate, hrunning⟩ := Pool.step_confined trivial h.confined hturn hpool
    refine ⟨?_, hrunning⟩
    rcases hstate with hsame | hkept
    · exact hsame ▸ h.staffed
    · exact h.staffed.keep hkept

theorem Phase.exec (h : Phase topic race) (hmanned : Manned race) {moments : List Moment}
    (horderly : OrderlyRun topic race moments) (hexec : race.exec topic moments = .ok race') :
    Phase topic race' := by
  induction moments generalizing race with
  | nil =>
    cases hexec
    exact h
  | cons moment rest ih =>
    cases hstep : race.step topic moment with
    | error e =>
      simp only [Race.exec, hstep] at hexec
      cases hexec
    | ok mid =>
      simp only [Race.exec, hstep] at hexec
      exact ih (h.step hmanned.staffed horderly.1 hstep) (hmanned.step hstep)
        (horderly.2 mid hstep) hexec

end Steps

/-- In every interleaving in which the call that sets up the topic has it to itself, what
is returned has its leaders and lasts. -/
theorem metadata_lasts {topic : Str} {b : Broker} (hb : Staffed b) {moments : List Moment}
    (horderly : OrderlyRun topic (begin b) moments) {race : Race}
    (hexec : (begin b).exec topic moments = .ok race) : Lasting topic race := by
  have hidle : Phase topic (begin b) := .idle rfl (fun _ hp => absurd hp List.not_mem_nil)
  exact (hidle.exec ⟨hb, fun _ hp => absurd hp List.not_mem_nil⟩ horderly hexec).lasting

def firstLeaders : Except Panic Race → List (Option Int)
  | .error _ => []
  | .ok race =>
      race.returned.map (fun md => (md.partitions.get 0).map PartitionMetadata.leaderID)

theorem exec_of_firstLeaders {run : Except Panic Race} {leaders : List (Option Int)}
    (h : firstLeaders run = leaders) (hne : leaders ≠ []) :
    ∃ race, run = .ok race ∧
      race.returned.map (fun md => (md.partitions.get 0).map PartitionMetadata.leaderID) =
        leaders := by
  cases run with
  | error e => exact absurd h.symm hne
  | ok race => exact ⟨race, rfl, h⟩

theorem orderlyRun_append {front back : List Moment} (h : OrderlyRun topic race front)
    (hback : ∀ race', race.exec topic front = .ok race' → OrderlyRun topic race' back) :
    OrderlyRun topic race (front ++ back) := by
  induction front generalizing race with
  | nil => exact hback race rfl
  | cons moment rest ih =>
    refine ⟨h.1, fun mid hmid => ih (h.2 mid hmid) (fun race' hexec => hback race' ?_)⟩
    simp only [Race.exec, hmid]
    exact hexec

theorem orderlyRun_advance (topic : Str) (race : Race) (n : ℕ) :
    OrderlyRun topic race (List.replicate n (.advance 0)) := by
  induction n generalizing race with
  | zero => trivial
  | succ n ih => exact ⟨trivial, fun race' _ => ih race'⟩

/-- Once metadata has been returned, only an accepted creation is out of order. -/
theorem orderlyRun_returned (hreturned : race.returned ≠ []) {moments : List Moment}
    (hcreate : ∀ now partitions replicationFactor,
      .start (.create now partitions replicationFactor) ∈ moments →
        Refused topic partitions replicationFactor) : OrderlyRun topic race moments := by
  induction moments generalizing race with
  | nil => trivial
  | cons moment rest ih =>
    refine ⟨?_, fun race' hstep => ih ?_ (fun now partitions replicationFactor hmem =>
      hcreate _ _ _ (List.mem_cons_of_mem _ hmem))⟩
    · rcases moment with (env | ⟨now, partitions, replicationFactor⟩) | i
      · exact .inl hreturned
      · exact .inl (hcreate _ _ _ (List.mem_cons_self ..))
      · trivial
    · unfold Race.step at hstep
      cases hpool : race.pool.step (moment.turn topic) with
      | error e =>
        rw [hpool] at hstep
        cases hstep
      | ok pool =>
        rw [hpool] at hstep
        cases hstep
        exact fun hnil => hreturned (List.append_eq_nil_iff.mp hnil).1

def opening : List Moment :=
  .start (.ensure quiet) :: .start (.create 0 0 1) :: List.replicate 8 (.advance 0)

def readers : List Moment :=
  [.start (.ensure quiet), .start (.ensure quiet), .advance 1, .advance 2, .advance 2, .advance 1,
    .advance 0, .advance 0]

/-- Calls that find the topic set up return the same leader. -/
theorem metadata_lasts_readers :
    ∃ race, (begin aloneBroker).exec (lit "orders") (opening ++ readers) = .ok race ∧
      race.returned.map (fun md => (md.partitions.get 0).map PartitionMetadata.leaderID) =
        [some 0, some 0, some 0] ∧ Lasting (lit "orders") race := by
  have hleaders : firstLeaders ((begin aloneBroker).exec (lit "orders") (opening ++ readers)) =
      [some 0, some 0, some 0] := by decide
  have hopening : firstLeaders ((begin aloneBroker).exec (lit "orders") opening) = [some 0] := by
    decide
  obtain ⟨race, hexec, hreturned⟩ := exec_of_firstLeaders hleaders (List.cons_ne_nil _ _)
  have hstaffed : Staffed aloneBroker := ⟨single_enrolled 0, .inl (by decide)⟩
  refine ⟨race, hexec, hreturned, metadata_lasts hstaffed
    (orderlyRun_append ?_ (fun race' hrace' => ?_)) hexec⟩
  · refine ⟨.inr (.inl ⟨rfl, fun _ hp => absurd hp List.not_mem_nil⟩), fun race' _ => ⟨?_, ?_⟩⟩
    · exact .inl (.inr (.inl (Int.le_refl 0)))
    · exact fun race'' _ => orderlyRun_advance _ race'' 8
  · refine orderlyRun_returned ?_ (by simp [readers])
    rw [hrace'] at hopening
    exact fun hnil => by simp [firstLeaders, hnil] at hopening

def overlapping : List Moment :=
  [.start (.ensure quiet), .start (.ensure quiet), .advance 0, .advance 0, .advance 0,
    .advance 1, .advance 1]

/-- It returns metadata without a leader. -/
theorem overlapping_leaderless :
    ∃ race, (begin aloneBroker).exec (lit "orders") overlapping = .ok race ∧
      ¬ Lasting (lit "orders") race := by
  have hleaders : firstLeaders ((begin aloneBroker).exec (lit "orders") overlapping) =
      [some (-1)] := by decide
  obtain ⟨race, hexec, hreturned⟩ := exec_of_firstLeaders hleaders (List.cons_ne_nil _ _)
  refine ⟨race, hexec, fun hlasting => ?_⟩
  obtain ⟨md, hmd, hleader⟩ := List.mem_map.mp (hreturned ▸ List.mem_singleton.mpr rfl)
  obtain ⟨pm, hpm, hid⟩ := Option.map_eq_some_iff.mp hleader
  have hled := hlasting.led md hmd 0 pm hpm
  omega

end Flux.TopicRaces
