import Flux.ControlCalls

/-!
A broker under way. Connections hand it request lines and its background runtime
ticks; each starts a program, and the programs that are under way take turns in
any order. From a fresh broker no run of careful requests panics, and every
request line is answered.
-/
namespace Flux.BrokerRuns

open GoRuntime GoStrings FiniteMap BrokerConfig PartitionStorage Groups OffsetCommits
open ClusterMetadata Protocol Interleavings BrokerNode ClusterRuntime RequestHandlers
open BrokerSafety RequestSafety ResponseFrames ProgramCalls RequestCalls ControlCalls
open Program (Obeys obeys_bind)

/-- One turn of the loop of `HandleConnection`. -/
def handleLine (env : Surroundings) (line : Str) : Handler Str :=
  match parseRequest line with
  | .error e => pure (err (lit "0") (lit "BAD_REQUEST") e)
  | .ok req => handleRequest env req

/-- What starts a program on the broker. -/
inductive Event
  | line (env : Surroundings) (text : Str)
  | bootstrap (tick : Tick)
  | reconcile (tick : Tick)
  | replicate (tick : Tick)

def Event.program : Event → Handler Str
  | .line env text => handleLine env text
  | .bootstrap tick => do bootstrapPeers tick; pure []
  | .reconcile tick => do reconcileRoles tick; pure []
  | .replicate tick => do stepWorkers tick; pure []

def CarefulLine (line : Str) : Prop := ∀ req, parseRequest line = .ok req → Careful req

theorem carefulLine_iff (line : Str) :
    CarefulLine line ↔ ∀ req ∈ (parseRequest line).toOption, Careful req := by
  unfold CarefulLine
  cases parseRequest line with
  | error e => simp [Except.toOption]
  | ok req => simp [Except.toOption]

def Event.Careful : Event → Prop
  | .line _ text => CarefulLine text
  | _ => True

/-- An event starts its program, or a program under way makes its next call. -/
inductive Moment
  | start (event : Event)
  | advance (i : ℕ)

def Moment.turn : Moment → Turn Broker Panic Str
  | .start event => .start event.program
  | .advance i => .advance i

def runs (b : Broker) (moments : List Moment) : Except Panic (Pool Broker Panic Str) :=
  Pool.exec ⟨b, []⟩ (moments.map Moment.turn)

section Rules

variable {I : Broker → Prop} {total lined : Prop} {guarantee : Broker → Broker → Prop}
  (R : Rules I total lined guarantee)

def Framing : Event → Str → Prop
  | .line _ text, response =>
      ∀ req, parseRequest text = .ok req → Repeatable req ∧ Framed req response
  | _, _ => True

/-- What the event appends to the storage is allowed. -/
def Event.Writes (I : Broker → Prop) (lined : Prop) (guarantee : Broker → Broker → Prop) :
    Event → Prop
  | .line env _ => Stores I lined guarantee env
  | .replicate tick => Replicates I guarantee tick
  | _ => True

include R

theorem obeys_handleLine (env : Surroundings) {line : Str} (hcareful : total → CarefulLine line)
    (hline : lined → OneLine line) (hstores : Stores I lined guarantee env) :
    Obeys I total guarantee (fun response => lined → Framing (.line env line) response)
      (handleLine env line) := by
  unfold handleLine
  cases hparse : parseRequest line with
  | error e =>
    intro _ req hreq
    rw [hparse] at hreq
    cases hreq
  | ok req =>
    have hrepeat : lined → Repeatable req := fun hl => repeatable_of_parse (hline hl) hparse
    refine (responds_handleRequest R env hrepeat (fun ht => hcareful ht req hparse) (fun _ =>
      responds_handleProduce R env hrepeat hstores)).weaken id (fun response hframed hl => ?_)
    intro req' hreq'
    rw [hparse] at hreq'
    cases hreq'
    exact ⟨hrepeat hl, hframed hl⟩

/-- The program of every event obeys the rules of the calls. -/
theorem obeys_program (event : Event) (hcareful : total → event.Careful)
    (hline : ∀ env text, event = .line env text → lined → OneLine text)
    (hwrites : event.Writes I lined guarantee) :
    Obeys I total guarantee (fun response => lined → Framing event response) event.program := by
  cases event with
  | line env text => exact obeys_handleLine R env hcareful (hline env text rfl) hwrites
  | bootstrap tick => exact obeys_bind (keeps_bootstrapPeers R tick) (fun _ _ _ => trivial)
  | reconcile tick => exact obeys_bind (keeps_reconcileRoles R tick) (fun _ _ _ => trivial)
  | replicate tick =>
    exact obeys_bind (keeps_stepWorkers R tick hwrites) (fun _ _ _ => trivial)

end Rules

theorem safe_program (event : Event) (h : event.Careful) :
    Program.Safe Modest (fun _ => True) event.program := by
  refine (obeys_program rules_modest event (fun _ => h) (fun _ _ _ hl => hl.elim) ?_).weaken id
    (fun _ _ => trivial)
  cases event with
  | line env text => exact fun _ _ _ _ _ hb => ⟨hb.groups, hb.factor, hb.natural⟩
  | replicate tick => exact fun _ _ _ _ _ _ _ _ _ _ hb => ⟨hb.groups, hb.factor, hb.natural⟩
  | _ => trivial

/-- Every interleaving moves the broker by calls to single components. -/
theorem runs_touched {b : Broker} {moments : List Moment} {pool : Pool Broker Panic Str}
    (h : runs b moments = .ok pool) : Relation.ReflTransGen Touched b pool.state := by
  refine Pool.exec_confined (I := fun _ => True) (fun _ _ _ _ => trivial) trivial
    (fun p hp => absurd hp List.not_mem_nil) (fun p hp => ?_) h
  obtain ⟨moment, -, hturn⟩ := List.mem_map.mp hp
  cases moment with
  | start event =>
    cases hturn
    refine (obeys_program (rules_touches (fun _ => True) _) event False.elim
      (fun _ _ _ hl => hl.elim) ?_).confined
    cases event with
    | line env text => exact fun _ _ _ _ _ _ => .storage trivial
    | replicate tick => exact fun _ _ _ _ _ _ _ _ _ _ _ => .storage trivial
    | _ => trivial
  | advance i => cases hturn

section Fresh

variable (env : Surroundings) {cfg : Config} (fallbackHost : Str) (fallbackPort : Int)
  (disk : Disk) (file : GroupsFile) (offsets : OffsetManager)

theorem modest_newBroker (hpartitions : intSize * cfg.numPartitions ≤ maxAlloc)
    (hfactor : intSize * cfg.replicationFactor ≤ maxAlloc) :
    Modest (newBroker env cfg fallbackHost fallbackPort disk file offsets) where
  groups := by
    have hsize : intSize = 8 := rfl
    have hmax : (0 : Int) ≤ maxAlloc := by decide
    dsimp only [newBroker, newGroupManager]
    rw [hsize] at hpartitions ⊢
    omega
  factor := hfactor
  natural := by
    refine natural_commanded (fun topic md hget => ?_) (.register ..)
    simp [newRaftMetadataStore] at hget

/-- The run time never refuses what a broker does for careful requests: it goes
through every interleaving of them and answers each. -/
theorem runs_of_careful (hpartitions : intSize * cfg.numPartitions ≤ maxAlloc)
    (hfactor : intSize * cfg.replicationFactor ≤ maxAlloc) (moments : List Moment)
    (hcareful : ∀ event, Moment.start event ∈ moments → event.Careful) :
    ∃ pool, runs (newBroker env cfg fallbackHost fallbackPort disk file offsets) moments =
        .ok pool ∧
      (∀ p ∈ pool.running, ∃ b response, p.run pool.state = .ok (b, response)) ∧
      ∀ env line, CarefulLine line →
        ∃ b response, (handleLine env line).run pool.state = .ok (b, response) := by
  have hfresh : Pool.Good Modest (fun _ : Str => True) (ε := Panic)
      ⟨newBroker env cfg fallbackHost fallbackPort disk file offsets, []⟩ :=
    ⟨modest_newBroker env fallbackHost fallbackPort disk file offsets hpartitions hfactor,
      fun p hp => absurd hp List.not_mem_nil⟩
  have hturns : ∀ p, Turn.start p ∈ moments.map Moment.turn →
      Program.Safe Modest (fun _ => True) p := by
    intro p hp
    obtain ⟨moment, hmem, hturn⟩ := List.mem_map.mp hp
    cases moment with
    | start event =>
      cases hturn
      exact safe_program event (hcareful event hmem)
    | advance i => cases hturn
  obtain ⟨pool, hexec, hgood⟩ := hfresh.exec hturns
  refine ⟨pool, hexec, fun p hp => ?_, fun env line hline => ?_⟩
  · obtain ⟨b, response, hrun, -⟩ := (hgood.running p hp).run hgood.state
    exact ⟨b, response, hrun⟩
  · obtain ⟨b, response, hrun, -⟩ := (safe_program (.line env line) hline).run hgood.state
    exact ⟨b, response, hrun⟩

end Fresh

def quiet : Surroundings where
  clock _ := 0
  polls := []
  storage := StorageAppends.calm 0
  visit := GroupGenerations.prompt
  order keys := keys
  order_perm keys := List.Perm.refl keys

def alone : Config := { defaults with numPartitions := 1, replicationFactor := 1 }

def aloneBroker : Broker :=
  newBroker quiet alone [] 0 FMap.empty (.holds FMap.empty) ⟨FMap.empty⟩

def busy : List Moment :=
  [.start (.line quiet (lit "V1|1|PRODUCE|orders k:v")), .advance 0,
    .start (.line quiet (lit "V1|4|ADMIN_CREATE_TOPIC|orders 3 2")), .advance 1, .advance 0,
    .start (.line quiet (lit "V1|2|CONSUME|orders 0 7")), .advance 2, .advance 1,
    .start (.line quiet (lit "V1|3|BROKER_FETCH|1 orders 0 0 100")), .advance 3, .advance 0]

theorem careful_busy (event : Event) (h : Moment.start event ∈ busy) : event.Careful := by
  simp only [busy, List.mem_cons, Moment.start.injEq, reduceCtorEq, List.not_mem_nil, or_false,
    false_or] at h
  rcases h with rfl | rfl | rfl | rfl <;> exact (carefulLine_iff _).mpr (by decide)

/-- A single broker goes on answering after a busy run. -/
theorem alone_answers :
    ∃ pool, runs aloneBroker busy = .ok pool ∧
      (∀ p ∈ pool.running, ∃ b response, p.run pool.state = .ok (b, response)) ∧
      ∀ env line, CarefulLine line →
        ∃ b response, (handleLine env line).run pool.state = .ok (b, response) :=
  runs_of_careful quiet [] 0 FMap.empty _ _ (by decide) (by decide) busy careful_busy

def panicOf {α : Type 1} : Except Panic α → Option Panic
  | .error e => some e
  | .ok _ => none

/-- A record is produced and then read from an offset below zero. -/
theorem negative_offset_panics :
    panicOf (runs aloneBroker
      ([.start (.line quiet (lit "V1|1|PRODUCE|orders k:v"))] ++ List.replicate 20 (.advance 0) ++
        [.start (.line quiet (lit "V1|2|CONSUME|orders 0 -1"))] ++
        List.replicate 20 (.advance 0))) = some .sliceBounds := by
  decide

end Flux.BrokerRuns
