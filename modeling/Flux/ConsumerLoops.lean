import Flux.ClientText
import Flux.CommitFencing

/-!
Consumers of the client libraries: the fetch loop that both of them run, next to
the coordinator that answers their requests. A consumer moves by one request,
answer or handler call at a time, and between two of its moves anything else may
happen. COMMIT requests stay on their way until the server takes them up, so one
that was sent may be served late, several times after retries, or never.
What the library reads from an answer it holds as its language holds integers;
the text that a double from 2^53 on is sent with is taken to be that of its value.
-/
namespace Flux.ConsumerLoops

open GoStrings Groups GroupGenerations OffsetCommits CommitFencing ClientText

def number : Sdk → Int → Int
  | .typescript, n => nearestDouble n
  | .python, n => n

theorem number_of_small {sdk : Sdk} {n : Int} (h : sdk = .typescript → n.natAbs < 2 ^ 53) :
    number sdk n = n := by
  cases sdk with
  | typescript => exact nearestDouble_of_small n (h rfl)
  | python => rfl

inductive Stage
  | joining
  /-- JOIN is answered and SYNC was refused `attempt` times. -/
  | syncing (attempt : ℕ)
  /-- The partitions of this pass that are still to be visited. -/
  | polling (todo : List Int)
  | located (partition startOffset : Int) (todo : List Int)
  /-- `last` is the offset the client sees in the last message. -/
  | handling (partition last : Int) (records : List Int) (todo : List Int)
  | committing (partition nextOffset : Int) (todo : List Int)
  | stopped
  /-- GENERATION_MISMATCH was thrown out of `run` by `joinAndSync`. -/
  | mismatched
  deriving DecidableEq

structure Settings where
  sdk : Sdk
  id : Str
  topic : Str
  assignor : Str
  maxRetries : ℕ
  autoRejoin : Bool
  deriving DecidableEq

structure Consumer extends Settings where
  generation : Int
  assigned : List Int
  running : Bool
  rejoinNeeded : Bool
  stage : Stage
  deriving DecidableEq

def newConsumer (settings : Settings) : Consumer :=
  { settings with
    generation := 0
    assigned := []
    running := true
    rejoinNeeded := false
    stage := .joining }

inductive Move
  | join (visit : Visit)
  | sync (visit : Visit)
  | heartbeat (visit : Visit)
  /-- A heartbeat fails on its way, or its answer comes late. -/
  | heartbeatFails
  /-- The head of the while loop. -/
  | pass
  | offset
  | consume (count : ℕ)
  /-- A call of the message handler completes. -/
  | eachMessage
  | commit
  | committed
  | commitRefused
  | disconnect (visit : Visit)
  /-- An exception of a handler or of a request, or the end of the process. -/
  | crash

/-- A record of a partition that was given to a handler. -/
structure Record where
  topic : Str
  partition : Int
  offset : Int
  deriving DecidableEq

structure Outcome where
  consumer : Consumer
  groupManager : GroupManager
  sent : Option Commit
  handled : Option Record

/-- CONSUME at an offset returns the records that follow one another from it. -/
def consecutive (startOffset : Int) (count : ℕ) : List Int :=
  (List.range count).map (fun k : ℕ => startOffset + k)

def stay (co : Coordinator) (c : Consumer) : Outcome := ⟨c, co.groupManager, none, none⟩

/-- `joinAndSync` up to the answer of JOIN. -/
def joined (c : Consumer) (result : JoinResult) : Consumer :=
  { c with generation := number c.sdk result.generation, stage := .syncing 0 }

/-- An answer to SYNC. A refusal is retried with the generation of the JOIN. -/
def synced (c : Consumer) (attempt : ℕ) : Except GroupError JoinResult → Consumer
  | .ok result =>
      { c with
        generation := number c.sdk result.generation
        assigned := result.assigned.map (number c.sdk)
        rejoinNeeded := false
        stage := .polling (result.assigned.map (number c.sdk)) }
  | .error _ =>
      if c.maxRetries < attempt + 1 then { c with stage := .mismatched }
      else { c with stage := .syncing (attempt + 1) }

def nextPass (c : Consumer) : Stage :=
  if !c.running then .stopped
  else if c.rejoinNeeded then if c.autoRejoin then .joining else .stopped
  else .polling c.assigned

/-- The stage after CONSUME: messages to handle, or the next partition. -/
def fetched (c : Consumer) (partition startOffset : Int) (count : ℕ) (todo : List Int) : Stage :=
  match count with
  | 0 => .polling todo
  | k + 1 =>
      .handling partition (number c.sdk (startOffset + k)) (consecutive startOffset (k + 1)) todo

def handledTo (c : Consumer) (partition last : Int) (records todo : List Int) : Stage :=
  match records with
  | [] => .committing partition (number c.sdk (last + 1)) todo
  | _ :: _ => .handling partition last records todo

def move (group : Str) (co : Coordinator) (c : Consumer) : Move → Outcome
  | .join visit =>
      match c.stage with
      | .joining =>
          let result := joinGroup visit co.groupManager group c.topic c.id c.assignor
          ⟨joined c result.2, result.1, none, none⟩
      | _ => stay co c
  | .sync visit =>
      match c.stage with
      | .syncing attempt =>
          let result := syncGroup visit co.groupManager group c.topic c.id c.generation
          ⟨synced c attempt result.2, result.1, none, none⟩
      | _ => stay co c
  | .heartbeat visit =>
      let result := heartbeat visit co.groupManager group c.topic c.id c.generation
      ⟨{ c with rejoinNeeded := c.rejoinNeeded || !result.2.isOk }, result.1, none, none⟩
  | .heartbeatFails => stay co { c with rejoinNeeded := true }
  | .pass =>
      match c.stage with
      | .polling [] => stay co { c with stage := nextPass c }
      | _ => stay co c
  | .offset =>
      match c.stage with
      | .polling (partition :: todo) =>
          if c.running then
            let startOffset := number c.sdk (co.offsetManager.getOffset group c.topic partition)
            stay co { c with stage := .located partition startOffset todo }
          else stay co { c with stage := .polling [] }
      | _ => stay co c
  | .consume count =>
      match c.stage with
      | .located partition startOffset todo =>
          stay co { c with stage := fetched c partition startOffset count todo }
      | _ => stay co c
  | .eachMessage =>
      match c.stage with
      | .handling partition last (offset :: records) todo =>
          { stay co { c with stage := handledTo c partition last records todo } with
            handled := some ⟨c.topic, partition, offset⟩ }
      | _ => stay co c
  | .commit =>
      match c.stage with
      | .committing partition nextOffset _ =>
          { stay co c with
            sent := some ⟨group, c.topic, c.id, c.generation, partition, nextOffset⟩ }
      | _ => stay co c
  | .committed =>
      match c.stage with
      | .committing _ _ todo => stay co { c with stage := .polling todo }
      | _ => stay co c
  | .commitRefused =>
      match c.stage with
      | .committing _ _ _ =>
          if c.autoRejoin then stay co { c with rejoinNeeded := true, stage := .polling [] }
          else stay co { c with stage := .stopped }
      | _ => stay co c
  | .disconnect visit =>
      let gone := { c with running := false }
      if 0 < c.generation then
        { stay co gone with
          groupManager :=
            (leaveGroup visit co.groupManager group c.topic c.id c.generation).1 }
      else stay co gone
  | .crash => stay co { c with stage := .stopped }

/-- The consumers of one group and the server they talk to. -/
structure World where
  server : Server
  consumers : List Consumer
  /-- COMMIT requests on their way to the server. -/
  received : List Commit
  /-- The records of all completed handler calls. -/
  handled : List Record

inductive Event
  | start (settings : Settings)
  | move (i : ℕ) (m : Move)
  /-- The server takes up a COMMIT request and validates it. -/
  | validate (place : ℕ) (visit : Visit)
  | write (place : ℕ)
  /-- A COMMIT request is lost on its way or refused by its syntax. -/
  | lose (place : ℕ)
  /-- A request of anybody to the group manager. -/
  | request (request : Request)
  /-- A commit of another group. -/
  | foreign (visit : Visit) (c : Commit)

def applyOutcome (w : World) (i : ℕ) (o : Outcome) : World where
  server := setGroups w.server o.groupManager
  consumers := w.consumers.set i o.consumer
  received := w.received ++ o.sent.toList
  handled := w.handled ++ o.handled.toList

def step (group : Str) (w : World) : Event → World
  | .start settings => { w with consumers := w.consumers ++ [newConsumer settings] }
  | .move i m =>
      match w.consumers[i]? with
      | none => w
      | some c => applyOutcome w i (move group w.server.coordinator c m)
  | .validate place visit =>
      match w.received[place]? with
      | none => w
      | some c =>
          { w with server := validate visit w.server c, received := w.received.eraseIdx place }
  | .write place => { w with server := CommitFencing.step w.server (.write place) }
  | .lose place => { w with received := w.received.eraseIdx place }
  | .request request => { w with server := CommitFencing.step w.server (.request request) }
  | .foreign visit c =>
      if c.groupName = group then w else { w with server := validate visit w.server c }

def onOrders (sdk : Sdk) (id : String) : Settings :=
  ⟨sdk, lit id, lit "orders", lit "round_robin", 3, true⟩

def quiet (coordinator : Coordinator) : World := ⟨idle coordinator, [], [], []⟩

end Flux.ConsumerLoops
