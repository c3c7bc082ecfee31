import Flux.ChunkedLines
import Flux.ClientResponses
import Flux.Runs

/-!
The connections of a TypeScript client. The client outlives its connections: the
receive buffer, the pending requests and the correlation counter stay with it. A
request is pending from the moment it is sent until a response line, a timeout, a
failed write or the end of the connection settles it. Requests are numbered in the
order in which they are sent; the correlation counter is a double, which does not
count past 2^53, and from then on a request takes the place of the one before it
in the map. Text reaches the client decoded, so a chunk is a sequence of
characters.
-/
namespace Flux.ClientConnections

open GoStrings ClientText ResponseFrames ClientResponses ChunkedLines

inductive Outcome
  | resolved (response : FluxResponse)
  | failed (message code : Text) (response : FluxResponse)
  | rejected (message : Text)
  deriving DecidableEq

structure Account where
  connected : Bool
  correlationSeq : Int
  /-- The correlation ids of all requests. -/
  sent : List Text
  /-- The map from correlation ids to requests, in the order of insertion. -/
  pending : List (Text × ℕ)
  /-- The requests whose timer runs. -/
  timers : List ℕ
  /-- The lines given to `handleLine`. -/
  handled : List Text
  /-- The calls that settle the promise of a request. -/
  settled : List (ℕ × Outcome)
  deriving DecidableEq

/-- A client and its `recvBuffer`. -/
abbrev Client := Account × Text

def newClient : Client := (⟨false, 1, [], [], [], [], []⟩, [])

def correlationID (seq : Int) : Text := ascii (itoa seq)

def mapGet (m : List (Text × ℕ)) (id : Text) : Option ℕ :=
  (m.find? (fun e => e.1 = id)).map Prod.snd

def mapSet (m : List (Text × ℕ)) (id : Text) (request : ℕ) : List (Text × ℕ) :=
  if (mapGet m id).isSome then m.map (fun e => if e.1 = id then (id, request) else e)
  else m ++ [(id, request)]

/-- `Map.prototype.delete` -/
def mapDelete (m : List (Text × ℕ)) (id : Text) : List (Text × ℕ) :=
  m.filter (fun e => e.1 ≠ id)

def settle (a : Account) (id : Text) (entry request : ℕ) (outcome : Outcome) : Account :=
  { a with
    pending := mapDelete a.pending id
    timers := a.timers.filter (fun k => k ≠ entry)
    settled := a.settled ++ [(request, outcome)] }

def rejectAllPending (a : Account) (message : Text) : Account :=
  { a with
    pending := []
    timers := a.timers.filter (fun k => k ∉ a.pending.map Prod.snd)
    settled := a.settled ++ a.pending.map
      (fun e => (e.2, .rejected (message ++ text "; correlation_id=" ++ e.1))) }

def outcomeOf (r : FluxResponse) : Outcome :=
  match r.status with
  | .ok => .resolved r
  | .err => .failed (r.message.getD (text "FLUX protocol error"))
      (r.code.getD (text "UNKNOWN_ERROR")) r

/-- `handleLine`; a line that `parseResponse` refuses throws out of the data handler. -/
def handleLine (a : Account) (line : Text) : Except Text Account :=
  let a := { a with handled := a.handled ++ [line] }
  match parseResponse .typescript line with
  | .error e => .error e
  | .ok r =>
      match mapGet a.pending r.correlationID with
      | none => .ok a
      | some request => .ok (settle a r.correlationID request request (outcomeOf r))

/-- One turn of the loop of `handleData`. -/
def receive (a : Account) (front : Text) : Except Text Account :=
  let line := strip jsSpace front
  if line = [] then .ok a else handleLine a line

def handleData (c : Client) (chunk : Text) : Except Text Client := feed '\n' receive c chunk

inductive Action
  | send
  | timeout (request : ℕ)
  | writeFailed (request : ℕ) (message : Text)
  | error (message : Text)
  | close
  deriving DecidableEq

def send (a : Account) : Account :=
  let id := correlationID a.correlationSeq
  { a with
    correlationSeq := nearestDouble (a.correlationSeq + 1)
    sent := a.sent ++ [id]
    pending := mapSet a.pending id a.sent.length
    timers := a.timers ++ [a.sent.length] }

def act (a : Account) : Action → Account
  | .send => if a.connected then send a else a
  | .timeout request =>
      match a.sent[request]? with
      | none => a
      | some id =>
          if request ∈ a.timers then
            settle a id request request
              (.rejected (text "Request timed out for correlation_id=" ++ id))
          else a
  | .writeFailed request message =>
      match a.sent[request]? with
      | none => a
      | some id =>
          match mapGet a.pending id with
          | none => a
          | some entry => settle a id entry request (.rejected message)
  | .error message => rejectAllPending a message
  | .close => { a with connected := false }

inductive Event
  | data (chunk : Text)
  | act (action : Action)

/-- What happens on one connection between its `connect` and its `close` event. -/
abbrev Session := List Event

def serve (c : Client) : Event → Except Text Client
  | .data chunk => handleData c chunk
  | .act action => .ok (act c.1 action, c.2)

def opened (a : Account) : Account := { a with connected := true }

def hungUp (a : Account) : Account :=
  rejectAllPending { a with connected := false } (text "FLUX connection closed")

def converse (c : Client) (s : Session) : Except Text Client := s.foldlM serve (opened c.1, c.2)

def visit (c : Client) (s : Session) : Except Text Client :=
  (converse c s).map (fun c => (hungUp c.1, c.2))

def play (past : List Session) (now : Session) : Except Text Client :=
  (past.foldlM visit newClient).bind (fun c => converse c now)

def stream : Session → Text
  | [] => []
  | .data chunk :: rest => chunk ++ stream rest
  | .act _ :: rest => stream rest

def completeLines (t : Text) : List Text := (t.splitOn '\n').dropLast

def letters : Session → List (Char ⊕ Action)
  | [] => []
  | .data chunk :: rest => chunk.map Sum.inl ++ letters rest
  | .act action :: rest => .inr action :: letters rest

/-- A response line of the protocol. -/
def WellFormed (line : Text) : Prop :=
  '\n' ∉ line ∧ ∃ id status rest, '|' ∉ id ∧ Closed '|' rest ∧ line = clientFrame id status rest

/-- The broker sends well-formed lines and then a part of a line. -/
structure Sends (s : Session) (lines : List Text) (part : Text) : Prop where
  stream_eq : stream s = lines.flatMap (fun line => line ++ ['\n']) ++ part
  wellFormed : ∀ line ∈ lines, WellFormed line
  part_open : '\n' ∉ part

/-- A history of the client in which lines arrive whole. -/
inductive Happening
  | opened
  | line (l : Text)
  | act (action : Action)
  | hungUp

def script : Text → List (Char ⊕ Action) → List Happening
  | _, [] => []
  | part, .inl x :: rest =>
      if x = '\n' then .line part :: script [] rest else script (part ++ [x]) rest
  | part, .inr action :: rest => .act action :: script part rest

def sendsOne : Char ⊕ Action → Bool
  | .inr .send => true
  | _ => false

def sends (past : List Session) (now : Session) : ℕ :=
  ((past ++ [now]).flatMap letters).countP sendsOne

def history (past : List Session) (now : Session) : List Happening :=
  past.flatMap (fun s => .opened :: (script [] (letters s) ++ [.hungUp])) ++
    .opened :: script [] (letters now)

def answered (a : Account) (l : Text) : Account :=
  match parseResponse .typescript (strip jsSpace l) with
  | .error _ => a
  | .ok r =>
      let a := { a with handled := a.handled ++ [strip jsSpace l] }
      match mapGet a.pending r.correlationID with
      | none => a
      | some request => settle a r.correlationID request request (outcomeOf r)

def happen (a : Account) : Happening → Account
  | .opened => opened a
  | .line l => answered a l
  | .act action => act a action
  | .hungUp => hungUp a

end Flux.ClientConnections
