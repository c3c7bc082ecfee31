import Flux.AcknowledgedWrites
import Flux.ClientResponses
import Flux.Replies

/-!
Response framing along whole runs. A broker starts on any data directory, serves
request lines side by side, replicates from leaders and starts again. Every
answer to a request line is one line, and the follower's transport and both
clients read from it the status that the handler chose.
-/
namespace Flux.ResponseFraming

open GoStrings FiniteMap BrokerConfig PartitionStorage Groups OffsetCommits LogLines Protocol
open BrokerNode ClusterRuntime BrokerRuns Runs Replies AcknowledgedWrites ClientText ResponseFrames
open ClientResponses TCPTransport StoredText ProgramCalls

def Transported (tick : Tick) : Prop :=
  ∀ key result, tick.fetch key = .ok result → ∃ response, fetchResult response = .ok result

/-- A request line was cut off a connection by the scanner, and what a leader
hands out was read from a response. -/
def Received : Event → Prop
  | .line _ text => ∃ input, text ∈ scanLines input
  | .replicate tick => Transported tick
  | _ => True

theorem framing_program (event : Event) (h : Received event) :
    Answers Printable (Framing event) event.program := by
  have hline : ∀ env text, event = .line env text → True → OneLine text := by
    rintro env text rfl -
    obtain ⟨input, hscanned⟩ := h
    exact oneLine_scanLines hscanned
  refine (obeys_program rules_printable event False.elim hline ?_).weaken id
    (fun _ hframing => hframing trivial)
  cases event with
  | line env text =>
    intro topic partition value b hvalue hb
    exact ⟨hb.stored.produceToPartition env.storage topic partition (hvalue trivial), hb.topics⟩
  | replicate tick =>
    intro _ key state result _ _ hfetch record hrecord b hb
    obtain ⟨response, hresponse⟩ := h key result hfetch
    exact ⟨hb.stored.appendReplicated _ _ _ _ (oneLine_fetchResult hresponse record hrecord),
      hb.topics⟩
  | _ => trivial

section Runs

variable (env : Surroundings) (cfg : Config) (fallbackHost : Str) (fallbackPort : Int)
  (disk : Disk) (file : GroupsFile) (offsets : OffsetManager)

theorem printable_newBroker :
    Printable (newBroker env cfg fallbackHost fallbackPort disk file offsets) where
  stored := lined_newStorage env.storage (newSettings cfg) disk
  topics := by
    refine (ReplyTexts.registerBroker_lines _ (fun name hname => ?_) _ _ _ _).1
    simp [ClusterMetadata.newRaftMetadataStore] at hname

def opened : Session :=
  ⟨newBroker env cfg fallbackHost fallbackPort disk file offsets, true, []⟩

theorem honest_step (s : Session) (happening : Happening) (h : Honest Printable Framing s)
    (hreceived : ∀ event, happening = .start event → Received event) :
    Honest Printable Framing (step s happening) := by
  cases happening with
  | start event => exact h.accept (framing_program event (hreceived event rfl))
  | advance i => exact h.advance i
  | restart env cfg fallbackHost fallbackPort file offsets =>
    refine h.renew (f := fun b => newBroker env cfg fallbackHost fallbackPort b.storage.disk file
      offsets) ?_
    exact printable_newBroker env cfg fallbackHost fallbackPort _ file offsets

theorem honest_run (happenings : List Happening)
    (hreceived : ∀ event, Happening.start event ∈ happenings → Received event) :
    Honest Printable Framing
      (run step (opened env cfg fallbackHost fallbackPort disk file offsets) happenings) := by
  have hopened : Honest Printable Framing
      (opened env cfg fallbackHost fallbackPort disk file offsets) :=
    ⟨printable_newBroker env cfg fallbackHost fallbackPort disk file offsets,
      fun r hr => absurd hr List.not_mem_nil⟩
  refine run_invariant honest_step hopened (valid_of_forall (fun happening hmem _ => ?_))
  intro event hevent
  exact hreceived event (hevent ▸ hmem)

/-- Every answer of every run is one line, and whoever reads it finds the status
that the handler chose, TypeScript also where it replaces bytes that it cannot decode; a
client that can decode it also finds the correlation id of its request. -/
theorem responses_framed (happenings : List Happening)
    (hreceived : ∀ event, Happening.start event ∈ happenings → Received event) (i : ℕ)
    (text response : Str) (req : Request)
    (hexchange : exchange
      (run step (opened env cfg fallbackHost fallbackPort disk file offsets) happenings) i =
        some (text, response))
    (hparse : parseRequest text = .ok req) :
    ∃ reply : Reply, response = reply.line req.correlationID ∧
      (∃ body, response = body ++ [10] ∧ (10 : UInt8) ∉ body) ∧
      transportStatus response = some reply.status ∧
      (∀ t, Lossy response t → ∃ r, parseResponse .typescript (receivedLine .typescript t) = .ok r ∧
        r.status = reply.status) ∧
      ∀ sdk t, utf8 t = response →
        ∃ r, parseResponse sdk (receivedLine sdk t) = .ok r ∧ r.status = reply.status ∧
          utf8 r.correlationID = req.correlationID := by
  have hhonest := honest_run env cfg fallbackHost fallbackPort disk file offsets happenings
    hreceived
  obtain ⟨env', hget⟩ := exchange_some hexchange
  have hframing : Framing (.line env' text) response :=
    hhonest.requests _ (List.mem_of_getElem? hget)
  obtain ⟨hrepeat, reply, hfits, rfl⟩ := hframing req hparse
  have hline := oneLine_frame hrepeat.id_line hfits
  have heq := line_eq_frame hrepeat.correlated reply
  refine ⟨reply, rfl, ⟨_, heq, hline⟩, ?_, fun t ht => ?_, fun sdk t ht => ?_⟩
  · rw [heq]
    exact transportStatus_frame hrepeat.no_bar reply.closed hline
  · rw [heq] at ht
    obtain ⟨r, hread, hstatus, -⟩ :=
      parseResponse_frame decoding_lossy .typescript hrepeat.no_bar reply.closed hline ht
    exact ⟨r, hread, hstatus⟩
  · exact parseResponse_frame decoding_utf8 sdk hrepeat.no_bar reply.closed hline (ht.trans heq)

end Runs

def produceLine : Str := lit "V1|7|PRODUCE|orders k:v"

def consumeLine : Str := lit "V1|8|CONSUME|orders 0 0"

def storedAndRead : List Happening :=
  .start (.line quiet produceLine) :: List.replicate 14 (.advance 0) ++
    .start (.line quiet consumeLine) :: List.replicate 4 (.advance 1)

theorem received_storedAndRead (event : Event)
    (hmem : Happening.start event ∈ storedAndRead) : Received event := by
  have hevent : event = .line quiet produceLine ∨ event = .line quiet consumeLine := by
    simpa [storedAndRead] using hmem
  rcases hevent with rfl | rfl
  · exact ⟨produceLine ++ [10], by decide⟩
  · exact ⟨consumeLine ++ [10], by decide⟩

/-- The answer to a CONSUME request, as its readers find it. -/
theorem responses_framed_consume :
    ∃ reply : Reply, lit "V1|8|OK|messages=0:v hw=0\n" = reply.line (lit "8") ∧
      (∃ body, lit "V1|8|OK|messages=0:v hw=0\n" = body ++ [10] ∧ (10 : UInt8) ∉ body) ∧
      transportStatus (lit "V1|8|OK|messages=0:v hw=0\n") = some reply.status ∧
      (∀ t, Lossy (lit "V1|8|OK|messages=0:v hw=0\n") t →
        ∃ r, parseResponse .typescript (receivedLine .typescript t) = .ok r ∧
          r.status = reply.status) ∧
      ∀ sdk t, utf8 t = lit "V1|8|OK|messages=0:v hw=0\n" →
        ∃ r, parseResponse sdk (receivedLine sdk t) = .ok r ∧ r.status = reply.status ∧
          utf8 r.correlationID = lit "8" :=
  responses_framed quiet alone [] 0 FMap.empty (.holds FMap.empty) ⟨FMap.empty⟩ storedAndRead
    received_storedAndRead 1 consumeLine (lit "V1|8|OK|messages=0:v hw=0\n")
    ⟨lit "V1", lit "8", lit "CONSUME", [lit "orders", lit "0", lit "0"]⟩ (by decide)
    (by decide)

theorem encodeChar_ne_invalid (c : Char) : (255 : UInt8) ∉ String.utf8EncodeChar c := by
  intro hmem
  rcases mem_encodeChar hmem with ⟨-, -, hlow⟩ | ⟨-, hlow⟩
  · exact absurd hlow (by decide)
  · exact absurd hlow (by decide)

def asked (text : Str) : List Happening :=
  [.start (.line quiet text), .advance 0, .advance 0]

def invalidLine : Str := lit "V1|" ++ 255 :: lit "|OFFSET|g orders 0"

def invalidResponse : Str := lit "V1|" ++ 255 :: lit "|OK|offset=0\n"

/-- The broker repeats a correlation id that no client can read: Python refuses
the response, and whatever text TypeScript makes of it, the id is another. -/
theorem invalid_id_not_given_back :
    exchange (run step lone (asked invalidLine)) 0 = some (invalidLine, invalidResponse) ∧
      parseRequest invalidLine = .ok
        ⟨lit "V1", [255], lit "OFFSET", [lit "g", lit "orders", lit "0"]⟩ ∧
      decodeStrict invalidResponse = none ∧
      ∀ sdk line r, parseResponse sdk line = .ok r → utf8 r.correlationID ≠ [255] := by
  refine ⟨by decide, by decide, by decide, fun sdk line r _ heq => ?_⟩
  have hmem : (255 : UInt8) ∈ utf8 r.correlationID := by
    rw [heq]
    exact List.mem_singleton_self _
  obtain ⟨c, -, hc⟩ := List.mem_flatMap.mp hmem
  exact encodeChar_ne_invalid c hc

end Flux.ResponseFraming
