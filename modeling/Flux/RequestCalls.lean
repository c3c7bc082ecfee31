import Flux.ProgramCalls
import Flux.RequestHandlers
import Flux.RequestSafety

/-!
The handlers of the client requests obey the rules of the calls that they are made
of. A careful request needs no call that can panic, and a handler answers with `Ok`
or with `Err`, with the correlation id of its request; what it puts into the payload
or the message stays on one line.
-/
namespace Flux.RequestCalls

open GoRuntime GoStrings Groups GroupAllocations PartitionStorage ClusterMetadata Protocol
open Interleavings BrokerNode RequestHandlers BrokerSafety RequestSafety ResponseFrames StoredText
open ReplyTexts ProgramCalls
open Program (obeys_bind obeys_ite)

variable {code : List Char} {message value : Str} {α : Type}

def Framed (req : Request) (response : Str) : Prop :=
  ∃ reply : Reply, reply.Fits ∧ response = reply.line req.correlationID

section Replies

variable {req : Request}

theorem framed_ok {payload : Str} (h : OneLine payload) :
    Framed req (ok req.correlationID payload) :=
  ⟨.ok payload, h, rfl⟩

theorem framed_err (hcode : plain code = true) (h : OneLine message) :
    Framed req (err req.correlationID (lit (String.ofList code)) message) :=
  ⟨.err (lit (String.ofList code)) message, ⟨oneLine_literal hcode, h⟩, rfl⟩

theorem framed_badRequest (h : OneLine message) : Framed req (badRequest req message) :=
  framed_err rfl h

theorem framed_usage {message : List Char} (h : plain message = true) :
    Framed req (badRequest req (lit (String.ofList message))) :=
  framed_badRequest (oneLine_literal h)

theorem framed_notLeader : Framed req (notLeader req) :=
  framed_err rfl (oneLine_literal rfl)

end Replies

variable {I : Broker → Prop} {total lined : Prop} {guarantee : Broker → Broker → Prop}

/-- The handler obeys the rules, and its response is framed. -/
abbrev Responds (_ : Rules I total lined guarantee) (req : Request) (p : Handler Str) :
    Prop :=
  Program.Obeys I total guarantee (fun response => lined → Framed req response) p

variable (R : Rules I total lined guarantee) {req : Request}

section Arguments

theorem responds_withInt (value : Str) {field : List Char} (hfield : plain field = true)
    {next : Int → Handler Str} (hnext : ∀ n, atoi value = some n → Responds R req (next n)) :
    Responds R req (withInt req value (String.ofList field) next) := by
  have htells := parseInt_tells value (oneLine_literal hfield)
  unfold withInt
  unfold parseInt at htells ⊢
  cases hvalue : atoi value with
  | none =>
    rw [hvalue] at htells
    exact fun _ => framed_badRequest (htells _ rfl)
  | some n => exact hnext n hvalue

theorem responds_answer (hcode : plain code = true) {render : α → Str} {r : Except Str α}
    (hr : lined → Tells r) (hrender : lined → ∀ a, OneLine (render a)) :
    Responds R req (answer req (String.ofList code) render r) := by
  cases r with
  | error e => exact fun hl => framed_err hcode (hr hl e rfl)
  | ok a => exact fun hl => framed_ok (hrender hl a)

theorem responds_groupAnswer {render : α → Str} (hrender : ∀ a, OneLine (render a))
    (r : Except GroupError α) : Responds R req (groupAnswer req render r) :=
  responds_answer R rfl (fun _ => groupError_tells r) (fun _ => hrender)

/-- A call to the groups with the request of a member. -/
theorem keeps_serving {allocs : GroupManager → Except Panic Unit}
    {op : GroupManager → GroupManager × α} (request : GroupGenerations.Request)
    (hallocs : ∀ gm : GroupManager, intSize * (gm.numPartitions : Int) ≤ maxAlloc →
      allocs gm = .ok ()) (hop : ∀ gm, (op gm).1 = GroupGenerations.serve gm request) :
    R.Keeps (onGroups allocs op) := by
  refine keeps_onGroups R hallocs (fun gm => ?_)
  rw [hop]
  exact numPartitions_served (GroupGenerations.serve_served gm request)

theorem responds_memberRequest {usage : List Char} (husage : plain usage = true)
    {next : Str → Str → Str → Int → Handler Str}
    (hnext : ∀ groupName topic consumerID generation,
      Responds R req (next groupName topic consumerID generation)) :
    Responds R req (memberRequest req (String.ofList usage) next) := by
  unfold memberRequest
  split
  · exact responds_withInt R _ rfl (fun generation _ => hnext _ _ _ generation)
  · exact fun _ => framed_usage husage

end Arguments

section Handlers

variable (env : Surroundings)

theorem responds_handleJoin : Responds R req (handleJoin env req) := by
  unfold handleJoin
  split
  · refine obeys_ite (fun _ _ => framed_usage rfl) (fun _ => ?_)
    split
    · exact fun _ => framed_usage rfl
    · refine obeys_bind (keeps_serving R (.join env.visit _ _ _ _) (fun gm h => ?_) (fun _ => rfl))
        (fun result _ _ => framed_ok (oneLine_renderJoin result))
      exact joinAllocs_ok h env.visit rfl _ _ _ _
  · exact fun _ => framed_usage rfl

theorem responds_handleSync : Responds R req (handleSync env req) := by
  refine responds_memberRequest R rfl (fun groupName topic consumerID generation => ?_)
  refine obeys_bind (keeps_serving R (.sync env.visit _ _ _ _) (fun gm h => ?_) (fun _ => rfl))
    (fun result _ => responds_groupAnswer R oneLine_renderJoin result)
  exact checkAllocs_ok h env.visit rfl _ _

theorem responds_handleHeartbeat : Responds R req (handleHeartbeat env req) := by
  refine responds_memberRequest R rfl (fun groupName topic consumerID generation => ?_)
  refine obeys_bind (keeps_serving R (.heartbeat env.visit _ _ _ _) (fun gm h => ?_)
    (fun _ => rfl)) (fun result _ => responds_groupAnswer R (fun _ => oneLine_literal rfl) result)
  exact checkAllocs_ok h env.visit rfl _ _

theorem responds_handleLeave : Responds R req (handleLeave env req) := by
  refine responds_memberRequest R rfl (fun groupName topic consumerID generation => ?_)
  refine obeys_bind (keeps_serving R (.leave env.visit _ _ _ _) (fun gm h => ?_) (fun _ => rfl))
    (fun result _ => responds_groupAnswer R (fun _ => oneLine_literal rfl) result)
  exact leaveAllocs_ok h env.visit rfl _ _ _ _

theorem responds_handleCommit : Responds R req (handleCommit env req) := by
  unfold handleCommit
  split
  · refine responds_withInt R _ rfl (fun generation _ => ?_)
    refine responds_withInt R _ rfl (fun partition _ => ?_)
    refine responds_withInt R _ rfl (fun offset _ => ?_)
    refine obeys_bind (keeps_serving R (.validateCommit env.visit _ _ _ _ _) (fun gm h => ?_)
      (fun _ => rfl)) (fun result _ => ?_)
    · exact checkAllocs_ok h env.visit rfl _ _
    · cases result with
      | error e =>
        exact fun _ => framed_err rfl (groupError_tells (.error e : Except GroupError Unit) _ rfl)
      | ok u =>
        exact obeys_bind (keeps_onOffsets R _) (fun _ _ _ => framed_ok (oneLine_literal rfl))
  · exact fun _ => framed_usage rfl

theorem responds_handleOffset : Responds R req (handleOffset req) := by
  unfold handleOffset
  split
  · refine responds_withInt R _ rfl (fun partition _ => ?_)
    refine obeys_bind (keeps_onOffsets R _) (fun offset _ _ => ?_)
    exact framed_ok (oneLine_field rfl (oneLine_itoa offset))
  · exact fun _ => framed_usage rfl

theorem reports_awaitAcks (mode : AckMode) (topic : Str) (partition offset : Int) :
    R.Reports (awaitAcks env mode topic partition offset) := by
  cases mode with
  | none => exact fun _ => tells_ok ()
  | leader => exact fun _ => tells_ok ()
  | all => exact reports_waitForAckAll R env _ _ _ _

/-- A record of one line may be appended. -/
def Stores (I : Broker → Prop) (lined : Prop) (guarantee : Broker → Broker → Prop)
    (env : Surroundings) : Prop :=
  ∀ topic partition value b, (lined → OneLine value) → I b → guarantee b { b with
    storage := (produceToPartition env.storage b.storage topic partition value).1 }

theorem responds_appendAsLeader (hstores : Stores I lined guarantee env) (mode : AckMode)
    (topic : Str) (partition : Int) (hvalue : lined → OneLine value) :
    Responds R req (appendAsLeader env req mode topic partition value) := by
  refine obeys_bind (obeys_onStorage (fun b => hstores topic partition value b hvalue))
    (fun produced _ => ?_)
  refine obeys_bind (keeps_onReplication R _) (fun _ _ => ?_)
  refine obeys_bind (reports_awaitAcks R env _ _ _ _) (fun waited hwaited => ?_)
  cases waited with
  | error e => exact fun hl => framed_err rfl (hwaited hl e rfl)
  | ok u =>
    refine obeys_bind (keeps_onReplication R _) (fun hw _ _ => framed_ok ?_)
    exact oneLine_entry rfl (oneLine_itoa _) (oneLine_entry rfl (oneLine_itoa _)
      (oneLine_field rfl (oneLine_itoa _)))

theorem getPartition_ok (key : Str) {count : ℕ} (h : 0 < count) :
    ∃ partition, getPartition key count = .ok partition := by
  unfold getPartition goMod
  rw [if_neg (by omega)]
  exact ⟨_, rfl⟩

theorem responds_produceTo (hstores : Stores I lined guarantee env) (mode : AckMode)
    (topic key : Str) (hvalue : lined → OneLine value) {md : TopicMetadata}
    (hmd : md.partitions.keys ≠ []) :
    Responds R req (produceTo env req mode topic key value md) := by
  refine obeys_bind (obeys_compute R.toReads (fun _ =>
    getPartition_ok key (List.length_pos_of_ne_nil hmd))) (fun partition _ => ?_)
  cases md.partitions.get partition with
  | none => exact fun _ => framed_usage rfl
  | some pm =>
    refine obeys_bind (obeys_readBroker R.toReads) (fun b _ => ?_)
    refine obeys_ite (fun _ _ => framed_notLeader) (fun _ => ?_)
    refine obeys_bind (keeps_onReplication R _) (fun leads _ => ?_)
    exact obeys_ite (fun _ => responds_appendAsLeader R env hstores mode topic partition hvalue)
      (fun _ _ => framed_notLeader)

variable (hline : lined → Repeatable req)

include hline

theorem responds_handleProduce (hstores : Stores I lined guarantee env) :
    Responds R req (handleProduce env req) := by
  unfold handleProduce
  split
  · rename_i topic message rest hargs
    have htopic : lined → OneLine topic := fun hl => (hline hl).args_line topic (by simp [hargs])
    refine obeys_ite (fun _ _ => framed_usage rfl) (fun _ => ?_)
    split
    · rename_i key value hsplit
      have hvalue : lined → OneLine value := by
        intro hl
        have hmessage := (hline hl).args_line message (by simp [hargs])
        rw [(Cuts.splitN_two_iff.mp hsplit).2, oneLine_append, oneLine_cons] at hmessage
        exact hmessage.2.2
      refine obeys_bind (reports_ensureTopicMetadata R env htopic) (fun ensured hensured => ?_)
      cases ensured with
      | error e => exact fun hl => framed_badRequest (hensured hl e rfl)
      | ok md =>
        refine obeys_ite (fun _ _ => framed_usage rfl) (fun hmd => ?_)
        split
        · exact fun _ => framed_usage rfl
        · exact responds_produceTo R env hstores _ _ _ hvalue hmd
    · exact fun _ => framed_usage rfl
  · exact fun _ => framed_usage rfl

theorem responds_handleConsume (hoffset : total → ∀ n, intAt req 2 = some n → 0 ≤ n) :
    Responds R req (handleConsume env req) := by
  unfold handleConsume
  split
  · rename_i topic partitionText offsetText hargs
    have htopic : lined → OneLine topic := fun hl => (hline hl).args_line topic (by simp [hargs])
    refine responds_withInt R _ rfl (fun partition _ => ?_)
    refine responds_withInt R _ rfl (fun offset hread => ?_)
    have hlow : total → 0 ≤ offset := fun ht => hoffset ht offset (by simp [intAt, hargs, hread])
    refine obeys_bind (reports_ensureTopicMetadata R env htopic) (fun ensured hensured => ?_)
    cases ensured with
    | error e => exact fun hl => framed_badRequest (hensured hl e rfl)
    | ok md =>
      dsimp only
      cases md.partitions.get partition with
      | none => exact fun _ => framed_usage rfl
      | some pm =>
        refine obeys_bind (keeps_onReplication R _) (fun hw _ => ?_)
        refine obeys_bind (obeys_reading R.toReads
          (fun ht b => consumeRecords_ok b.storage topic partition (hlow ht) hw)
          (fun b records hb hread hl => (R.printable hl b hb).stored.consumeRecords hread))
          (fun records hrecords hl => ?_)
        exact framed_ok (oneLine_consumePayload (hrecords hl) hw)
  · exact fun _ => framed_usage rfl

end Handlers

end Flux.RequestCalls
