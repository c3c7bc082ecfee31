import Flux.ProduceReceipts
import Flux.ProduceRequests
import Flux.ReplicaProgress
import Flux.ResponseLines
import Flux.TopicCreation

/-!
What a producer's line means to the broker. If topic, key and value hold no white
space and the key no colon, the broker uses exactly what the producer gave. For
every other text the line is refused, or a broker can answer `OK` to another
record than the one that was asked for.
-/
namespace Flux.ProduceRoundTrip

open GoRuntime GoStrings Cuts FiniteMap PartitionStorage ReplicationManager
open ClusterMetadata Protocol Interleavings BrokerNode RequestHandlers BrokerRuns ClientText
open LogLines WhiteSpace ProduceRequests
open ProduceReceipts (okLine)
open BrokerContracts (yields_compute)
open ResponseLines (newline_not_mem)
open ReplicaProgress (partitionOf_setPartition_self)

variable {topic value : Str} {md : TopicMetadata} {offset partition : Int} {mode : AckMode}
  {p : Produced} {b : Broker}

def Carried (env : Surroundings) (p : Produced) (b b' : Broker) (payload : Str) : Prop :=
  ∃ md partition offset m hw,
    b'.controller.metadata.topics.get p.topic = some md ∧
    getPartition p.key md.partitions.keys.length = .ok partition ∧
    produceToPartition env.storage b.storage p.topic partition p.value =
      (b'.storage, partition, offset) ∧
    (awaitAcks env p.mode p.topic partition offset).run
        { b' with
          replication := onLeaderAppend (env.clock 1) (isLeader b.replication p.topic partition).1
            p.topic partition offset } =
      .ok ({ b' with replication := m }, .ok ()) ∧
    payload = field "partition=" (itoa partition ++
      field " offset=" (itoa offset ++ field " hw=" (itoa hw)))

section Outcomes

variable {env : Surroundings} {req : Request} {b b' : Broker} {payload : Str}

theorem ensureTopicMetadata_ok (h : (ensureTopicMetadata env topic).run b = .ok (b', .ok md)) :
    b' = { b with controller := b'.controller } ∧
      b'.controller.metadata.topics.get topic = some md := by
  cases hget : b.controller.metadata.topics.get topic with
  | none =>
    obtain ⟨-, hopened, hmd⟩ := (TopicCreation.ensureTopicMetadata_creates env hget).run h
    exact ⟨hopened.elsewhere, hmd⟩
  | some md' =>
    unfold ensureTopicMetadata at h
    split at h
    · cases h
    · rw [Program.run_bind (show snapshot.run b = .ok (b, b.controller.metadata) from rfl)] at h
      dsimp only at h
      rw [hget] at h
      cases h
      exact ⟨rfl, hget⟩

theorem waitForAckAll_replication {polls : List Time} {r : Except Str Unit}
    (h : (waitForAckAll env topic partition offset polls).run b = .ok (b', r)) :
    b' = { b with replication := b'.replication } := by
  induction polls generalizing b with
  | nil =>
    obtain ⟨b₁, reached, hpoll, hnext⟩ := Program.run_bind_ok h
    cases hpoll
    split at hnext
    · cases hnext
      rfl
    · cases hnext
      rfl
  | cons now rest ih =>
    obtain ⟨b₁, reached, hpoll, hnext⟩ := Program.run_bind_ok h
    cases hpoll
    split at hnext
    · cases hnext
      rfl
    · have hrest := ih hnext
      rw [hrest]

theorem awaitAcks_replication {r : Except Str Unit}
    (h : (awaitAcks env mode topic partition offset).run b = .ok (b', r)) :
    b' = { b with replication := b'.replication } := by
  cases mode with
  | none =>
    cases h
    rfl
  | leader =>
    cases h
    rfl
  | all => exact waitForAckAll_replication h

theorem err_not_ok {code message : Str}
    (h : (pure (err req.correlationID code message) : Handler Str).run b =
      .ok (b', ok req.correlationID payload)) : False :=
  ok_ne_err _ _ _ _ (congrArg Prod.snd (Except.ok.inj h)).symm

/-- The record is appended and the replication told. -/
theorem append_run {s' : Storage}
    (h : produceToPartition env.storage b.storage topic partition value = (s', partition, offset)) :
    (onStorage (fun s => produceToPartition env.storage s topic partition value)).run b =
        .ok ({ b with storage := s' }, (partition, offset)) ∧
      (onReplication (fun m => (onLeaderAppend (env.clock 1) m topic partition offset, ()))).run
          { b with storage := s' } =
        .ok ({ b with
          storage := s'
          replication :=
            onLeaderAppend (env.clock 1) b.replication topic partition offset }, ()) := by
  refine ⟨?_, rfl⟩
  show Except.ok ({ b with
    storage := (produceToPartition env.storage b.storage topic partition value).1 },
    (produceToPartition env.storage b.storage topic partition value).2) = _
  rw [h]

theorem produceToPartition_eq (env : PartitionStorage.Env) (s : Storage) (topic : Str)
    (partition : Int) (value : Str) : ∃ s' offset,
      produceToPartition env s topic partition value = (s', partition, offset) := by
  have hpartition := StorageRuns.produceToPartition_partition env s topic partition value
  rcases hproduced : produceToPartition env s topic partition value with ⟨s', partition', offset⟩
  rw [hproduced] at hpartition
  exact ⟨s', offset, by rw [← hpartition]⟩

/-- What an append that was acknowledged has done. -/
theorem appendAsLeader_ok
    (h : (appendAsLeader env req mode topic partition value).run b =
      .ok (b', ok req.correlationID payload)) :
    ∃ offset m hw, produceToPartition env.storage b.storage topic partition value =
        (b'.storage, partition, offset) ∧
      (awaitAcks env mode topic partition offset).run
          { b with
            storage := b'.storage
            replication := onLeaderAppend (env.clock 1) b.replication topic partition offset } =
        .ok ({ b' with replication := m }, .ok ()) ∧
      b' = { b with storage := b'.storage, replication := b'.replication } ∧
      payload = field "partition=" (itoa partition ++
        field " offset=" (itoa offset ++ field " hw=" (itoa hw))) := by
  obtain ⟨s', offset, hproduced⟩ :=
    produceToPartition_eq env.storage b.storage topic partition value
  obtain ⟨hstorage, hreplication⟩ := append_run hproduced
  unfold appendAsLeader at h
  rw [Program.run_bind hstorage, Program.run_bind hreplication] at h
  obtain ⟨b₁, waited, hacks, h⟩ := Program.run_bind_ok h
  have hkept := awaitAcks_replication hacks
  cases waited with
  | error e => exact (err_not_ok h).elim
  | ok waited =>
    obtain ⟨b₂, hw, hread, h⟩ := Program.run_bind_ok h
    cases hread
    obtain ⟨rfl, hresponse⟩ := Prod.mk.inj (Except.ok.inj h)
    have hstored : b₁.storage = s' := by rw [hkept]
    refine ⟨offset, b₁.replication, _, ?_, ?_, ?_, (ok_payload_injective hresponse).symm⟩
    · rw [hproduced, ← hstored]
    · rw [← hstored] at hacks
      exact hacks
    · rw [hkept]

theorem produceTo_ok
    (h : (produceTo env req p.mode p.topic p.key p.value md).run b =
      .ok (b', ok req.correlationID payload))
    (hmd : b.controller.metadata.topics.get p.topic = some md) : Carried env p b b' payload := by
  obtain ⟨b₁, partition, hcompute, hrouted⟩ := Program.run_bind_ok h
  have hyields : Program.Yields
      (fun b₁ a => b₁ = b ∧ getPartition p.key md.partitions.keys.length = .ok a)
      (compute (getPartition p.key md.partitions.keys.length)) b :=
    yields_compute (fun a ha => ⟨rfl, ha⟩)
  obtain ⟨rfl, hpartition⟩ := hyields.run hcompute
  split at hrouted
  · exact (err_not_ok hrouted).elim
  · obtain ⟨b₂, b₃, hread, hchecked⟩ := Program.run_bind_ok hrouted
    cases hread
    split at hchecked
    · exact (err_not_ok hchecked).elim
    · obtain ⟨b₄, leads, hleads, hled⟩ := Program.run_bind_ok hchecked
      cases hleads
      split at hled
      · obtain ⟨offset, m, hw, hproduced, hacks, hkept, hpayload⟩ := appendAsLeader_ok hled
        refine ⟨md, partition, offset, m, hw, ?_, hpartition, hproduced, ?_, hpayload⟩
        · rw [hkept]
          exact hmd
        · rw [← hacks, hkept]
      · exact (err_not_ok hled).elim

/-- Whatever broker answers `OK` has carried the request out as it read it. -/
theorem carryOut_carried (h : (carryOut env req p).run b = .ok (b', ok req.correlationID payload)) :
    Carried env p b b' payload := by
  obtain ⟨b₁, ensured, hensure, hnext⟩ := Program.run_bind_ok h
  cases ensured with
  | error e => exact (err_not_ok hnext).elim
  | ok md =>
    obtain ⟨helsewhere, hmd⟩ := ensureTopicMetadata_ok hensure
    dsimp only at hnext
    split at hnext
    · exact (err_not_ok hnext).elim
    · have hcarried := produceTo_ok hnext hmd
      unfold Carried at hcarried ⊢
      rw [helsewhere] at hcarried
      exact hcarried

end Outcomes

section Answers

structure Unfollowed (m : Manager) (topic : Str) (partition : Int) : Prop where
  role : (partitionOf m topic partition).role = .leader
  followers : (partitionOf m topic partition).followers = FMap.empty
  minimum : m.cfg.minInSyncReplicas ≤ 1

variable {topic : Str} {partition offset : Int}

theorem recompute_unfollowed (cfg : ReplicationConfig) (now : Time)
    {ps : ReplicationManager.PartitionState} (h : ps.followers = FMap.empty) :
    recompute cfg now ps = { ps with highWatermark := max (-1) ps.leaderOffset } := by
  simp only [recompute, h]
  rfl

theorem onLeaderAppend_unfollowed {m : Manager} (now : Time) (h : Unfollowed m topic partition)
    (offset : Int) :
    Unfollowed (onLeaderAppend now m topic partition offset) topic partition ∧
      offset ≤ (partitionOf (onLeaderAppend now m topic partition offset) topic
        partition).leaderOffset := by
  have hstate : partitionOf (onLeaderAppend now m topic partition offset) topic partition =
      recompute m.cfg now
        { partitionOf m topic partition with
          leaderOffset := if (partitionOf m topic partition).leaderOffset < offset then offset
            else (partitionOf m topic partition).leaderOffset } := by
    simp only [onLeaderAppend, h.role]
    exact partitionOf_setPartition_self ..
  have hminimum : (onLeaderAppend now m topic partition offset).cfg = m.cfg := by
    simp only [onLeaderAppend, h.role]
    rfl
  refine ⟨⟨?_, ?_, by rw [hminimum]; exact h.minimum⟩, ?_⟩
  · rw [hstate]
    exact h.role
  · rw [hstate, recompute_unfollowed _ _ (by exact h.followers)]
    exact h.followers
  · rw [hstate]
    show offset ≤ if _ then _ else _
    split
    · exact le_refl _
    · omega

/-- Without followers every mode is satisfied at once. -/
theorem awaitAcks_unfollowed (env : Surroundings) (mode : AckMode)
    (h : Unfollowed b.replication topic partition)
    (hoffset : offset ≤ (partitionOf b.replication topic partition).leaderOffset) :
    ∃ m, (awaitAcks env mode topic partition offset).run b =
      .ok ({ b with replication := m }, .ok ()) := by
  cases mode with
  | none => exact ⟨b.replication, rfl⟩
  | leader => exact ⟨b.replication, rfl⟩
  | all =>
    have hpoll : ∀ now, (pollAckAll env.order now b.replication topic partition
        offset).2 = true := by
      intro now
      have hmin := h.minimum
      simp only [pollAckAll, refresh, recompute_unfollowed b.replication.cfg _ h.followers,
        statusOf, h.followers, Bool.and_eq_true, decide_eq_true_eq]
      refine ⟨le_max_of_le_right hoffset, ?_⟩
      rw [List.length_cons]
      push_cast
      omega
    have hfirst : ∀ now (other : Handler (Except Str Unit)),
        ((onReplication fun m => pollAckAll env.order now m topic partition offset) >>=
          fun reached => if reached then pure (.ok ()) else other).run b =
        .ok ({ b with replication :=
          (pollAckAll env.order now b.replication topic partition offset).1 }, .ok ()) := by
      intro now other
      rw [Program.run_bind (show (onReplication fun m =>
          pollAckAll env.order now m topic partition offset).run b =
        .ok ({ b with replication :=
          (pollAckAll env.order now b.replication topic partition offset).1 }, true) from by
          rw [← hpoll now]; rfl)]
      rfl
    rw [awaitAcks]
    cases env.polls with
    | nil => exact ⟨_, hfirst _ _⟩
    | cons now rest => exact ⟨_, hfirst now _⟩

theorem appendAsLeader_answers (env : Surroundings) (req : Request) (mode : AckMode) (value : Str)
    (h : Unfollowed b.replication topic partition) :
    ∃ b' hw, (appendAsLeader env req mode topic partition value).run b =
        .ok (b', okLine req partition
          (produceToPartition env.storage b.storage topic partition value).2.2 hw) ∧
      b'.storage = (produceToPartition env.storage b.storage topic partition value).1 := by
  obtain ⟨s', offset, hproduced⟩ :=
    produceToPartition_eq env.storage b.storage topic partition value
  obtain ⟨hunfollowed, hoffset⟩ := onLeaderAppend_unfollowed (env.clock 1) h offset
  obtain ⟨m, hacks⟩ := awaitAcks_unfollowed env mode
    (b := { b with
      storage := s'
      replication := onLeaderAppend (env.clock 1) b.replication topic partition offset })
    hunfollowed hoffset
  obtain ⟨hstorage, hreplication⟩ := append_run hproduced
  rw [hproduced]
  unfold appendAsLeader
  rw [Program.run_bind hstorage, Program.run_bind hreplication, Program.run_bind hacks]
  exact ⟨_, _, rfl, rfl⟩

/-- A leader without followers answers OK. -/
theorem produceTo_answers (env : Surroundings) (req : Request) (mode : AckMode) (key value : Str)
    {pm : PartitionMetadata} (hcount : md.partitions.keys.length = 1)
    (hget : md.partitions.get 0 = some pm) (hleader : pm.leaderID = b.localBrokerID)
    (h : Unfollowed b.replication topic 0) :
    ∃ b' hw, (produceTo env req mode topic key value md).run b =
        .ok (b', okLine req 0
          (produceToPartition env.storage b.storage topic 0 value).2.2 hw) ∧
      b'.storage = (produceToPartition env.storage b.storage topic 0 value).1 := by
  have hcompute : (compute (getPartition key md.partitions.keys.length)).run b = .ok (b, 0) := by
    have hzero : getPartition key 1 = .ok 0 := by simp [getPartition, goMod]
    rw [hcount, Nat.cast_one, hzero]
    rfl
  have hkept : Unfollowed (isLeader b.replication topic 0).1 topic 0 := by
    refine ⟨?_, ?_, h.minimum⟩
    · exact (congrArg _ (partitionOf_setPartition_self ..)).trans h.role
    · exact (congrArg _ (partitionOf_setPartition_self ..)).trans h.followers
  have hleads : (onReplication (fun m => isLeader m topic 0)).run b =
      .ok ({ b with replication := (isLeader b.replication topic 0).1 }, true) := by
    have htrue : (isLeader b.replication topic 0).2 = true := by simp [isLeader, h.role]
    show Except.ok (_, (isLeader b.replication topic 0).2) = _
    rw [htrue]
  obtain ⟨b', hw, hanswer⟩ := appendAsLeader_answers env req mode value
    (b := { b with replication := (isLeader b.replication topic 0).1 }) hkept
  refine ⟨b', hw, ?_⟩
  rw [produceTo, Program.run_bind hcompute]
  rw [hget]
  dsimp only
  rw [Program.run_bind (show (Program.read id : Handler Broker).run b = .ok (b, b) from rfl),
    if_neg (not_not.mpr hleader), Program.run_bind hleads]
  exact hanswer

def soleTopic (topic : Str) : TopicMetadata := ⟨topic, FMap.empty.set 0 ⟨0, 1, [1], [1]⟩⟩

def leading (topic : Str) : Broker :=
  { aloneBroker with
    replication := newManager ⟨1, 1, 0, 0, 0⟩
    controller := ⟨1, 1, ⟨FMap.empty.set topic (soleTopic topic), FMap.empty⟩⟩
    localBrokerID := 1 }

/-- Some broker answers `OK` to every record that can be read from a line. -/
theorem carryOut_answers (req : Request) (p : Produced) (hne : p.topic ≠ []) :
    ∃ b' payload, (carryOut quiet req p).run (leading p.topic) =
      .ok (b', ok req.correlationID payload) := by
  have htopic : (ensureTopicMetadata quiet p.topic).run (leading p.topic) =
      .ok (leading p.topic, .ok (soleTopic p.topic)) := by
    have hget : (leading p.topic).controller.metadata.topics.get p.topic =
        some (soleTopic p.topic) := by
      simp [leading]
    rw [ensureTopicMetadata, if_neg hne, Program.run_bind (show snapshot.run (leading p.topic) =
      .ok (leading p.topic, (leading p.topic).controller.metadata) from rfl)]
    dsimp only
    rw [hget]
    rfl
  have hleading : Unfollowed (leading p.topic).replication p.topic 0 :=
    ⟨rfl, rfl, Int.le_refl 1⟩
  obtain ⟨b', hw, hanswer, -⟩ := produceTo_answers quiet req p.mode p.key p.value
    (show (soleTopic p.topic).partitions.keys.length = 1 from rfl) rfl rfl hleading
  rw [carryOut, Program.run_bind htopic]
  exact ⟨b', _, hanswer⟩

theorem line_answered (seq : ℕ) {args : Str} (h : readProduce (fields args) = some p) :
    ∃ b b' payload,
      (handleLine quiet (dropCR (commandLine (itoa seq) (lit "PRODUCE") args))).run b =
        .ok (b', ok (itoa seq) payload) := by
  obtain ⟨message, options, hwords, -⟩ := readProduce_eq_some h
  have hne : p.topic ≠ [] := (mem_fields (hwords ▸ List.mem_cons_self ..)).1
  obtain ⟨b', payload, hrun⟩ := carryOut_answers (produceRequest seq args) p hne
  refine ⟨leading p.topic, b', payload, ?_⟩
  rw [handleLine_command, handleProduce_read quiet h]
  exact hrun

end Answers

/-- An `OK` to the request line means that the broker read exactly the topic, the
key, the value and the mode of the call and carried out what it read, and that the
line was the only one. -/
def Faithful (sdk : Sdk) (seq : ℕ) (topic key value : WideText) (mode : AckMode) : Prop :=
  ∀ bytes line rest, produceBytes sdk seq topic key value mode = some bytes →
    scanLines bytes = line :: rest →
    ∀ env b b' payload, (handleLine env line).run b = .ok (b', ok (itoa seq) payload) →
      rest = [] ∧ ∃ t k v, strict topic = some t ∧ strict key = some k ∧ strict value = some v ∧
        reading line = some ⟨t, k, v, mode⟩ ∧ Carried env ⟨t, k, v, mode⟩ b b' payload

/-- Texts that come through as they are. -/
structure PlainRecord (topic key value : WideText) : Prop where
  topic_ne : topic ≠ []
  topic_wellFormed : WellFormed topic
  key_wellFormed : WellFormed key
  value_wellFormed : WellFormed value
  topic_spaceFree : SpaceFree (lossy topic)
  key_spaceFree : SpaceFree (lossy key)
  value_spaceFree : SpaceFree (lossy value)
  key_no_colon : (58 : UInt8) ∉ lossy key

theorem lossy_ne_nil {t : WideText} (h : t ≠ []) : lossy t ≠ [] := by
  obtain ⟨c, rest, rfl⟩ := List.exists_cons_of_ne_nil h
  have hbytes : c.bytes ≠ [] := by
    cases c with
    | scalar c => exact String.utf8EncodeChar_ne_nil
    | surrogate half => simp [WideChar.bytes]
  simp [lossy, hbytes]

theorem strict_eq_some {t : WideText} {s : Str} (h : strict t = some s) :
    WellFormed t ∧ s = lossy t := by
  unfold strict at h
  split at h
  · exact ⟨‹_›, (Option.some.inj h).symm⟩
  · cases h

/-- The client sends the line unless it is Python and a text has no encoding. -/
theorem produceBytes_eq (sdk : Sdk) (seq : ℕ) (topic key value : WideText) (mode : AckMode)
    (h : sdk = .python → WellFormed topic ∧ WellFormed key ∧ WellFormed value) :
    produceBytes sdk seq topic key value mode =
      some (commandLine (itoa seq) (lit "PRODUCE")
        (produceArgs (lossy topic) (lossy key) (lossy value) mode) ++ [10]) := by
  cases sdk with
  | typescript => rfl
  | python =>
    obtain ⟨htopic, hkey, hvalue⟩ := h rfl
    simp [produceBytes, encode, strict, htopic, hkey, hvalue]

theorem produceBytes_none {seq : ℕ} {topic key value : WideText}
    (h : ¬ (WellFormed topic ∧ WellFormed key ∧ WellFormed value)) :
    produceBytes .python seq topic key value mode = none := by
  unfold produceBytes encode strict
  by_cases htopic : WellFormed topic
  · by_cases hkey : WellFormed key
    · by_cases hvalue : WellFormed value
      · exact absurd ⟨htopic, hkey, hvalue⟩ h
      · simp [hvalue]
    · simp [hkey]
  · simp [htopic]

theorem spaceFree_message {key : Str} (hkey : SpaceFree key) (hvalue : SpaceFree value) :
    SpaceFree (key ++ 58 :: value) := by
  have hcolon : ∀ w ∈ spaces, (58 : UInt8) ∉ w := by decide
  intro w hw hinside
  rcases (infix_append_sep_iff w key value 58 (spaces_ne_nil hw) (hcolon w hw)).mp hinside with
    h | h
  · exact hkey w hw h
  · exact hvalue w hw h

section Plain

variable {topic key value : WideText} (h : PlainRecord topic key value) (mode : AckMode)

include h

theorem PlainRecord.words :
    fields (produceArgs (lossy topic) (lossy key) (lossy value) mode) =
      [lossy topic, lossy key ++ 58 :: lossy value, lit "acks=" ++ ackText mode] := by
  have hspace : [(32 : UInt8)] ∈ spaces := by decide
  have hsplit : produceArgs (lossy topic) (lossy key) (lossy value) mode =
      lossy topic ++ ([32] ++ ((lossy key ++ 58 :: lossy value) ++
        ([32] ++ (lit "acks=" ++ ackText mode)))) := by
    simp [produceArgs]
  have hoption : fields (lit "acks=" ++ ackText mode) = [lit "acks=" ++ ackText mode] := by
    cases mode with
    | none => decide
    | leader => decide
    | all => decide
  rw [hsplit, fields_append_space hspace, fields_append_space hspace, hoption,
    fields_spaceFree h.topic_spaceFree (lossy_ne_nil h.topic_ne),
    fields_spaceFree (spaceFree_message h.key_spaceFree h.value_spaceFree) (by simp)]
  rfl

theorem PlainRecord.read :
    readProduce (fields (produceArgs (lossy topic) (lossy key) (lossy value) mode)) =
      some ⟨lossy topic, lossy key, lossy value, mode⟩ := by
  have hmode : readAckMode [lit "acks=" ++ ackText mode] = some mode := by
    cases mode with
    | none => decide
    | leader => decide
    | all => decide
  have hmessage : splitN [58] 2 (lossy key ++ 58 :: lossy value) = [lossy key, lossy value] :=
    splitN_two_iff.mpr ⟨h.key_no_colon, rfl⟩
  rw [h.words mode]
  simp [readProduce, hmessage, hmode]

theorem PlainRecord.no_newline :
    (10 : UInt8) ∉ produceArgs (lossy topic) (lossy key) (lossy value) mode := by
  have htopic := newline_not_mem h.topic_spaceFree
  have hkey := newline_not_mem h.key_spaceFree
  have hvalue := newline_not_mem h.value_spaceFree
  have hoption : (10 : UInt8) ∉ lit "acks=" ++ ackText mode := by
    cases mode with
    | none => decide
    | leader => decide
    | all => decide
  unfold produceArgs
  simp only [List.mem_append, List.mem_cons, htopic, hkey, hvalue, false_or]
  rintro (h | h | h | h)
  · simp at h
  · simp at h
  · simp at h
  · exact hoption (List.mem_append.mpr h)

end Plain

/-- What is read as the texts of the call are plain texts. -/
theorem plainRecord_of_read {topic key value : WideText} {words : List Str} {t k v : Str}
    (hwords : ∀ w ∈ words, w ≠ [] ∧ SpaceFree w)
    (hread : readProduce words = some ⟨t, k, v, mode⟩) (htopic : strict topic = some t)
    (hkey : strict key = some k) (hvalue : strict value = some v) :
    PlainRecord topic key value := by
  obtain ⟨htopicFormed, rfl⟩ := strict_eq_some htopic
  obtain ⟨hkeyFormed, rfl⟩ := strict_eq_some hkey
  obtain ⟨hvalueFormed, rfl⟩ := strict_eq_some hvalue
  obtain ⟨message, rest, rfl, -, hsplit, -⟩ := readProduce_eq_some hread
  obtain ⟨hcolon, hmessage⟩ := splitN_two_iff.mp hsplit
  obtain ⟨hne, hfree⟩ := hwords (lossy topic) (List.mem_cons_self ..)
  have hmessageFree := (hwords message (List.mem_cons_of_mem _ (List.mem_cons_self ..))).2
  rw [hmessage] at hmessageFree
  refine ⟨?_, htopicFormed, hkeyFormed, hvalueFormed, hfree, ?_, ?_, hcolon⟩
  · rintro rfl
    exact hne rfl
  · intro w hw hinside
    exact hmessageFree w hw (hinside.trans (List.prefix_append _ _).isInfix)
  · intro w hw hinside
    exact hmessageFree w hw (hinside.trans ⟨lossy key ++ [58], [], by simp⟩)

def wide (s : String) : WideText := (text s).map .scalar

end Flux.ProduceRoundTrip
