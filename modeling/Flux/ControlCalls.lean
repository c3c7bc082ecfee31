import Flux.RequestCalls

/-!
The handlers of the requests of followers and administrators, and with them those
of every command, obey the rules and frame their responses as well.
-/
namespace Flux.ControlCalls

open GoRuntime GoStrings RecordReads ClusterMetadata Protocol Interleavings BrokerNode
open RequestHandlers RequestSafety ResponseFrames StoredText ReplyTexts ProgramCalls RequestCalls
open Program (obeys_bind obeys_ite)

variable {I : Broker → Prop} {total lined : Prop} {guarantee : Broker → Broker → Prop}
  (R : Rules I total lined guarantee) (env : Surroundings) {req : Request}

section Handlers

theorem responds_fetchFrom {topic : Str} (htopic : lined → OneLine topic)
    (partition followerID : Int) {offset maxMessages : Int} (hoffset : total → 0 ≤ offset)
    (hpos : 0 ≤ maxMessages) (hmax : total → stringSize * maxMessages ≤ maxAlloc) :
    Responds R req (fetchFrom env req topic partition followerID offset maxMessages) := by
  refine obeys_bind (keeps_onReplication R _) (fun leads _ => ?_)
  refine obeys_ite (fun _ => ?_) (fun _ _ => framed_notLeader)
  refine obeys_bind (keeps_onReplication R _) (fun st _ => ?_)
  refine obeys_bind (obeys_reading R.toReads
    (fun ht b => fetchRecords_ok b.storage topic partition (hoffset ht) _ hpos (hmax ht))
    (fun b records hb hread hl => (R.printable hl b hb).stored.fetchRecords hread))
    (fun records hrecords hl => ?_)
  exact framed_ok (oneLine_fetchPayload (htopic hl) (hrecords hl))

theorem responds_brokerRequest {usage label : List Char} (husage : plain usage = true)
    (hlabel : plain label = true)
    {change : Int → RaftMetadataStore → RaftMetadataStore × Except Str ApplyResult}
    (hcommand : ∀ id store, Commanded store (change id store).1)
    (hlines : ∀ id store, Names store →
      Names (change id store).1 ∧ Tells (change id store).2) :
    Responds R req (brokerRequest req (String.ofList usage) (String.ofList label) change) := by
  unfold brokerRequest
  split
  · refine responds_withInt R _ rfl (fun brokerID _ => ?_)
    refine obeys_bind (obeys_onController R (hcommand brokerID) (fun _ => hlines brokerID))
      (fun result hresult => ?_)
    refine responds_answer R rfl hresult (fun _ r => ?_)
    exact oneLine_entry rfl (oneLine_itoa _)
      (oneLine_append.mpr ⟨oneLine_literal hlabel, oneLine_renderApplied r⟩)
  · exact fun _ => framed_usage husage

theorem responds_handleAdminReconcileBrokerHealth :
    Responds R req (handleAdminReconcileBrokerHealth env req) := by
  unfold handleAdminReconcileBrokerHealth
  split
  · refine responds_withInt R _ rfl (fun timeoutMs _ => ?_)
    refine obeys_bind (reports_reconcileBrokerHealth R env _) (fun changes hchanges => ?_)
    exact responds_answer R rfl hchanges (fun _ n => oneLine_field rfl (oneLine_itoa _))
  · exact fun _ => framed_usage rfl

theorem responds_handleAdminGetMetadata : Responds R req (handleAdminGetMetadata req) := by
  refine obeys_ite (fun _ _ => framed_usage rfl) (fun _ => ?_)
  refine obeys_bind (obeys_snapshot R.toReads) (fun s hs hl => ?_)
  exact framed_ok (oneLine_renderMetadata (hs.2 hl))

variable (hline : lined → Repeatable req)

include hline

theorem responds_ackRequest {usage idField offsetField : List Char} (husage : plain usage = true)
    (hid : plain idField = true) (hoffset : plain offsetField = true)
    {render : Str → Int → Int → Int → Str}
    (hrender : ∀ topic partition replicaID offset, OneLine topic →
      OneLine (render topic partition replicaID offset)) :
    Responds R req (ackRequest env req (String.ofList usage) (String.ofList idField)
      (String.ofList offsetField) render) := by
  unfold ackRequest
  split
  · rename_i topic partitionText idText offsetText hargs
    have htopic : lined → OneLine topic := fun hl => (hline hl).args_line topic (by simp [hargs])
    refine responds_withInt R _ rfl (fun partition _ => ?_)
    refine responds_withInt R _ hid (fun replicaID _ => ?_)
    refine responds_withInt R _ hoffset (fun offset _ => ?_)
    refine obeys_bind (obeys_onReplication R (fun m => ackReplica_tells _ _ m _ _ _ _))
      (fun acked hacked => ?_)
    cases acked with
    | error e => exact fun _ => framed_badRequest (hacked e rfl)
    | ok u =>
      refine obeys_bind (keeps_onReplication R _) (fun st _ hl => framed_ok ?_)
      exact oneLine_append.mpr ⟨hrender _ _ _ _ (htopic hl), oneLine_renderInSync st⟩
  · exact fun _ => framed_usage husage

theorem responds_handleReplicaFetch : Responds R req (handleReplicaFetch env req) :=
  responds_ackRequest R env hline rfl rfl rfl (fun _ _ _ _ _ =>
    oneLine_entry rfl (oneLine_itoa _) (oneLine_field rfl (oneLine_itoa _)))

theorem responds_handleBrokerReplicaAck : Responds R req (handleBrokerReplicaAck env req) :=
  responds_ackRequest R env hline rfl rfl rfl (fun _ _ _ _ htopic =>
    oneLine_entry rfl htopic (oneLine_entry rfl (oneLine_itoa _) (oneLine_entry rfl (oneLine_itoa _)
      (oneLine_field rfl (oneLine_itoa _)))))

theorem responds_handleBrokerFetch (hoffset : total → ∀ n, intAt req 3 = some n → 0 ≤ n)
    (hmax : total → ∀ n, intAt req 4 = some n → stringSize * n ≤ maxAlloc) :
    Responds R req (handleBrokerFetch env req) := by
  unfold handleBrokerFetch
  split
  · rename_i topic partitionText followerText offsetText rest hargs
    have htopic : lined → OneLine topic := fun hl => (hline hl).args_line topic (by simp [hargs])
    refine obeys_ite (fun _ _ => framed_usage rfl) (fun _ => ?_)
    refine responds_withInt R _ rfl (fun partition _ => ?_)
    refine responds_withInt R _ rfl (fun followerID _ => ?_)
    refine responds_withInt R _ rfl (fun offset hread => ?_)
    have hlow : total → 0 ≤ offset := fun ht => hoffset ht offset (by simp [intAt, hargs, hread])
    cases rest with
    | nil =>
      exact responds_fetchFrom R env htopic _ _ hlow (by decide) (fun _ => by decide)
    | cons maxText others =>
      refine responds_withInt R _ rfl (fun maxMessages hreadMax => ?_)
      refine obeys_ite (fun _ _ => framed_usage rfl) (fun hpos => ?_)
      refine responds_fetchFrom R env htopic _ _ hlow (by omega) (fun ht => ?_)
      exact hmax ht maxMessages (by simp [intAt, hargs, hreadMax])
  · exact fun _ => framed_usage rfl

theorem responds_handleSetPartitionRole : Responds R req (handleSetPartitionRole env req) := by
  unfold handleSetPartitionRole
  split
  · rename_i topic partitionText roleText hargs
    have htopic : lined → OneLine topic := fun hl => (hline hl).args_line topic (by simp [hargs])
    refine responds_withInt R _ rfl (fun partition _ => ?_)
    refine obeys_bind (reports_ensureTopicMetadata R env htopic) (fun ensured hensured => ?_)
    cases ensured with
    | error e => exact fun hl => framed_badRequest (hensured hl e rfl)
    | ok md =>
      refine obeys_bind (obeys_onReplication R (fun m => setRole_tells _ m _ _ _))
        (fun changed hchanged => ?_)
      cases changed with
      | error e => exact fun _ => framed_badRequest (hchanged e rfl)
      | ok u =>
        refine obeys_bind (obeys_readBroker R.toReads) (fun b _ => ?_)
        refine obeys_bind (reports_callSetPartitionLeader R _ htopic _ _ _) (fun led hled => ?_)
        cases led with
        | error e => exact fun hl => framed_badRequest (hled hl e rfl)
        | ok r =>
          refine obeys_bind (keeps_onReplication R _) (fun st _ hl => framed_ok ?_)
          exact oneLine_entry rfl (htopic hl) (oneLine_entry rfl (oneLine_itoa _)
            (oneLine_entry rfl (oneLine_role _) (oneLine_field rfl (oneLine_itoa _))))
  · exact fun _ => framed_usage rfl

theorem responds_handleAdminCreateTopic
    (hfactor : total → ∀ n, intAt req 2 = some n → intSize * n ≤ maxAlloc) :
    Responds R req (handleAdminCreateTopic env req) := by
  unfold handleAdminCreateTopic
  split
  · rename_i topic partitionsText factorText hargs
    have htopic : lined → OneLine topic := fun hl => (hline hl).args_line topic (by simp [hargs])
    refine responds_withInt R _ rfl (fun partitions _ => ?_)
    refine responds_withInt R _ rfl (fun factor hread => ?_)
    refine obeys_bind (reports_callCreateTopic R _ _ (fun ht => ?_) htopic)
      (fun result hresult => ?_)
    · exact hfactor ht factor (by simp [intAt, hargs, hread])
    refine responds_answer R rfl hresult (fun hl r => ?_)
    exact oneLine_entry rfl (htopic hl) (oneLine_entry rfl (oneLine_itoa _)
      (oneLine_entry rfl (oneLine_itoa _) (oneLine_renderApplied r)))
  · exact fun _ => framed_usage rfl

theorem responds_handleAdminRegisterBroker :
    Responds R req (handleAdminRegisterBroker env req) := by
  unfold handleAdminRegisterBroker
  split
  · rename_i idText host portText rest hargs
    have hhost : lined → OneLine host := fun hl => (hline hl).args_line host (by simp [hargs])
    refine obeys_ite (fun _ _ => framed_usage rfl) (fun _ => ?_)
    refine responds_withInt R _ rfl (fun brokerID _ => ?_)
    refine responds_withInt R _ rfl (fun port _ => ?_)
    split
    · exact fun _ => framed_usage rfl
    · refine obeys_bind (obeys_onController R (fun _ => .register ..)
        (fun _ _ hstore => registerBroker_lines _ hstore _ _ _ _)) (fun result hresult => ?_)
      refine responds_answer R rfl hresult (fun hl r => ?_)
      exact oneLine_entry rfl (oneLine_itoa _) (oneLine_entry rfl (hhost hl)
        (oneLine_entry rfl (oneLine_itoa _) (oneLine_renderApplied r)))
  · exact fun _ => framed_usage rfl

theorem responds_handleAdminSetPartitionLeader :
    Responds R req (handleAdminSetPartitionLeader env req) := by
  unfold handleAdminSetPartitionLeader
  split
  · rename_i topic partitionText leaderText isrText hargs
    have htopic : lined → OneLine topic := fun hl => (hline hl).args_line topic (by simp [hargs])
    refine responds_withInt R _ rfl (fun partition _ => ?_)
    refine responds_withInt R _ rfl (fun leaderID _ => ?_)
    split
    · rename_i e hinvalid
      exact fun _ => framed_badRequest (parseCSVInts_tells isrText e hinvalid)
    · refine obeys_bind (reports_callSetPartitionLeader R _ htopic _ _ _)
        (fun result hresult => ?_)
      refine responds_answer R rfl hresult (fun hl r => ?_)
      exact oneLine_entry rfl (htopic hl) (oneLine_entry rfl (oneLine_itoa _)
        (oneLine_entry rfl (oneLine_itoa _) (oneLine_entry rfl (oneLine_ints _)
        (oneLine_renderApplied r))))
  · exact fun _ => framed_usage rfl

theorem responds_handleAdminElectTopicLeaders :
    Responds R req (handleAdminElectTopicLeaders env req) := by
  unfold handleAdminElectTopicLeaders
  split
  · rename_i topic hargs
    have htopic : lined → OneLine topic := fun hl => (hline hl).args_line topic (by simp [hargs])
    refine obeys_bind (reports_electTopicLeaders R env htopic) (fun changes hchanges => ?_)
    refine responds_answer R rfl hchanges (fun hl n => ?_)
    exact oneLine_entry rfl (htopic hl) (oneLine_field rfl (oneLine_itoa _))
  · exact fun _ => framed_usage rfl

/-- Every handler obeys the rules, careful requests where no call may panic. Only
`PRODUCE` writes to the storage. -/
theorem responds_handleRequest (hcareful : total → Careful req)
    (hproduce : req.command = lit "PRODUCE" → Responds R req (handleProduce env req)) :
    Responds R req (handleRequest env req) := by
  unfold handleRequest
  refine obeys_ite hproduce (fun _ => ?_)
  refine obeys_ite (fun hc => responds_handleConsume R env hline
    (fun ht => (hcareful ht).consumeOffset hc)) (fun _ => ?_)
  refine obeys_ite (fun _ => responds_handleJoin R env) (fun _ => ?_)
  refine obeys_ite (fun _ => responds_handleSync R env) (fun _ => ?_)
  refine obeys_ite (fun _ => responds_handleHeartbeat R env) (fun _ => ?_)
  refine obeys_ite (fun _ => responds_handleLeave R env) (fun _ => ?_)
  refine obeys_ite (fun _ => responds_handleCommit R env) (fun _ => ?_)
  refine obeys_ite (fun _ => responds_handleOffset R) (fun _ => ?_)
  refine obeys_ite (fun _ => responds_handleReplicaFetch R env hline) (fun _ => ?_)
  refine obeys_ite (fun hc => responds_handleBrokerFetch R env hline
    (fun ht => (hcareful ht).fetchOffset hc) (fun ht => (hcareful ht).fetchMax hc)) (fun _ => ?_)
  refine obeys_ite (fun _ => responds_handleBrokerReplicaAck R env hline) (fun _ => ?_)
  refine obeys_ite (fun _ => responds_handleSetPartitionRole R env hline) (fun _ => ?_)
  refine obeys_ite (fun hc => responds_handleAdminCreateTopic R env hline
    (fun ht => (hcareful ht).factor hc)) (fun _ => ?_)
  refine obeys_ite (fun _ => responds_handleAdminRegisterBroker R env hline) (fun _ => ?_)
  refine obeys_ite (fun _ => responds_brokerRequest R rfl rfl (fun _ _ => .heartbeat ..)
    (fun id _ hstore => heartbeatBroker_lines _ hstore id)) (fun _ => ?_)
  refine obeys_ite (fun _ => responds_handleAdminReconcileBrokerHealth R env) (fun _ => ?_)
  refine obeys_ite (fun _ => responds_brokerRequest R rfl rfl (fun _ _ => .fence ..)
    (fun id _ hstore => setBrokerFence_lines _ hstore id true)) (fun _ => ?_)
  refine obeys_ite (fun _ => responds_brokerRequest R rfl rfl (fun _ _ => .fence ..)
    (fun id _ hstore => setBrokerFence_lines _ hstore id false)) (fun _ => ?_)
  refine obeys_ite (fun _ => responds_handleAdminSetPartitionLeader R env hline) (fun _ => ?_)
  refine obeys_ite (fun _ => responds_handleAdminElectTopicLeaders R env hline) (fun _ => ?_)
  exact obeys_ite (fun _ => responds_handleAdminGetMetadata R)
    (fun _ _ => framed_err rfl (oneLine_literal rfl))

end Handlers

end Flux.ControlCalls
