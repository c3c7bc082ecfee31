import Flux.RecordReads
import Flux.ResponseFrames
import Flux.StorageReplay

/-!
The values that the storage keeps in memory stay on one line. A value comes from
a request, from a leader or from the scan of a segment file, and none of these
can hold a newline; whatever is on the disk, what is replayed from it is a part
of one line.
-/
namespace Flux.StoredText

open GoRuntime GoStrings Cuts FiniteMap LogLines PartitionStorage RecordReads TCPTransport
open ResponseFrames StorageReplay

variable {line response text value : Str} {r : Record} {highWatermark : Int}

def Lined (s : Storage) : Prop :=
  ∀ topic partition, ∀ m ∈ messagesOf s topic partition, OneLine m.value

theorem oneLine_scanLines (h : line ∈ scanLines text) : OneLine line := by
  unfold scanLines at h
  obtain ⟨piece, hpiece, rfl⟩ := List.mem_map.mp h
  have hlines := (List.takeWhile_prefix _).subset hpiece
  have hsplit : piece ∈ text.splitOn 10 := by
    split at hlines
    · exact (List.dropLast_prefix _).subset hlines
    · exact hlines
  have hclear : OneLine piece := not_mem_of_mem_splitOn 10 text piece hsplit
  unfold dropCR
  split
  · exact hclear.subset (List.dropLast_prefix _).subset
  · exact hclear

theorem parseLogLine_value (h : parseLogLine line = some r) : r.value ⊆ line := by
  unfold parseLogLine at h
  split at h
  · rename_i offsetText timestampText checksum value hsplit
    obtain ⟨-, rest₁, rfl, hrest₁⟩ := splitN_letter_cons hsplit
    obtain ⟨-, rest₂, hrest₂, hsplit₂⟩ := splitN_letter_cons hrest₁
    obtain ⟨-, rest₃, hrest₃, hsplit₃⟩ := splitN_letter_cons hsplit₂
    cases hsplit₃
    split at h
    · split at h
      · cases h
        intro c hc
        simp [hrest₂, hrest₃, hc]
      · cases h
    · cases h
  · cases h

theorem oneLine_replay (h : r ∈ replay text) : OneLine r.value := by
  obtain ⟨line, hline, hparse⟩ := List.mem_filterMap.mp h
  exact (oneLine_scanLines hline).subset (parseLogLine_value hparse)

section Changes

variable {s : Storage}

/-- Only what is in memory matters. -/
theorem Lined.same {s' : Storage} (h : Lined s) (hdata : s'.data = s.data) : Lined s' := by
  intro topic partition m hm
  unfold messagesOf at hm
  rw [hdata] at hm
  exact h topic partition m hm

theorem Lined.setMessages (h : Lined s) (topic : Str) (partition : Int) {messages : List Message}
    (hmessages : ∀ m ∈ messages, OneLine m.value) :
    Lined { s with data := set2 s.data topic partition messages } := by
  intro topic' partition' m hm
  by_cases hkey : topic' = topic ∧ partition' = partition
  · obtain ⟨rfl, rfl⟩ := hkey
    unfold messagesOf at hm
    dsimp only at hm
    rw [get2_set2_self] at hm
    exact hmessages m hm
  · have hne : (topic', partition') ≠ (topic, partition) :=
      fun heq => hkey ⟨congrArg Prod.fst heq, congrArg Prod.snd heq⟩
    unfold messagesOf at hm
    dsimp only at hm
    rw [get2_set2_ne _ _ hne] at hm
    exact h topic' partition' m hm

theorem Lined.pushMessage (h : Lined s) (topic : Str) (partition : Int) {m : Message}
    (hm : OneLine m.value) : Lined (pushMessage s topic partition m) := by
  refine h.setMessages topic partition (fun q hq => ?_)
  rcases List.mem_append.mp hq with hold | hnew
  · exact h topic partition q hold
  · rw [List.mem_singleton.mp hnew]
    exact hm

variable (env : Env)

theorem Lined.loadSegment (h : Lined s) (topic : Str) (partition segmentID : Int) (name : Str) :
    Lined (loadSegment env s topic partition segmentID name) := by
  unfold PartitionStorage.loadSegment
  split
  · rename_i file hfile
    have hrecords : ∀ r ∈ replay file.content, OneLine r.value := fun r hr => oneLine_replay hr
    clear hfile
    generalize replay file.content = records at hrecords
    induction records generalizing s with
    | nil => exact h
    | cons r rest ih =>
      refine ih ?_ (fun q hq => hrecords q (List.mem_cons_of_mem _ hq))
      exact (h.pushMessage topic partition (m := ⟨r.offset, r.value⟩)
        (hrecords r (List.mem_cons_self ..))).same rfl
  · exact h

theorem Lined.foldl {ι : Type} {f : Storage → ι → Storage} (hf : ∀ s i, Lined s → Lined (f s i))
    (items : List ι) (h : Lined s) : Lined (items.foldl f s) := by
  induction items generalizing s with
  | nil => exact h
  | cons i rest ih => exact ih (hf s i h)

theorem Lined.deleteSegment (h : Lined s) (topic : Str) (partition : Int) (st : PartitionState)
    (segID : Int) : Lined (deleteSegment env s topic partition st segID) := by
  unfold PartitionStorage.deleteSegment rebuildPartitionFromSegments
  refine Lined.foldl (fun s segID hs => hs.loadSegment env topic partition segID _) _ ?_
  split
  · have hnone : ∀ m ∈ ([] : List Message), OneLine m.value := by simp
    exact (h.setMessages topic partition hnone).same rfl
  · exact h.same rfl

theorem trims_lined (topic : Str) (partition : Int) : Trims env topic partition Lined where
  drop h _ _ _ := h.same rfl
  delete h _ _ := h.deleteSegment env topic partition _ _

theorem Lined.enforceRetention (h : Lined s) : Lined (enforceRetentionLocked env s) :=
  h.foldl (fun _ key hs => (trims_lined env key.1 key.2).retainPartition hs) _

theorem lined_newStorage (settings : Settings) (disk : Disk) :
    Lined (newStorage env settings disk) := by
  have hempty : Lined ⟨settings, FMap.empty, FMap.empty, disk⟩ := by
    intro topic partition m hm
    simp [messagesOf] at hm
  refine Lined.enforceRetention env ?_
  unfold loadData
  split
  · refine hempty.foldl (fun s e hs => ?_) _
    have hlisted : Lined (setState s e.topic e.partition
        (listSegment (stateOf env s e.topic e.partition) e.segmentID)) := hs.same rfl
    exact hlisted.loadSegment env e.topic e.partition e.segmentID e.name
  · exact hempty

theorem Lined.publish (h : Lined s) (topic : Str) (partition : Int) (hr : OneLine r.value) :
    Lined (publish env s topic partition r) := by
  have hindexed : Lined { s with
      disk := appendIndexes env s.disk topic partition
        (stateOf env s topic partition).activeSegmentID r } := h.same rfl
  have hpushed := hindexed.pushMessage topic partition (m := ⟨r.offset, r.value⟩) hr
  exact Lined.enforceRetention env (hpushed.same rfl)

theorem Lined.produceToPartition (h : Lined s) (topic : Str) (partition : Int)
    (hvalue : OneLine value) : Lined (produceToPartition env s topic partition value).1 := by
  unfold PartitionStorage.produceToPartition
  dsimp only
  split
  · split
    · rename_i s' e hwritten
      exact h.same (congrArg (fun r => Storage.data r.1) hwritten.symm)
    · rename_i s' hwritten
      have hs' : Lined s' := h.same (congrArg (fun r => Storage.data r.1) hwritten.symm)
      refine Lined.publish env ?_ topic partition ?_
      · exact hs'.same rfl
      · exact hvalue
  · exact h.same rfl

theorem Lined.appendReplicated (h : Lined s) (topic : Str) (partition offset : Int)
    (hvalue : OneLine value) : Lined (appendReplicated env s topic partition offset value).1 := by
  unfold PartitionStorage.appendReplicated
  dsimp only
  split
  · exact h.same rfl
  · split
    · exact h.same rfl
    · split
      · split
        · rename_i s' e hwritten
          exact h.same (congrArg (fun r => Storage.data r.1) hwritten.symm)
        · rename_i s' hwritten
          have hs' : Lined s' := h.same (congrArg (fun r => Storage.data r.1) hwritten.symm)
          split
          · refine Lined.publish env ?_ topic partition ?_
            · exact hs'.same rfl
            · exact hvalue
          · exact hs'.same rfl
      · exact h.same rfl

end Changes

section Reads

variable {s : Storage} {topic : Str} {partition offset : Int} {records : List Message}

theorem Lined.consume (h : Lined s) (hread : consume s topic partition offset = .ok records) :
    ∀ m ∈ records, OneLine m.value := by
  unfold PartitionStorage.consume at hread
  split at hread
  · cases hread
    simp
  · rename_i messages hmessages
    have hall := h topic partition
    rw [messagesOf, hmessages, Option.getD_some] at hall
    split at hread
    · cases hread
      simp
    · unfold sliceFrom at hread
      split at hread
      · cases hread
      · cases hread
        exact fun m hm => hall m (List.mem_of_mem_drop hm)

theorem Lined.consumeRecords (h : Lined s)
    (hread : consumeRecords s topic partition offset highWatermark = .ok records) :
    ∀ m ∈ records, OneLine m.value := by
  unfold RecordReads.consumeRecords at hread
  split at hread
  · cases hread
    simp
  · cases hconsume : PartitionStorage.consume s topic partition offset with
    | error e =>
      rw [hconsume] at hread
      cases hread
    | ok messages =>
      rw [hconsume] at hread
      cases hread
      exact fun m hm => h.consume hconsume m ((List.takeWhile_prefix _).subset hm)

theorem Lined.fetchRecords {leaderOffset maxMessages : Int} (h : Lined s)
    (hread : fetchRecords s topic partition offset leaderOffset maxMessages = .ok records) :
    ∀ m ∈ records, OneLine m.value := by
  unfold RecordReads.fetchRecords at hread
  split at hread
  · cases hread
    simp
  · cases hconsume : PartitionStorage.consume s topic partition offset with
    | error e =>
      rw [hconsume] at hread
      cases hread
    | ok messages =>
      rw [hconsume] at hread
      cases hcap : makeCap stringSize maxMessages with
      | error e =>
        simp only [Except.bind, hcap] at hread
        cases hread
      | ok u =>
        simp only [Except.bind, hcap] at hread
        cases hread
        exact fun m hm => h.consume hconsume m (List.mem_of_mem_take hm)

theorem oneLine_renderRecords (h : ∀ m ∈ records, OneLine m.value) :
    OneLine (renderRecords records) := by
  refine oneLine_join (by decide) (fun part hpart => ?_)
  obtain ⟨m, hm, rfl⟩ := List.mem_map.mp hpart
  simp only [renderRecord, oneLine_append, oneLine_cons]
  exact ⟨oneLine_itoa _, by decide, h m hm⟩

theorem oneLine_fetchPayload (htopic : OneLine topic) {followerID : Int}
    (h : ∀ m ∈ records, OneLine m.value) :
    OneLine (fetchPayload topic partition followerID highWatermark records) := by
  have hfields : ∀ name ∈ [lit "topic=", lit " partition=", lit " follower=", lit " hw=",
      lit " records="], OneLine name := by decide
  simp only [List.mem_cons, List.not_mem_nil, or_false, forall_eq_or_imp, forall_eq] at hfields
  simp only [fetchPayload, oneLine_append]
  exact ⟨hfields.1, htopic, hfields.2.1, oneLine_itoa _, hfields.2.2.1, oneLine_itoa _,
    hfields.2.2.2.1, oneLine_itoa _, hfields.2.2.2.2, oneLine_renderRecords h⟩

theorem oneLine_consumePayload (h : ∀ m ∈ records, OneLine m.value) (highWatermark : Int) :
    OneLine (consumePayload records highWatermark) := by
  have hmessages : OneLine (lit "messages=") := by decide
  have hfield : OneLine (lit " hw=") := by decide
  simp only [consumePayload, oneLine_append]
  exact ⟨hmessages, oneLine_renderRecords h, hfield, oneLine_itoa highWatermark⟩

end Reads

section Transport

theorem trimRight_newline (s : Str) : trimRight (s ++ [10]) = trimRight s := by
  have hfind : (spaces.map List.reverse).find? (fun w => w.isPrefixOf (10 :: s.reverse)) =
      some [10] := by
    simp [spaces, List.find?, List.isPrefixOf]
  rw [trimRight, trimRight, List.reverse_append, List.reverse_singleton, List.singleton_append,
    dropRunes, hfind]
  rfl

/-- The trimmed line has lost its newline, also if it was all white space. -/
theorem oneLine_receive (h : receive response = .ok line) : OneLine line := by
  unfold receive at h
  split at h
  · cases h
  · rename_i front back hcut
    cases h
    have hfront : OneLine front := ((cut_letter_eq_some_iff 10 response _).mp hcut).1
    have hsuffix : trimLeft (front ++ [10]) <:+ front ++ [10] := dropRunes_suffix _ _ _
    rw [trimSpace]
    rcases List.suffix_concat_iff.mp hsuffix with hnil | ⟨rest, hrest, hinside⟩
    · rw [hnil]
      exact oneLine_nil
    · rw [hrest, trimRight_newline]
      exact (hfront.subset hinside.subset).subset (trimRight_subset rest)

theorem oneLine_parseOKPayload {payload : Str} (hline : OneLine line)
    (h : parseOKPayload line = .ok payload) : OneLine payload := by
  have hpieces : ∀ piece ∈ line.splitOn 124, OneLine piece :=
    fun piece hpiece => hline.subset (infix_of_mem_splitOn 124 line piece hpiece).subset
  unfold parseOKPayload at h
  split at h
  · rename_i first second status rest hsplit
    rw [hsplit] at hpieces
    split at h
    · cases h
    · split at h
      · cases h
      · cases h
        refine oneLine_join (by decide) (fun part hpart => hpieces part ?_)
        exact List.mem_cons_of_mem _ (List.mem_cons_of_mem _ (List.mem_cons_of_mem _ hpart))
  · cases h

theorem extractStringField_subset (payload key : Str) :
    extractStringField payload key ⊆ payload := by
  unfold extractStringField
  split
  · simp
  · rename_i front rest hcut
    have hrest : rest ⊆ payload := by
      rw [cut_eq_some _ _ _ hcut]
      exact List.subset_append_right _ _
    split
    · exact hrest
    · rename_i field after hcut'
      rw [cut_eq_some _ _ _ hcut'] at hrest
      exact fun c hc => hrest (by simp [hc])

theorem oneLine_parseRecords {field : Str} {records : List ReplicationRecord}
    (hfield : OneLine field) (h : parseRecords field = .ok records) :
    ∀ record ∈ records, OneLine record.value := by
  intro record hrecord
  obtain ⟨item, hitem, hparse⟩ := exists_piece ((mapM_eq_ok_iff _ _ _).mp h) hrecord
  have hpiece := List.mem_of_mem_filter hitem
  have hline := hfield.subset (infix_of_mem_splitOn 44 field item hpiece).subset
  unfold parseRecord at hparse
  split at hparse
  · rename_i offsetText value hsplit
    obtain ⟨-, rfl⟩ := splitN_two_iff.mp hsplit
    split at hparse
    · cases hparse
    · cases hparse
      simp only [oneLine_append, oneLine_cons] at hline
      exact hline.2.2
  · cases hparse

/-- What a leader sends comes in one line, whatever it is. -/
theorem oneLine_fetchResult {result : FetchResult} (h : fetchResult response = .ok result) :
    ∀ record ∈ result.records, OneLine record.value := by
  unfold fetchResult at h
  cases hline : receive response with
  | error e => simp [hline, bind, Except.bind] at h
  | ok line =>
    cases hpayload : parseOKPayload line with
    | error e => simp [hline, hpayload, bind, Except.bind] at h
    | ok payload =>
      have hclear := oneLine_parseOKPayload (oneLine_receive hline) hpayload
      cases hhw : extractIntField payload (lit "hw") with
      | error e => simp [hline, hpayload, hhw, bind, Except.bind] at h
      | ok highWatermark =>
        cases hrecords : parseRecords (extractStringField payload (lit "records")) with
        | error e => simp [hline, hpayload, hhw, hrecords, bind, Except.bind] at h
        | ok records =>
          simp only [hline, hpayload, hhw, hrecords, bind, Except.bind, pure, Except.pure,
            Except.ok.injEq] at h
          rw [← h]
          exact oneLine_parseRecords (hclear.subset (extractStringField_subset _ _)) hrecords

end Transport

end Flux.StoredText
