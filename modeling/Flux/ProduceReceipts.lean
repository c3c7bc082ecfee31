import Flux.BrokerRuns
import Flux.Receipts

/-!
What a `PRODUCE` request puts into the storage and what it answers. The call that
appends the record returns an offset, which is the receipt of the request: an
`OK` can name no other partition and offset. The record of a receipt stays in the
log until retention removes it, and no later call gives out its offset again.
-/
namespace Flux.ProduceReceipts

open GoRuntime GoStrings Cuts FiniteMap PartitionStorage SegmentedLogs LogLines StorageFrames
open StorageReplay StorageRefinement StorageAppends StorageCalls StorageRuns Protocol
open BrokerNode ClusterRuntime RequestHandlers ProgramCalls RequestCalls ControlCalls BrokerRuns
open Receipts

structure Receipt where
  topic : Str
  partition : Int
  offset : Int
  value : Str
  deriving DecidableEq, Repr

variable {L L' : PartitionLog} {r : Receipt} {env : Env} {topic value : Str} {partition : Int}

def Receipt.key (r : Receipt) : Str × Int × Int := (r.topic, r.partition, r.offset)

def Recorded (s : Storage) (r : Receipt) : Prop :=
  ⟨r.offset, r.value⟩ ∈ messagesOf s r.topic r.partition ∨
    ∃ m, (messagesOf s r.topic r.partition).head? = some m ∧ r.offset < m.offset

structure Honoured (s : Storage) (r : Receipt) : Prop where
  topic : Plain r.topic
  partition : Natural r.partition
  nonneg : 0 ≤ r.offset
  given : r.offset < nextOffsetOf s r.topic r.partition
  kept : ⟨r.offset, r.value⟩ ∈ messagesOf s r.topic r.partition ∨
    ∀ m ∈ messagesOf s r.topic r.partition, r.offset < m.offset

section Logs

variable {s s' : Storage} {n : ℕ}

theorem consecutive_pairwise {α : Type} {position : α → Int} {entries : List α}
    (h : Consecutive position entries) :
    entries.Pairwise (fun a b => position a < position b) := by
  have hchain : entries.IsChain (fun a b => position a < position b) :=
    h.imp (fun a b hab => by omega)
  have : IsTrans α (fun a b => position a < position b) := ⟨fun _ _ _ => Int.lt_trans⟩
  exact hchain.pairwise

/-- What is dropped from the front of a log is below all that is left. -/
theorem mem_or_below (h : L'.entries <:+ L.entries) {r : Record} (hr : r ∈ L.entries) :
    r ∈ L'.entries ∨ ∀ q ∈ L'.entries, r.offset < q.offset := by
  obtain ⟨front, hfront⟩ := h
  have hsorted := consecutive_pairwise L.consecutive
  change L.entries.Pairwise _ at hsorted
  rw [← hfront] at hr hsorted
  rcases List.mem_append.mp hr with hgone | hkept
  · exact .inr (fun q hq => (List.pairwise_append.mp hsorted).2.2 r hgone q hq)
  · exact .inl hkept

theorem grown_offset {r : Record} (h : Grown L r L') : r.offset = L.next := by
  have hnext := h.next
  have hafter : L'.next = r.offset + 1 := by
    rw [SegmentedLog.next, h.entries, after_append _ _ _ _ (by simp)]
    rfl
  omega

/-- Along a call the record of an offset that was given out stays, or the log is
above it. -/
theorem evolves_kept (h : Evolves L L') {o : Int} (hgiven : o < L.next) {P : Record → Prop}
    (hrecord : (∃ r ∈ L.entries, r.offset = o ∧ P r) ∨ ∀ q ∈ L.entries, o < q.offset) :
    (∃ r ∈ L'.entries, r.offset = o ∧ P r) ∨ ∀ q ∈ L'.entries, o < q.offset := by
  obtain ⟨L₁, hgrow, htrim⟩ := h
  have hsub : ∀ q ∈ L.entries, q ∈ L₁.entries := by
    rcases hgrow with rfl | ⟨r, hgrown⟩
    · exact fun q hq => hq
    · intro q hq
      rw [hgrown.entries]
      exact List.mem_append_left _ hq
  rcases hrecord with ⟨r, hr, rfl, hP⟩ | habove
  · rcases mem_or_below htrim.entries (hsub r hr) with hkept | hgone
    · exact .inl ⟨r, hkept, rfl, hP⟩
    · exact .inr hgone
  · refine .inr (fun q hq => ?_)
    have hq₁ := htrim.entries.subset hq
    rcases hgrow with rfl | ⟨r, hgrown⟩
    · exact habove q hq₁
    · rw [hgrown.entries] at hq₁
      rcases List.mem_append.mp hq₁ with hold | hnew
      · exact habove q hold
      · rw [List.mem_singleton.mp hnew, grown_offset hgrown]
        exact hgiven

theorem kept_iff (h : Holds s r.topic r.partition L) :
    (⟨r.offset, r.value⟩ ∈ messagesOf s r.topic r.partition ∨
        ∀ m ∈ messagesOf s r.topic r.partition, r.offset < m.offset) ↔
      (∃ q ∈ L.entries, q.offset = r.offset ∧ q.value = r.value) ∨
        ∀ q ∈ L.entries, r.offset < q.offset := by
  rw [h.messages]
  simp [toMessage, List.mem_map]

theorem Honoured.step {took : Option (Str × Int × Int)} (hspec : StepSpec n s s' took)
    (h : Honoured s r) : Honoured s' r := by
  obtain ⟨L, L', hL, -, hL', hevolves, -⟩ := hspec.logs r.topic r.partition h.topic h.partition
  have hgiven := h.given
  rw [nextOffsetOf_eq hL] at hgiven
  refine ⟨h.topic, h.partition, h.nonneg, ?_, ?_⟩
  · have hle := hevolves.next_le
    rw [nextOffsetOf_eq hL']
    omega
  · rw [kept_iff hL']
    exact evolves_kept hevolves hgiven ((kept_iff hL).mp h.kept)

theorem Honoured.recorded (hsound : Sound n s) (h : Honoured s r) : Recorded s r := by
  obtain ⟨L, hL, -⟩ := hsound.logs r.topic r.partition h.topic h.partition
  rcases h.kept with hmem | habove
  · exact .inl hmem
  · refine .inr ?_
    cases hhead : (messagesOf s r.topic r.partition).head? with
    | some m => exact ⟨m, rfl, habove m (List.mem_of_mem_head? hhead)⟩
    | none =>
      have hnil := List.head?_eq_none_iff.mp hhead
      rw [hL.messages, List.map_eq_nil_iff] at hnil
      have hgiven := h.given
      rw [nextOffsetOf_eq hL, SegmentedLog.next, hnil, after_nil] at hgiven
      exact absurd hgiven (Int.not_lt.mpr h.nonneg)

/-- Right after an append that meets no failure the record is in the log. -/
theorem produced_in_log (hsound : Sound n s) (hn : n + 1 < 2 ^ 63)
    (hadm : Admissible s (.produce env topic partition value)) :
    ⟨(produceToPartition env s topic partition value).2.2, value⟩ ∈
      messagesOf (produceToPartition env s topic partition value).1 topic partition := by
  obtain ⟨hok, ht, hp, hsafe, hfits⟩ := hadm
  obtain ⟨L, h, hb⟩ := hsound.logs topic partition ht hp
  rw [stateOf_next env h] at hfits
  obtain ⟨s₁, hcall, L₁, hgrown, hholds, hlocal⟩ := produceToPartition_appends hok (ht.key hp) h
    (hb.room hn) (hb.loggable hn hsafe hfits)
  obtain ⟨L', hL', htrim⟩ := holds_enforceRetention env
    (hsound.named.keep (ht.key hp) hlocal) (ht.key hp) hholds
  have hlast : ⟨L.next, unixMilli env.stamp, value⟩ ∈ L'.entries := by
    have hnonempty : L'.entries ≠ [] := by
      intro hnil
      have hnext : L'.next = 0 := by rw [SegmentedLog.next, hnil, after_nil]
      have hlow := L.next_nonneg
      rw [htrim.next, hgrown.next] at hnext
      omega
    have hsuffix := htrim.entries
    rw [hgrown.entries] at hsuffix
    obtain ⟨front, hfront⟩ := hsuffix
    have hend := congrArg List.getLast? hfront
    rw [List.getLast?_append_of_ne_nil _ hnonempty, List.getLast?_concat] at hend
    exact List.mem_of_getLast? hend
  rw [hcall, hL'.messages]
  exact List.mem_map.mpr ⟨_, hlast, rfl⟩

/-- A new record is honoured, and older ones stay so. -/
theorem honoured_produced (hsound : Sound n s) (hn : n + 1 < 2 ^ 63)
    (hadm : Admissible s (.produce env r.topic r.partition r.value))
    (hoffset : r.offset = (produceToPartition env s r.topic r.partition r.value).2.2) :
    Honoured (produceToPartition env s r.topic r.partition r.value).1 r ∧
      ∀ q, Honoured s q →
        Honoured (produceToPartition env s r.topic r.partition r.value).1 q ∧ q.key ≠ r.key := by
  have hspec := produced_spec hsound hn hadm
  have hpair : (produceToPartition env s r.topic r.partition r.value).2 =
      (r.partition, r.offset) :=
    Prod.ext (produceToPartition_partition env s r.topic r.partition r.value) hoffset.symm
  have hnext := hspec
  rw [hpair] at hnext
  obtain ⟨hbefore, hafter⟩ := hnext.takes hadm.2.1 hadm.2.2.1
  obtain ⟨L, hL, -⟩ := hsound.logs r.topic r.partition hadm.2.1 hadm.2.2.1
  have hlow := L.next_nonneg
  rw [← nextOffsetOf_eq hL, hbefore] at hlow
  refine ⟨⟨hadm.2.1, hadm.2.2.1, hlow, by omega, .inl ?_⟩,
    fun q hq => ⟨hq.step hspec, fun hkey => ?_⟩⟩
  · rw [hoffset]
    exact produced_in_log hsound hn hadm
  · obtain ⟨ht, hrest⟩ := Prod.mk.inj hkey
    obtain ⟨hp, ho⟩ := Prod.mk.inj hrest
    have hgiven := hq.given
    rw [ht, hp, ho, hbefore] at hgiven
    exact absurd hgiven (Int.lt_irrefl _)

end Logs

/-- The request is a `PRODUCE` of this value to this topic. -/
def Produces (req : Request) (topic value : Str) : Prop :=
  req.command = lit "PRODUCE" ∧ ∃ message rest key,
    req.args = topic :: message :: rest ∧ splitN [58] 2 message = [key, value]

/-- The answer to a `PRODUCE` whose record has been appended. -/
def okLine (req : Request) (partition offset hw : Int) : Str :=
  ok req.correlationID (field "partition=" (itoa partition ++
    field " offset=" (itoa offset ++ field " hw=" (itoa hw))))

def Acknowledges (text response : Str) (r : Receipt) : Prop :=
  ∃ req hw, parseRequest text = .ok req ∧ Produces req r.topic r.value ∧
    response = okLine req r.partition r.offset hw

section Answers

variable {req : Request}

theorem Produces.unique {topic' value' : Str} (h : Produces req topic value)
    (h' : Produces req topic' value') : topic = topic' ∧ value = value' := by
  obtain ⟨-, message, rest, key, hargs, hsplit⟩ := h
  obtain ⟨-, message', rest', key', hargs', hsplit'⟩ := h'
  rw [hargs] at hargs'
  obtain ⟨htopic, hmessages⟩ := List.cons.inj hargs'
  obtain ⟨hmessage, -⟩ := List.cons.inj hmessages
  rw [hmessage, hsplit'] at hsplit
  exact ⟨htopic, by simpa using (congrArg List.getLast? hsplit).symm⟩

/-- A value that is one word of a line goes into a line of the log as it is. -/
theorem Produces.lineSafe {text : Str} (hreq : parseRequest text = .ok req)
    (h : Produces req topic value) : LineSafe value := by
  obtain ⟨-, message, rest, key, hargs, hsplit⟩ := h
  have hword : ∀ c, [c] ∈ spaces → c ∉ message := by
    intro c hc
    unfold parseRequest at hreq
    split at hreq
    · dsimp only at hreq
      split at hreq
      · cases hreq
      · split at hreq
        · cases hreq
        · split at hreq
          · cases hreq
          · cases hreq
            dsimp only at hargs
            split at hargs
            · cases hargs
            · exact not_mem_fields hc (hargs ▸ List.mem_cons_of_mem _ (List.mem_cons_self ..))
    · cases hreq
  obtain ⟨-, tail, hmessage, htail⟩ := splitN_letter_cons hsplit
  cases htail
  have hvalue : ∀ c, [c] ∈ spaces → c ∉ value := fun c hc hmem =>
    hword c hc (by rw [hmessage]; exact List.mem_append_right _ (List.mem_cons_of_mem _ hmem))
  exact ⟨hvalue 10 (by decide), fun hlast => hvalue 13 (by decide) (List.mem_of_getLast? hlast)⟩

/-- An acknowledgement tells its partition and its offset. -/
theorem okLine_injective {p o hw p' o' hw' : Int} (h : okLine req p o hw = okLine req p' o' hw') :
    p = p' ∧ o = o' := by
  have hpartition : lit "partition=" = 112 :: lit "artition=" := by decide
  have hoffset : lit " offset=" = 32 :: lit "offset=" := by decide
  have hhw : lit " hw=" = 32 :: lit "hw=" := by decide
  simp only [okLine, ok, field, hpartition, hoffset, hhw, List.cons_append, reduceCtorEq,
    ↓reduceIte, List.append_cancel_left_eq, List.cons.injEq, true_and,
    List.append_cancel_right_eq] at h
  have hspace : ∀ n : Int, (32 : UInt8) ∉ itoa n := fun n =>
    itoa_not_mem n 32 (by decide) (.inl (by decide))
  have hfirst := congrArg (cut [32]) h
  rw [cut_letter_append _ _ _ (hspace p), cut_letter_append _ _ _ (hspace p')] at hfirst
  obtain ⟨hp, hrest⟩ := Prod.mk.inj (Option.some.inj hfirst)
  have hsecond := congrArg (cut [32]) (List.append_cancel_left hrest)
  rw [cut_letter_append _ _ _ (hspace o), cut_letter_append _ _ _ (hspace o')] at hsecond
  obtain ⟨ho, -⟩ := Prod.mk.inj (Option.some.inj hsecond)
  exact ⟨itoa_injective _ _ hp, itoa_injective _ _ ho⟩

end Answers

/-- Every replica worker is for a partition whose files have plain names. -/
def Following (b : Broker) : Prop :=
  ∀ key ∈ b.workers.keys, ∀ state ∈ b.workers.get key,
    Plain state.worker.topic ∧ Natural state.worker.partition

def Ready (b : Broker) : Prop := Following b ∧ ∃ n, n + 1 < 2 ^ 63 ∧ Sound n b.storage

def Replicated (s s' : Storage) : Prop :=
  ∃ env topic partition offset value,
    Admissible s (.replicate env topic partition offset value) ∧
      s' = (appendReplicated env s topic partition offset value).1

def Appended (r : Receipt) (b b' : Broker) : Prop :=
  ∃ env, Admissible b.storage (.produce env r.topic r.partition r.value) ∧
    b'.storage = (produceToPartition env b.storage r.topic r.partition r.value).1 ∧
    r.offset = (produceToPartition env b.storage r.topic r.partition r.value).2.2

def Truthful (event : Event) (receipt : Option Receipt) (response : Str) : Prop :=
  ∀ env text r, event = .line env text → Acknowledges text response r → receipt = some r

abbrev Gives (event : Event) (p : Handler Str) (receipt : Option Receipt) : Prop :=
  Issues Ready (Touches Replicated) Appended (Truthful event) p receipt

def Giving (I : Broker → Prop) (gives : Receipt → Broker → Broker → Prop) (env : Surroundings)
    (text : Str) : Prop :=
  ∀ req topic value, parseRequest text = .ok req → Produces req topic value →
    ∀ b partition, I b → Natural partition →
      gives ⟨topic, partition,
          (produceToPartition env.storage b.storage topic partition value).2.2, value⟩ b
        { b with storage := (produceToPartition env.storage b.storage topic partition value).1 }

def Short (value : Str) : Prop := value.length + 52 ≤ maxScanTokenSize

theorem Short.fits (h : Short value) (env : Env) {offset : Int} (hoffset : InInt64 offset) :
    Fits env offset value :=
  Nat.le_trans (length_formatLine_le hoffset (unixMilli_inInt64 env.stamp)) h

def TameLine (env : Surroundings) (text : Str) : Prop :=
  ∀ req topic value, parseRequest text = .ok req → Produces req topic value →
    Succeeds env.storage ∧ Plain topic ∧ Short value

def TameTick (tick : Tick) : Prop :=
  Succeeds tick.env.storage ∧ ∀ key result, tick.fetch key = .ok result →
    ∀ record ∈ result.records,
      LineSafe record.value ∧ InInt64 record.offset ∧ Short record.value

def Tame : Event → Prop
  | .line env text => TameLine env text
  | .replicate tick => TameTick tick
  | _ => True

theorem getPartition_natural {key : Str} {count : ℕ} (h : getPartition key count = .ok partition) :
    Natural partition := by
  unfold getPartition goMod at h
  split at h
  · cases h
  · cases h
    have hnonneg : (0 : Int) ≤ Checksums.fnv32a key := Int.natCast_nonneg _
    have hlt : (Checksums.fnv32a key : Int) < 2 ^ 32 := by
      have := UInt32.toNat_lt (key.foldl (fun h b => (h ^^^ b.toUInt32) * 16777619)
        (2166136261 : UInt32))
      unfold Checksums.fnv32a
      omega
    have hle : (Checksums.fnv32a key : Int).tmod count ≤ Checksums.fnv32a key := by
      rw [Int.tmod_eq_emod_of_nonneg hnonneg, ← Int.natCast_emod]
      exact Int.ofNat_le.mpr (Nat.mod_le _ _)
    have hlow := Int.tmod_nonneg (count : Int) hnonneg
    exact ⟨hlow, by unfold InInt64; omega⟩

section Programs

variable {env : Surroundings} {text : Str} {req : Request} {I : Broker → Prop}
  {stored : Storage → Storage → Prop} {gives : Receipt → Broker → Broker → Prop}

section Handlers

variable (hreq : parseRequest text = .ok req)

include hreq

theorem truthful_err (receipt : Option Receipt) (code message : Str) :
    Truthful (.line env text) receipt (err req.correlationID code message) := by
  rintro env' text' r hevent ⟨req', hw, hreq', -, hline⟩
  cases hevent
  rw [hreq] at hreq'
  cases hreq'
  exact absurd hline.symm (ok_ne_err _ _ _ _)

theorem truthful_okLine (hproduces : Produces req topic value) (p o hw : Int) :
    Truthful (.line env text) (some ⟨topic, p, o, value⟩) (okLine req p o hw) := by
  rintro env' text' r hevent ⟨req', hw', hreq', hproduces', hline⟩
  cases hevent
  rw [hreq] at hreq'
  cases hreq'
  obtain ⟨rfl, rfl⟩ := hproduces.unique hproduces'
  obtain ⟨rfl, rfl⟩ := okLine_injective hline
  rfl

/-- The one append of the handler gives out the receipt that its answer shows. -/
theorem gives_appendAsLeader (hproduces : Produces req topic value)
    (hgiving : Giving I gives env text) (mode : AckMode) (hp : Natural partition) :
    Issues I (Touches stored) gives (Truthful (.line env text))
      (appendAsLeader env req mode topic partition value) none := by
  have hrules := rules_touches I stored
  refine issues_modify_bind (fun b => ⟨topic, partition,
    (produceToPartition env.storage b.storage topic partition value).2.2, value⟩)
    (fun b hb => hgiving req topic value hreq hproduces b partition hb hp) ?_
  intro b hb
  have hpartition := produceToPartition_partition env.storage b.storage topic partition value
  dsimp only
  refine issues_bind (keeps_onReplication hrules _) (fun _ => ?_)
  refine issues_bind (reports_awaitAcks hrules env _ _ _ _) (fun waited => ?_)
  cases waited with
  | error e => exact truthful_err hreq _ _ _
  | ok u =>
    refine issues_bind (keeps_onReplication hrules _) (fun hw => ?_)
    rw [hpartition]
    exact truthful_okLine hreq hproduces _ _ hw

theorem gives_produceTo (hproduces : Produces req topic value) (hgiving : Giving I gives env text)
    (mode : AckMode) (key : Str) (md : ClusterMetadata.TopicMetadata) :
    Issues I (Touches stored) gives (Truthful (.line env text))
      (produceTo env req mode topic key value md) none := by
  have hrules := rules_touches I stored
  refine issues_atomically_bind (fun b b' partition hop => ?_)
  cases hget : getPartition key md.partitions.keys.length with
  | error e =>
    rw [hget] at hop
    cases hop
  | ok p =>
    rw [hget] at hop
    cases hop
    refine ⟨.same, ?_⟩
    cases md.partitions.get partition with
    | none => exact truthful_err hreq _ _ _
    | some pm =>
      refine issues_bind (keeps_read hrules _) (fun b => ?_)
      split
      · exact truthful_err hreq _ _ _
      · refine issues_bind (keeps_onReplication hrules _) (fun leads => ?_)
        split
        · exact gives_appendAsLeader hreq hproduces hgiving mode (getPartition_natural hget)
        · exact truthful_err hreq _ _ _

theorem gives_handleProduce (hcommand : req.command = lit "PRODUCE")
    (hgiving : Giving I gives env text) :
    Issues I (Touches stored) gives (Truthful (.line env text)) (handleProduce env req) none := by
  have hrules := rules_touches I stored
  unfold handleProduce
  split
  · rename_i topic message rest hargs
    split
    · exact truthful_err hreq _ _ _
    · split
      · rename_i key value hsplit
        refine issues_bind (reports_ensureTopicMetadata hrules env False.elim) (fun ensured => ?_)
        cases ensured with
        | error e => exact truthful_err hreq _ _ _
        | ok md =>
          dsimp only
          split
          · exact truthful_err hreq _ _ _
          · split
            · exact truthful_err hreq _ _ _
            · exact gives_produceTo hreq ⟨hcommand, message, rest, key, hargs, hsplit⟩ hgiving _
                key md
      · exact truthful_err hreq _ _ _
  · exact truthful_err hreq _ _ _

end Handlers

/-- A request line gives out one receipt at most. -/
theorem gives_handleLine (hgiving : Giving I gives env text) :
    Issues I (Touches stored) gives (Truthful (.line env text)) (handleLine env text) none := by
  unfold handleLine
  cases hreq : parseRequest text with
  | error e =>
    rintro env' text' r hevent ⟨req', hw, hreq', -, -⟩
    cases hevent
    rw [hreq] at hreq'
    cases hreq'
  | ok req =>
    by_cases hcommand : req.command = lit "PRODUCE"
    · have hproduce : handleRequest env req = handleProduce env req := by
        unfold handleRequest
        rw [if_pos hcommand]
      dsimp only
      rw [hproduce]
      exact gives_handleProduce hreq hcommand hgiving
    · refine issues_obeys (responds_handleRequest (rules_touches I stored) env False.elim False.elim
        (fun hc => absurd hc hcommand)) (fun response => ?_)
      rintro env' text' r hevent ⟨req', hw, hreq', hproduces, -⟩
      cases hevent
      rw [hreq] at hreq'
      cases hreq'
      exact absurd hproduces.1 hcommand

end Programs

theorem admissible_produce {b : Broker} (hready : Ready b) (hok : Succeeds env) (ht : Plain topic)
    (hp : Natural partition) (hsafe : LineSafe value) (hshort : Short value) :
    Admissible b.storage (.produce env topic partition value) := by
  obtain ⟨-, n, hn, hsound⟩ := hready
  obtain ⟨L, hL, hb⟩ := hsound.logs topic partition ht hp
  refine ⟨hok, ht, hp, hsafe, hshort.fits env ?_⟩
  have hlow := L.next_nonneg
  have hhigh := hb.next
  rw [stateOf_next env hL]
  unfold InInt64
  omega

theorem giving_tame {env : Surroundings} {text : Str} (h : TameLine env text) :
    Giving Ready Appended env text := by
  intro req topic value hreq hproduces b partition hb hp
  obtain ⟨hok, ht, hshort⟩ := h req topic value hreq hproduces
  have hsafe := hproduces.lineSafe hreq
  exact ⟨env.storage, admissible_produce hb hok ht hp hsafe hshort, rfl, rfl⟩

theorem replicates_tame {tick : Tick} (h : TameTick tick) :
    Replicates Ready (Touches Replicated) tick := by
  intro b key state result hb hworker hfetch record hrecord b' _
  have hkey := (FMap.mem_keys_iff _ _).mpr ⟨state, hworker⟩
  obtain ⟨ht, hp⟩ := hb.1 key hkey state hworker
  obtain ⟨hsafe, hoffset, hshort⟩ := h.2 key result hfetch record hrecord
  exact .storage ⟨_, _, _, _, _, ⟨h.1, ht, hp, hsafe, fun _ => hshort.fits _ hoffset⟩, rfl⟩

theorem gives_program (event : Event) (h : Tame event) : Gives event event.program none := by
  have hsilent : event.Writes Ready False (Touches Replicated) →
      (∀ env text, event ≠ .line env text) → Gives event event.program none := by
    intro hwrites hother
    refine issues_obeys (obeys_program (rules_touches Ready Replicated) event False.elim
      (fun _ _ _ hl => hl.elim) hwrites) (fun response env text r hevent => ?_)
    exact absurd hevent (hother env text)
  cases event with
  | line env text => exact gives_handleLine (giving_tame h)
  | replicate tick => exact hsilent (replicates_tame h) (fun _ _ => nofun)
  | _ => exact hsilent trivial (fun _ _ => nofun)

end Flux.ProduceReceipts
