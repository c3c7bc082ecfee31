import Flux.RequestHandlers
import Flux.ResponseFrames

/-!
The texts that the handlers put into their responses. The errors of the
components are literals, with a topic or a number of the request at most, and the
payloads are made of fields; all of them stay on one line if what they repeat
does.
-/
namespace Flux.ReplyTexts

open GoRuntime GoStrings FiniteMap Groups ReplicationManager ClusterMetadata Protocol
open RequestHandlers ResponseFrames

variable {topic : Str} {cmd : Command}

def Tells {α : Type} (r : Except Str α) : Prop := ∀ e, r = .error e → OneLine e

section Results

variable {α : Type}

theorem tells_ok (a : α) : Tells (.ok a) := by
  intro e he
  cases he

theorem tells_error {e : Str} (h : OneLine e) : Tells (.error e : Except Str α) := by
  intro e' he
  cases he
  exact h

theorem tells_literal {message : List Char} (h : plain message = true) :
    Tells (.error (lit (String.ofList message)) : Except Str α) :=
  tells_error (oneLine_literal h)

theorem tells_ite {c : Prop} [Decidable c] {r q : Except Str α} (hr : Tells r) (hq : Tells q) :
    Tells (if c then r else q) := by
  split
  · exact hr
  · exact hq

end Results

section Control

abbrev Names (store : RaftMetadataStore) : Prop :=
  ∀ name ∈ store.metadata.topics.keys, OneLine name

def Worded : Command → Prop
  | .upsertTopic topic => OneLine topic.name
  | .setPartitionLeader topic _ _ _ => OneLine topic
  | _ => True

variable {store : RaftMetadataStore} (now : Time)

theorem names_set {topics : FMap Str TopicMetadata} (h : ∀ name ∈ topics.keys, OneLine name)
    (htopic : OneLine topic) (md : TopicMetadata) :
    ∀ name ∈ (topics.set topic md).keys, OneLine name := by
  intro name hname
  rcases (FMap.mem_keys_set _ _ _ _).mp hname with rfl | hold
  · exact htopic
  · exact h name hold

/-- Commands keep the names of topics on one line. -/
theorem change_names {metadata metadata' : MetadataSnapshot}
    (h : ∀ name ∈ metadata.topics.keys, OneLine name)
    (hcmd : ∀ md, cmd = .upsertTopic md → OneLine md.name)
    (hchange : metadata.change now cmd = .ok metadata') :
    ∀ name ∈ metadata'.topics.keys, OneLine name := by
  cases cmd with
  | upsertTopic md =>
    cases hchange
    exact names_set h (hcmd md rfl) md
  | registerBroker broker =>
    cases hchange
    exact h
  | brokerHeartbeat id =>
    simp only [MetadataSnapshot.change] at hchange
    split at hchange
    · cases hchange
    · cases hchange
      exact h
  | setPartitionLeader topic partition leaderID isr =>
    simp only [MetadataSnapshot.change] at hchange
    split at hchange
    · cases hchange
    · rename_i md hmd
      split at hchange
      · cases hchange
      · cases hchange
        exact names_set h (h topic ((FMap.mem_keys_iff _ _).mpr ⟨md, hmd⟩)) _
  | setBrokerFence id fenced =>
    simp only [MetadataSnapshot.change] at hchange
    split at hchange
    · cases hchange
    · cases hchange
      exact h

theorem apply_names (h : Names store) (hcmd : ∀ md, cmd = .upsertTopic md → OneLine md.name) :
    Names (store.apply now cmd).1 := by
  unfold RaftMetadataStore.apply
  split
  · exact h
  · split
    · exact h
    · exact change_names now h hcmd ‹_›

/-- The answer to a worded command stays on one line. -/
theorem change_tells (metadata : MetadataSnapshot) (hcmd : Worded cmd) :
    Tells (metadata.change now cmd) := by
  have hbroker : OneLine (lit "broker not found: ") := oneLine_literal rfl
  have htopic : OneLine (lit "topic not found: ") := oneLine_literal rfl
  have hpartition : OneLine (lit "partition not found: topic=") := oneLine_literal rfl
  have hfield : OneLine (lit " partition=") := oneLine_literal rfl
  cases cmd with
  | upsertTopic md => exact tells_ok _
  | registerBroker broker => exact tells_ok _
  | brokerHeartbeat id =>
    simp only [MetadataSnapshot.change]
    split
    · exact tells_error (oneLine_append.mpr ⟨hbroker, oneLine_itoa id⟩)
    · exact tells_ok _
  | setPartitionLeader topic partition leaderID isr =>
    simp only [MetadataSnapshot.change]
    split
    · exact tells_error (oneLine_append.mpr ⟨htopic, hcmd⟩)
    · split
      · refine tells_error ?_
        simp only [oneLine_append]
        exact ⟨hpartition, hcmd, hfield, oneLine_itoa partition⟩
      · exact tells_ok _
  | setBrokerFence id fenced =>
    simp only [MetadataSnapshot.change]
    split
    · exact tells_error (oneLine_append.mpr ⟨hbroker, oneLine_itoa id⟩)
    · exact tells_ok _

theorem validateCommand_tells (cmd : Command) : Tells (validateCommand cmd) := by
  cases cmd with
  | upsertTopic md => exact tells_ite (tells_literal rfl) (tells_ok _)
  | registerBroker broker => exact tells_ite (tells_literal rfl) (tells_ok _)
  | brokerHeartbeat id => exact tells_ite (tells_literal rfl) (tells_ok _)
  | setPartitionLeader topic partition leaderID isr =>
    exact tells_ite (tells_literal rfl) (tells_ok _)
  | setBrokerFence id fenced => exact tells_ite (tells_literal rfl) (tells_ok _)

theorem apply_tells (store : RaftMetadataStore) (hcmd : Worded cmd) :
    Tells (store.apply now cmd).2 := by
  unfold RaftMetadataStore.apply
  split
  · rename_i e hinvalid
    exact tells_error (validateCommand_tells cmd e hinvalid)
  · split
    · rename_i e hfailed
      exact tells_error (change_tells now store.metadata hcmd e hfailed)
    · exact tells_ok _

theorem createTopic_lines (h : Names store) {name : Str} (hname : OneLine name)
    {partitions replicationFactor : Int} {r : RaftMetadataStore × Except Str ApplyResult}
    (hr : createTopic now store name partitions replicationFactor = .ok r) :
    Names r.1 ∧ Tells r.2 := by
  unfold createTopic at hr
  split at hr
  · cases hr
    exact ⟨h, tells_literal rfl⟩
  · split at hr
    · cases hr
      exact ⟨h, tells_literal rfl⟩
    · split at hr
      · cases hr
        exact ⟨h, tells_literal rfl⟩
      · cases hcap : makeCap intSize replicationFactor with
        | error e =>
          rw [hcap] at hr
          cases hr
        | ok u =>
          rw [hcap] at hr
          cases hr
          refine ⟨apply_names now h (fun md hmd => ?_), apply_tells now store hname⟩
          cases hmd
          exact hname

theorem registerBroker_lines (h : Names store) (id : Int) (host : Str) (port epoch : Int) :
    Names (registerBroker now store id host port epoch).1 ∧
      Tells (registerBroker now store id host port epoch).2 := by
  unfold registerBroker
  split
  · exact ⟨h, tells_literal rfl⟩
  · split
    · exact ⟨h, tells_literal rfl⟩
    · split
      · exact ⟨h, tells_literal rfl⟩
      · exact ⟨apply_names now h (by simp), apply_tells now store trivial⟩

theorem heartbeatBroker_lines (h : Names store) (id : Int) :
    Names (heartbeatBroker now store id).1 ∧ Tells (heartbeatBroker now store id).2 :=
  ⟨apply_names now h (by simp), apply_tells now store trivial⟩

theorem setBrokerFence_lines (h : Names store) (id : Int) (fenced : Bool) :
    Names (setBrokerFence now store id fenced).1 ∧
      Tells (setBrokerFence now store id fenced).2 := by
  unfold setBrokerFence
  split
  · exact ⟨h, tells_literal rfl⟩
  · exact ⟨apply_names now h (by simp), apply_tells now store trivial⟩

theorem setPartitionLeader_lines (h : Names store) (htopic : OneLine topic)
    (partition leaderID : Int) (isr : List Int) :
    Names (setPartitionLeader now store topic partition leaderID isr).1 ∧
      Tells (setPartitionLeader now store topic partition leaderID isr).2 := by
  unfold setPartitionLeader
  split
  · exact ⟨h, tells_literal rfl⟩
  · split
    · exact ⟨h, tells_literal rfl⟩
    · split
      · exact ⟨h, tells_literal rfl⟩
      · exact ⟨apply_names now h (by simp), apply_tells now store htopic⟩

theorem electionUpdates_tells (snapshot : MetadataSnapshot) (htopic : OneLine topic) :
    Tells (electionUpdates snapshot topic) := by
  have hfound : OneLine (lit "topic not found: ") := oneLine_literal rfl
  unfold electionUpdates
  split
  · exact tells_literal rfl
  · split
    · exact tells_error (oneLine_append.mpr ⟨hfound, htopic⟩)
    · exact tells_ok _

end Control

section Components

theorem setRole_tells (now : Time) (m : Manager) (topic : Str) (partition : Int) (role : Str) :
    Tells (setRole now m topic partition role).2 := by
  unfold setRole
  split
  · exact tells_literal rfl
  · exact tells_ok _

theorem ackReplica_tells (entered now : Time) (m : Manager) (topic : Str)
    (partition replicaID offset : Int) :
    Tells (ackReplica entered now m topic partition replicaID offset).2 := by
  unfold ackReplica
  split
  · exact tells_literal rfl
  · dsimp only
    split
    · exact tells_literal rfl
    · split
      · exact tells_literal rfl
      · exact tells_ok _

theorem oneLine_role (role : Role) : OneLine role.text := by
  cases role with
  | leader => decide
  | follower => decide

theorem groupError_tells {α : Type} (r : Except GroupError α) :
    Tells (r.mapError GroupError.text) := by
  cases r with
  | ok a => exact tells_ok a
  | error e =>
    cases e with
    | groupNotFound => exact tells_literal rfl
    | staleGeneration => exact tells_literal rfl
    | unknownMember => exact tells_literal rfl
    | partitionNotAssigned => exact tells_literal rfl

theorem parseInt_tells (value : Str) {field : Str} (h : OneLine field) :
    Tells (parseInt value field) := by
  have hinvalid : OneLine (lit "invalid ") := oneLine_literal rfl
  unfold parseInt
  split
  · exact tells_error (oneLine_append.mpr ⟨hinvalid, h⟩)
  · exact tells_ok _

theorem mapM_tells {α β : Type} {read : α → Except Str β} (h : ∀ a, Tells (read a))
    (items : List α) : Tells (items.mapM read) := by
  induction items with
  | nil => exact tells_ok []
  | cons a rest ih =>
    rw [List.mapM_cons]
    cases ha : read a with
    | error e => exact tells_error (h a e ha)
    | ok b =>
      cases hrest : rest.mapM read with
      | error e => exact tells_error (ih e hrest)
      | ok bs => exact tells_ok (b :: bs)

theorem parseCSVInts_tells (raw : Str) : Tells (parseCSVInts raw) := by
  refine mapM_tells (fun p => ?_) _
  split
  · exact tells_literal rfl
  · exact tells_ok _

end Components

section Payloads

theorem oneLine_field {name : List Char} (hname : plain name = true) {value : Str}
    (h : OneLine value) : OneLine (field (String.ofList name) value) :=
  oneLine_append.mpr ⟨oneLine_literal hname, h⟩

theorem oneLine_entry {name : List Char} (hname : plain name = true) {value rest : Str}
    (h : OneLine value) (hrest : OneLine rest) :
    OneLine (field (String.ofList name) (value ++ rest)) :=
  oneLine_field hname (oneLine_append.mpr ⟨h, hrest⟩)

theorem oneLine_ints (l : List Int) : OneLine (ints l) := by
  refine oneLine_bracketed (fun part hpart => ?_)
  obtain ⟨n, -, rfl⟩ := List.mem_map.mp hpart
  exact oneLine_itoa n

theorem oneLine_printBool (v : Bool) : OneLine (printBool v) := by
  cases v with
  | true => decide
  | false => decide

theorem oneLine_renderJoin (result : JoinResult) : OneLine (renderJoin result) :=
  oneLine_entry rfl (oneLine_itoa _) (oneLine_field rfl (oneLine_ints _))

theorem oneLine_renderInSync (st : Status) : OneLine (renderInSync st) :=
  oneLine_entry rfl (oneLine_itoa _) (oneLine_entry rfl (oneLine_ints _)
    (oneLine_field rfl (oneLine_printBool _)))

theorem oneLine_renderApplied (result : ApplyResult) : OneLine (renderApplied result) :=
  oneLine_entry rfl (oneLine_itoa _) (oneLine_field rfl (oneLine_itoa _))

theorem oneLine_renderMetadata {s : MetadataSnapshot}
    (h : ∀ name ∈ s.topics.keys, OneLine name) : OneLine (renderMetadata s) := by
  have htopics : OneLine (bracketed (sortStrings s.topics.keys)) :=
    oneLine_bracketed (fun name hname => h name ((List.mem_insertionSort _).mp hname))
  exact oneLine_entry rfl htopics (oneLine_entry rfl (oneLine_ints _)
    (oneLine_field rfl (oneLine_ints _)))

end Payloads

end Flux.ReplyTexts
