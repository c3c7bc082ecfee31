import Flux.ConsumerLoops

/-!
Delivery before commit. Whatever the consumers of a group do and whenever their
commits are written, every record below a committed offset was given to a handler
that completed. A consumer starts at a committed offset and commits what it
handled from there, so a late or repeated commit names a prefix that was
delivered too. It rests on exact offsets: JavaScript keeps integers only up to
2 ^ 53, and from there on the client commits past records it never saw.
-/
namespace Flux.AtLeastOnce

open GoStrings Groups GroupGenerations OffsetCommits ClientText Runs
  ConsumerLoops
open CommitFencing hiding step

variable {handled handled' : List Record} {topic : Str} {bound partition : Int} {o : Outcome}
  {todo : List Int}

def Covered (handled : List Record) (topic : Str) (partition bound : Int) : Prop :=
  ∀ offset, 0 ≤ offset → offset < bound → ⟨topic, partition, offset⟩ ∈ handled

theorem Covered.mono (h : Covered handled topic partition bound) (hsub : handled ⊆ handled') :
    Covered handled' topic partition bound :=
  fun offset hnonneg hlt => hsub (h offset hnonneg hlt)

theorem covered_zero (handled : List Record) (topic : Str) (partition : Int) :
    Covered handled topic partition 0 := by
  intro offset hnonneg hlt
  omega

theorem Covered.succ (h : Covered handled topic partition bound) :
    Covered (handled ++ [⟨topic, partition, bound⟩]) topic partition (bound + 1) := by
  intro offset hnonneg hlt
  by_cases hlast : offset = bound
  · rw [hlast]
    exact List.mem_append_right _ (List.mem_singleton_self _)
  · exact List.mem_append_left _ (h offset hnonneg (by omega))

theorem consecutive_succ (start : Int) (count : ℕ) :
    consecutive start (count + 1) = start :: consecutive (start + 1) count := by
  simp only [consecutive, List.range_succ_eq_map, List.map_cons, List.map_map, Nat.cast_zero,
    add_zero, List.cons.injEq, true_and]
  refine List.map_congr_left ?_
  intro k _
  simp only [Function.comp_apply, Nat.succ_eq_add_one, Nat.cast_add, Nat.cast_one]
  omega

def StageCovered (handled : List Record) (c : Consumer) : Prop :=
  match c.stage with
  | .located partition startOffset _ => Covered handled c.topic partition startOffset
  | .handling partition last records _ => ∃ next, ∃ k : ℕ,
      records = consecutive next (k + 1) ∧ Covered handled c.topic partition next ∧
        last = next + k ∧ number c.sdk (last + 1) = last + 1
  | .committing partition nextOffset _ => Covered handled c.topic partition nextOffset
  | _ => True

theorem StageCovered.mono {c : Consumer} (h : StageCovered handled c) (hsub : handled ⊆ handled') :
    StageCovered handled' c := by
  unfold StageCovered at h ⊢
  cases hstage : c.stage with
  | located partition startOffset todo =>
    rw [hstage] at h
    exact Covered.mono h hsub
  | handling partition last records todo =>
    rw [hstage] at h
    obtain ⟨next, k, hrecords, hcovered, hlast⟩ := h
    exact ⟨next, k, hrecords, hcovered.mono hsub, hlast⟩
  | committing partition nextOffset todo =>
    rw [hstage] at h
    exact Covered.mono h hsub
  | _ => trivial

/-- A move whose offsets the language of the client holds exactly. -/
def Exact (group : Str) (co : Coordinator) (c : Consumer) : Move → Prop
  | .offset =>
      match c.stage with
      | .polling (partition :: _) => c.sdk = .typescript →
          (co.offsetManager.getOffset group c.topic partition).natAbs < 2 ^ 53
      | _ => True
  | .consume count =>
      match c.stage with
      | .located _ startOffset _ => c.sdk = .typescript → startOffset.natAbs + count < 2 ^ 53
      | _ => True
  | _ => True

section Moves

variable {group : Str} {co : Coordinator} {c : Consumer} {handled : List Record}

/-- A move keeps the consumer covered and sends covered commits. -/
def Keeps (group : Str) (handled : List Record) (o : Outcome) : Prop :=
  StageCovered (handled ++ o.handled.toList) o.consumer ∧
    ∀ s ∈ o.sent, s.groupName = group ∧
      Covered (handled ++ o.handled.toList) s.topic s.partition s.offset

theorem keeps_quiet (hsent : o.sent = none) (hhandled : o.handled = none)
    (hstage : StageCovered handled o.consumer) : Keeps group handled o := by
  refine ⟨?_, ?_⟩
  · rw [hhandled]
    exact hstage.mono (List.subset_append_left _ _)
  · simp [hsent]

theorem keeps_stay {c' : Consumer} (hstage : StageCovered handled c') :
    Keeps group handled (stay co c') :=
  keeps_quiet rfl rfl hstage

theorem synced_covered (attempt : ℕ) (result : Except GroupError JoinResult) :
    StageCovered handled (synced c attempt result) := by
  cases result with
  | ok result => trivial
  | error e =>
    unfold synced
    dsimp only
    split
    · trivial
    · trivial

theorem nextPass_covered : StageCovered handled { c with stage := nextPass c } := by
  unfold nextPass
  split
  · trivial
  · split
    · split
      · trivial
      · trivial
    · trivial

/-- Messages are fetched from where the consumer stands. -/
theorem fetched_covered {startOffset : Int} (count : ℕ)
    (hcovered : Covered handled c.topic partition startOffset)
    (hsmall : c.sdk = .typescript → startOffset.natAbs + count < 2 ^ 53) :
    StageCovered handled { c with stage := fetched c partition startOffset count todo } := by
  cases count with
  | zero => trivial
  | succ k =>
    have hlast : number c.sdk (startOffset + k) = startOffset + k :=
      number_of_small (fun hsdk => by have := hsmall hsdk; omega)
    refine ⟨startOffset, k, rfl, hcovered, hlast, ?_⟩
    rw [hlast]
    exact number_of_small (fun hsdk => by have := hsmall hsdk; omega)

/-- One more record is handled, and the last of them makes way for the commit. -/
theorem handledTo_covered {last offset : Int} {records : List Int}
    (h : StageCovered handled
      { c with stage := .handling partition last (offset :: records) todo }) :
    StageCovered (handled ++ [⟨c.topic, partition, offset⟩])
      { c with stage := handledTo c partition last records todo } := by
  obtain ⟨next, k, hrecords, hcovered, hlast, hexact⟩ := h
  rw [consecutive_succ, List.cons.injEq] at hrecords
  obtain ⟨rfl, rfl⟩ := hrecords
  cases k with
  | zero =>
    have hnext : number c.sdk (last + 1) = offset + 1 := by
      rw [hexact, hlast]
      simp
    show Covered _ c.topic partition (number c.sdk (last + 1))
    rw [hnext]
    exact hcovered.succ
  | succ j =>
    have hrest : consecutive (offset + 1) (j + 1) =
        (offset + 1) :: consecutive (offset + 1 + 1) j := consecutive_succ _ _
    have hstage : handledTo c partition last (consecutive (offset + 1) (j + 1)) todo =
        .handling partition last (consecutive (offset + 1) (j + 1)) todo := by
      rw [hrest]
      rfl
    rw [hstage]
    refine ⟨offset + 1, j, rfl, hcovered.succ, ?_, hexact⟩
    rw [hlast]
    push_cast
    omega

/-- No move of a consumer commits past what was handled. -/
theorem move_keeps (m : Move)
    (hcommitted : ∀ topic partition,
      Covered handled topic partition (co.offsetManager.getOffset group topic partition))
    (hc : StageCovered handled c) (hexact : Exact group co c m) :
    Keeps group handled (move group co c m) := by
  cases m with
  | join visit =>
    unfold move
    dsimp only
    split
    · exact keeps_quiet rfl rfl trivial
    · exact keeps_stay hc
  | sync visit =>
    unfold move
    dsimp only
    split
    · exact keeps_quiet rfl rfl (synced_covered _ _)
    · exact keeps_stay hc
  | heartbeat visit => exact keeps_quiet rfl rfl hc
  | heartbeatFails => exact keeps_stay hc
  | pass =>
    unfold move
    dsimp only
    split
    · exact keeps_stay nextPass_covered
    · exact keeps_stay hc
  | offset =>
    unfold move
    unfold Exact at hexact
    dsimp only at hexact ⊢
    split
    · rename_i partition todo hstage
      rw [hstage] at hexact
      split
      · refine keeps_stay ?_
        show Covered handled c.topic partition (number c.sdk _)
        rw [number_of_small hexact]
        exact hcommitted c.topic partition
      · exact keeps_stay trivial
    · exact keeps_stay hc
  | consume count =>
    unfold move
    unfold Exact at hexact
    dsimp only at hexact ⊢
    split
    · rename_i partition startOffset todo hstage
      rw [hstage] at hexact
      unfold StageCovered at hc
      rw [hstage] at hc
      exact keeps_stay (fetched_covered count hc hexact)
    · exact keeps_stay hc
  | eachMessage =>
    unfold move
    dsimp only
    split
    · rename_i partition last offset records todo hstage
      unfold StageCovered at hc
      rw [hstage] at hc
      exact ⟨handledTo_covered hc, by simp [stay]⟩
    · exact keeps_stay hc
  | commit =>
    unfold move
    dsimp only
    split
    · rename_i partition nextOffset todo hstage
      have hnext : Covered handled c.topic partition nextOffset := by
        unfold StageCovered at hc
        rwa [hstage] at hc
      refine ⟨hc.mono (List.subset_append_left _ _), ?_⟩
      rintro s ⟨rfl⟩
      exact ⟨rfl, hnext.mono (List.subset_append_left _ _)⟩
    · exact keeps_stay hc
  | committed =>
    unfold move
    dsimp only
    split
    · exact keeps_stay trivial
    · exact keeps_stay hc
  | commitRefused =>
    unfold move
    dsimp only
    split
    · split
      · exact keeps_stay trivial
      · exact keeps_stay trivial
    · exact keeps_stay hc
  | disconnect visit =>
    unfold move
    dsimp only
    split
    · exact keeps_quiet rfl rfl hc
    · exact keeps_stay hc
  | crash => exact keeps_stay trivial

end Moves

structure Delivered (group : Str) (w : World) : Prop where
  committed : ∀ topic partition, Covered w.handled topic partition
    (w.server.coordinator.offsetManager.getOffset group topic partition)
  received : ∀ c ∈ w.received, c.groupName = group ∧
    Covered w.handled c.topic c.partition c.offset
  validated : ∀ c ∈ w.server.validated, c.groupName = group →
    Covered w.handled c.topic c.partition c.offset
  consumers : ∀ c ∈ w.consumers, StageCovered w.handled c

/-- Every consumer that moves does so at offsets its language holds exactly. -/
def ExactStep (group : Str) (w : World) : Event → Prop
  | .move i m => ∀ c, w.consumers[i]? = some c → Exact group w.server.coordinator c m
  | _ => True

section Steps

variable {group : Str} {w : World} (h : Delivered group w)

include h

theorem delivered_server (server : Server)
    (hoffsets : server.coordinator.offsetManager = w.server.coordinator.offsetManager)
    (hvalidated : ∀ c ∈ server.validated, c.groupName = group →
      Covered w.handled c.topic c.partition c.offset) (received : List Commit)
    (hreceived : received ⊆ w.received) :
    Delivered group { w with server := server, received := received } where
  committed topic partition := by
    rw [hoffsets]
    exact h.committed topic partition
  received c hc := h.received c (hreceived hc)
  validated := hvalidated
  consumers := h.consumers

theorem delivered_start (settings : Settings) :
    Delivered group (step group w (.start settings)) := by
  refine ⟨h.committed, h.received, h.validated, ?_⟩
  intro c hc
  rcases List.mem_append.mp hc with hold | hnew
  · exact h.consumers c hold
  · rw [List.mem_singleton.mp hnew]
    trivial

theorem delivered_outcome {i : ℕ} (hkeeps : Keeps group w.handled o) :
    Delivered group (applyOutcome w i o) := by
  have hsub : w.handled ⊆ w.handled ++ o.handled.toList := List.subset_append_left _ _
  refine ⟨fun topic partition => (h.committed topic partition).mono hsub, ?_, ?_, ?_⟩
  · intro c hc
    rcases List.mem_append.mp hc with hold | hnew
    · obtain ⟨hgroup, hcovered⟩ := h.received c hold
      exact ⟨hgroup, hcovered.mono hsub⟩
    · exact hkeeps.2 c (Option.mem_toList.mp hnew)
  · intro c hc hgroup
    exact (h.validated c hc hgroup).mono hsub
  · intro c hc
    rcases List.mem_or_eq_of_mem_set hc with hold | rfl
    · exact (h.consumers c hold).mono hsub
    · exact hkeeps.1

theorem validated_validate (visit : Visit) {c : Commit}
    (hc : c.groupName = group → Covered w.handled c.topic c.partition c.offset) :
    ∀ c' ∈ (validate visit w.server c).validated, c'.groupName = group →
      Covered w.handled c'.topic c'.partition c'.offset := by
  unfold validate
  split
  · intro c' hc' hgroup
    rcases List.mem_append.mp hc' with hold | hnew
    · exact h.validated c' hold hgroup
    · rw [List.mem_singleton.mp hnew] at hgroup ⊢
      exact hc hgroup
  · exact h.validated

omit h in
theorem validate_offsets (visit : Visit) (s : Server) (c : Commit) :
    (validate visit s c).coordinator.offsetManager = s.coordinator.offsetManager := by
  unfold validate
  split
  · rfl
  · rfl

theorem delivered_validate (place : ℕ) (visit : Visit) :
    Delivered group (step group w (.validate place visit)) := by
  unfold step
  dsimp only
  split
  · exact h
  · rename_i c hc
    have hcovered := h.received c (List.mem_of_getElem? hc)
    exact delivered_server h _ (validate_offsets visit w.server c)
      (validated_validate h visit (fun _ => hcovered.2)) _ (List.eraseIdx_subset)

/-- A commit that is written names delivered records only. -/
theorem delivered_write (place : ℕ) : Delivered group (step group w (.write place)) := by
  unfold step CommitFencing.step
  dsimp only
  split
  · exact h
  · rename_i c hc
    have hmem : c ∈ w.server.validated := List.mem_of_getElem? hc
    refine ⟨?_, h.received, ?_, h.consumers⟩
    · intro topic partition
      by_cases hcell : (group, topic, partition) = (c.groupName, c.topic, c.partition)
      · obtain ⟨hgroup, hrest⟩ := Prod.mk.inj hcell
        obtain ⟨htopic, hpartition⟩ := Prod.mk.inj hrest
        have hstored : (write w.server place c).coordinator.offsetManager.getOffset group topic
            partition = c.offset := by
          rw [hgroup, htopic, hpartition]
          exact getOffset_commit_self ..
        show Covered w.handled topic partition _
        rw [hstored, htopic, hpartition]
        exact h.validated c hmem hgroup.symm
      · have hstored : (write w.server place c).coordinator.offsetManager.getOffset group topic
            partition = w.server.coordinator.offsetManager.getOffset group topic partition :=
          getOffset_commit_ne _ _ hcell
        show Covered w.handled topic partition _
        rw [hstored]
        exact h.committed topic partition
    · intro c' hc' hgroup
      exact h.validated c' (List.mem_of_mem_eraseIdx hc') hgroup

theorem step_delivered (e : Event) (hexact : ExactStep group w e) :
    Delivered group (step group w e) := by
  cases e with
  | start settings => exact delivered_start h settings
  | move i m =>
    unfold step
    dsimp only
    split
    · exact h
    · rename_i c hc
      exact delivered_outcome h (move_keeps m h.committed
        (h.consumers c (List.mem_of_getElem? hc)) (hexact c hc))
  | validate place visit => exact delivered_validate h place visit
  | write place => exact delivered_write h place
  | lose place => exact delivered_server h w.server rfl h.validated _ List.eraseIdx_subset
  | request request =>
    exact delivered_server h (setGroups w.server (serve w.server.coordinator.groupManager request))
      rfl h.validated _ (List.Subset.refl _)
  | foreign visit c =>
    unfold step
    dsimp only
    split
    · exact h
    · rename_i hother
      exact delivered_server h _ (validate_offsets visit w.server c)
        (validated_validate h visit (fun hgroup => absurd hgroup hother)) _ (List.Subset.refl _)

end Steps

/-- No offset of the group is committed yet. -/
def Uncommitted (group : Str) (co : Coordinator) : Prop :=
  ∀ topic partition, co.offsetManager.getOffset group topic partition = 0

theorem quiet_delivered {group : Str} {co : Coordinator} (h : Uncommitted group co) :
    Delivered group (quiet co) := by
  refine ⟨?_, by simp [quiet], by simp [quiet, idle], by simp [quiet]⟩
  intro topic partition
  rw [show (quiet co).server.coordinator = co from rfl, h topic partition]
  exact covered_zero _ _ _

/-- In every run in which the clients hold their offsets exactly, every record
below a committed offset was given to a handler call that completed. -/
theorem committed_was_handled (group : Str) (co : Coordinator) (hco : Uncommitted group co)
    (events : List Event) (hexact : Valid (step group) (ExactStep group) (quiet co) events)
    (topic : Str) (partition offset : Int) (hnonneg : 0 ≤ offset)
    (hbelow : offset <
      (run (step group) (quiet co) events).server.coordinator.offsetManager.getOffset
      group topic partition) :
    ⟨topic, partition, offset⟩ ∈ (run (step group) (quiet co) events).handled :=
  have hdelivered : Delivered group (run (step group) (quiet co) events) :=
    run_invariant (I := Delivered group) (fun _ e h hallowed => step_delivered h e hallowed)
      (quiet_delivered hco) hexact
  hdelivered.committed topic partition offset hnonneg hbelow

def opening (sdk : Sdk) : List Event :=
  [.start (onOrders sdk "c1"), .move 0 (.join prompt), .move 0 (.sync prompt), .move 0 .offset]

def retried : List Event :=
  opening .typescript ++
    [.move 0 (.consume 2), .move 0 .eachMessage, .move 0 .eachMessage, .move 0 .commit,
      .move 0 .commit, .validate 0 prompt, .validate 0 prompt, .write 0, .move 0 .crash,
      .start (onOrders .python "c2"), .move 1 (.join late), .move 1 (.sync late),
      .move 1 .offset, .move 1 (.consume 1), .move 1 .eachMessage, .write 0, .move 1 .crash]

/-- A commit that was retried names handled records only. -/
theorem committed_was_handled_retried :
    ((run (step (lit "g")) (quiet freshCoordinator)
        retried).server.coordinator.offsetManager.getOffset (lit "g") (lit "orders") 0 = 2) ∧
      ⟨lit "orders", 0, 1⟩ ∈ (run (step (lit "g")) (quiet freshCoordinator) retried).handled := by
  have hvalid : Valid (step (lit "g")) (ExactStep (lit "g")) (quiet freshCoordinator) retried := by
    refine ⟨trivial, ?_, ?_, ?_, ?_, ?_, ?_, ?_, ?_, trivial, trivial, trivial, ?_, trivial, ?_, ?_,
      ?_, ?_, ?_, trivial, ?_, trivial⟩
    all_goals
      rintro c ⟨rfl⟩
      first
        | exact trivial
        | exact fun _ => by decide
  refine ⟨by decide, ?_⟩
  exact committed_was_handled (lit "g") freshCoordinator (fun _ _ => rfl) retried hvalid
    (lit "orders") 0 1 (by decide) (by decide)

/-- A handler is called for every record that was fetched. -/
theorem run_handling (group : Str) (c : Consumer) (partition last next : Int) (k : ℕ)
    (w : World) :
    run (step group)
        { w with
          consumers := [{ c with
            stage := .handling partition last (consecutive next (k + 1)) [] }] }
        (List.replicate (k + 1) (.move 0 .eachMessage)) =
      { w with
        consumers := [{ c with stage := .committing partition (number c.sdk (last + 1)) [] }]
        handled := w.handled ++
          (consecutive next (k + 1)).map (fun o => ⟨c.topic, partition, o⟩) } := by
  induction k generalizing next w with
  | zero => simp [consecutive, step, move, applyOutcome, stay, handledTo, setGroups]
  | succ j ih =>
    rw [List.replicate_succ, run_cons, consecutive_succ]
    have hfirst : step group
        { w with
          consumers := [{ c with
            stage := .handling partition last (next :: consecutive (next + 1) (j + 1)) [] }] }
        (.move 0 .eachMessage) =
      { w with
        consumers := [{ c with
          stage := .handling partition last (consecutive (next + 1) (j + 1)) [] }]
        handled := w.handled ++ [⟨c.topic, partition, next⟩] } := by
      rw [consecutive_succ (next + 1) j]
      simp [step, move, applyOutcome, stay, handledTo, setGroups]
    rw [hfirst]
    have hrest := ih (next + 1) { w with handled := w.handled ++ [⟨c.topic, partition, next⟩] }
    rw [hrest]
    simp [List.append_assoc]

def lifelong (sdk : Sdk) (n : ℕ) : List Event :=
  opening sdk ++ [.move 0 (.consume (n + 1))] ++
    List.replicate (n + 1) (.move 0 .eachMessage) ++
    [.move 0 .commit, .validate 0 prompt, .write 0]

def opened (sdk : Sdk) : Consumer :=
  { onOrders sdk "c1" with
    generation := 2
    assigned := [0]
    running := true
    rejoinNeeded := false
    stage := .located 0 0 [] }

theorem run_opening (sdk : Sdk) : ∃ server : Server,
    run (step (lit "g")) (quiet freshCoordinator) (opening sdk) =
        ⟨server, [opened sdk], [], []⟩ ∧
      server.validated = [] ∧
      (validateCommit prompt server.coordinator.groupManager (lit "g") (lit "orders") (lit "c1")
        2 0).2 = .ok () := by
  refine ⟨(run (step (lit "g")) (quiet freshCoordinator) (opening sdk)).server, ?_, ?_, ?_⟩
  · cases sdk with
    | typescript => rfl
    | python => rfl
  · rfl
  · cases sdk with
    | typescript => rfl
    | python => rfl

/-- A commit of the opened consumer is validated and written. -/
theorem run_commit (sdk : Sdk) (server : Server) (next : Int) (handled : List Record)
    (hvalidated : server.validated = [])
    (hvalidate : (validateCommit prompt server.coordinator.groupManager (lit "g") (lit "orders")
      (lit "c1") 2 0).2 = .ok ()) :
    ∃ w : World, run (step (lit "g"))
        ⟨server, [{ opened sdk with stage := .committing 0 next [] }], [], handled⟩
        [.move 0 .commit, .validate 0 prompt, .write 0] = w ∧
      w.server.coordinator.offsetManager.getOffset (lit "g") (lit "orders") 0 = next ∧
      w.handled = handled := by
  refine ⟨_, rfl, ?_, ?_⟩
  · rcases hresult : validateCommit prompt server.coordinator.groupManager (lit "g")
      (lit "orders") (lit "c1") 2 0 with ⟨gm, _ | ok⟩
    · rw [hresult] at hvalidate
      cases hvalidate
    · simp [step, move, applyOutcome, stay, setGroups, validate, opened, onOrders, hresult,
        hvalidated, CommitFencing.step, write, getOffset_commit_self]
  · simp [step, move, applyOutcome, stay, opened, onOrders]

theorem run_lifelong (sdk : Sdk) (n : ℕ) :
    ((run (step (lit "g")) (quiet freshCoordinator)
        (lifelong sdk n)).server.coordinator.offsetManager.getOffset (lit "g") (lit "orders") 0 =
      number sdk (number sdk (0 + n) + 1)) ∧
    (run (step (lit "g")) (quiet freshCoordinator) (lifelong sdk n)).handled =
      (consecutive 0 (n + 1)).map (fun o => ⟨lit "orders", 0, o⟩) := by
  obtain ⟨server, hopening, hvalidated, hvalidate⟩ := run_opening sdk
  have hfetch : run (step (lit "g")) ⟨server, [opened sdk], [], []⟩ [.move 0 (.consume (n + 1))] =
      ⟨server, [{ opened sdk with
        stage := .handling 0 (number sdk (0 + n)) (consecutive 0 (n + 1)) [] }], [], []⟩ := by
    simp [step, move, applyOutcome, stay, fetched, setGroups, opened, onOrders]
  have hhandle := run_handling (lit "g") (opened sdk) 0 (number sdk (0 + n)) 0 n
    ⟨server, [], [], []⟩
  obtain ⟨w, hcommit, hoffset, hhandled⟩ := run_commit sdk server
    (number sdk (number sdk (0 + n) + 1))
    ((consecutive 0 (n + 1)).map (fun o => ⟨lit "orders", 0, o⟩)) hvalidated hvalidate
  have hrun : run (step (lit "g")) (quiet freshCoordinator) (lifelong sdk n) = w := by
    rw [lifelong, run_append, run_append, run_append, hopening, hfetch]
    exact (congrArg (fun w => run (step (lit "g")) w
      [.move 0 .commit, .validate 0 prompt, .write 0]) hhandle).trans hcommit
  rw [hrun]
  exact ⟨hoffset, hhandled⟩

/-- The JavaScript client adds one to the offset 2 ^ 53 + 2 and commits
2 ^ 53 + 4, so that the record between is skipped. -/
theorem rounded_commit_skips_record : ∃ w : World,
    run (step (lit "g")) (quiet freshCoordinator) (lifelong .typescript (2 ^ 53 + 2)) = w ∧
      w.server.coordinator.offsetManager.getOffset (lit "g") (lit "orders") 0 = 2 ^ 53 + 4 ∧
      ⟨lit "orders", 0, 2 ^ 53 + 3⟩ ∉ w.handled := by
  obtain ⟨hoffset, hhandled⟩ := run_lifelong .typescript (2 ^ 53 + 2)
  refine ⟨_, rfl, hoffset.trans (by decide), ?_⟩
  rw [hhandled]
  simp only [consecutive, List.map_map, List.mem_map, List.mem_range, Function.comp_apply,
    Record.mk.injEq, true_and, not_exists, not_and]
  intro k hk
  omega

end Flux.AtLeastOnce
