import Flux.ProduceReceipts

/-!
What an `OK` to a producer is worth. A broker serves requests side by side, its
runtime ticks, and it may stop and start again on its data directory. As long as
no file operation fails and the topics have plain names, every record that was
acknowledged is in its log until retention removes it, and no two answers show
the same offset of a partition.
-/
namespace Flux.AcknowledgedWrites

open GoRuntime GoStrings FiniteMap BrokerConfig PartitionStorage Groups OffsetCommits Runs
open StorageAppends StorageCalls StorageRuns BrokerNode BrokerRuns Receipts ProduceReceipts
open ProgramCalls

abbrev Session := Desk Broker Panic Event Str

variable {s : Session} {i n : ℕ} {response text : Str} {r : Receipt}

/-- An event starts its program, a program goes on, or the process is started
again, with what it finds on disk. -/
inductive Happening
  | start (event : Event)
  | advance (i : ℕ)
  | restart (env : Surroundings) (cfg : Config) (fallbackHost : Str) (fallbackPort : Int)
      (file : GroupsFile) (offsets : OffsetManager)

def step (s : Session) : Happening → Session
  | .start event => s.accept event event.program
  | .advance i => s.advance i
  | .restart env cfg fallbackHost fallbackPort file offsets =>
      s.renew (fun b => newBroker env cfg fallbackHost fallbackPort b.storage.disk file offsets)

section Start

variable (env : Surroundings) (cfg : Config) (fallbackHost : Str) (fallbackPort : Int)
  (file : GroupsFile) (offsets : OffsetManager)

def fresh : Session :=
  ⟨newBroker env cfg fallbackHost fallbackPort FMap.empty file offsets, true, []⟩

end Start

def exchange (s : Session) (i : ℕ) : Option (Str × Str) :=
  match s.requests[i]? with
  | some (.line _ text, .answered response) => some (text, response)
  | _ => none

def Answered (s : Session) (i : ℕ) (r : Receipt) : Prop :=
  ∃ text response, exchange s i = some (text, response) ∧ Acknowledges text response r

/-- No file operation of the storage fails in what happens. -/
def Happening.Tame : Happening → Prop
  | .start event => ProduceReceipts.Tame event
  | .advance _ => True
  | .restart env _ _ _ _ _ => Succeeds env.storage

theorem exchange_some (h : exchange s i = some (text, response)) :
    ∃ env, s.requests[i]? = some (.line env text, .answered response) := by
  unfold exchange at h
  split at h
  · rename_i env text' response' hget
    cases h
    exact ⟨env, hget⟩
  · cases h

abbrev Honours (s : Session) (receipt : ℕ → Option Receipt) : Prop :=
  Held Ready (Touches Replicated) Appended Truthful (fun b r => Honoured b.storage r) Receipt.key
    s receipt

theorem Honours.answered {receipt : ℕ → Option Receipt} (h : Honours s receipt)
    (hr : Answered s i r) : receipt i = some r := by
  obtain ⟨text, response, hexchange, hack⟩ := hr
  obtain ⟨env, hget⟩ := exchange_some hexchange
  exact h.follows i _ hget env text r rfl hack

theorem sound_succ {s : Storage} (h : Sound n s) : Sound (n + 1) s where
  named := h.named
  logs t p ht hp := by
    obtain ⟨L, hL, hb⟩ := h.logs t p ht hp
    have hnext := hb.next
    refine ⟨L, hL, by omega, fun k hk => ?_⟩
    have := hb.ids k hk
    omega

/-- A call that is no producer's append leaves the logs in order. -/
theorem touched_spec (hn : n + 1 < 2 ^ 63) {b b' : Broker} (hsound : Sound n b.storage)
    (h : Touches Replicated b b') :
    Sound (n + 1) b'.storage ∧ ∀ r, Honoured b.storage r → Honoured b'.storage r := by
  cases h with
  | storage hstored =>
    obtain ⟨env, topic, partition, offset, value, hadm, rfl⟩ := hstored
    have hspec := replicated_spec hsound hn hadm
    exact ⟨hspec.sound, fun r hr => hr.step hspec⟩
  | same => exact ⟨sound_succ hsound, fun r hr => hr⟩
  | replication m => exact ⟨sound_succ hsound, fun r hr => hr⟩
  | coordinator c => exact ⟨sound_succ hsound, fun r hr => hr⟩
  | workers w => exact ⟨sound_succ hsound, fun r hr => hr⟩
  | controller hstore => exact ⟨sound_succ hsound, fun r hr => hr⟩

structure Served (n : ℕ) (s : Session) : Prop where
  sound : Sound n s.state.storage
  honours : ∃ receipt, Honours s receipt

theorem Served.advance (hn : n + 1 < 2 ^ 63) (h : Served n s) (hfollowing : Following s.state)
    (i : ℕ) : Served (n + 1) (s.advance i) := by
  obtain ⟨hsound, receipt, hhonours⟩ := h
  have hgives : ∀ r b', Appended r s.state b' → Sound (n + 1) b'.storage ∧
      Honoured b'.storage r ∧
      ∀ q, Honoured s.state.storage q → Honoured b'.storage q ∧ q.key ≠ r.key := by
    rintro r b' ⟨env, hadm, hstorage, hoffset⟩
    rw [hstorage]
    exact ⟨(produced_spec hsound hn hadm).sound, honoured_produced hsound hn hadm hoffset⟩
  obtain ⟨hheld, hmoved⟩ := hhonours.advance ⟨hfollowing, n, hn, hsound⟩
    (fun b' hcall => (touched_spec hn hsound hcall).2) (fun r b' hgive => (hgives r b' hgive).2) i
  refine ⟨?_, hheld⟩
  rcases hmoved with hsame | hcall | ⟨r, hgive⟩
  · rw [hsame]
    exact sound_succ hsound
  · exact (touched_spec hn hsound hcall).1
  · exact (hgives r _ hgive).1

theorem Served.step (n : ℕ) (s : Session) (happening : Happening) (hn : n + 1 < 2 ^ 63)
    (h : Served n s) (hallowed : happening.Tame ∧ Following s.state) :
    Served (n + 1) (step s happening) := by
  obtain ⟨htame, hfollowing⟩ := hallowed
  cases happening with
  | start event =>
    obtain ⟨hsound, receipt, hhonours⟩ := h
    refine ⟨?_, receipt, hhonours.accept (gives_program event htame)⟩
    have hstate : (s.accept event event.program).state = s.state := by
      unfold Desk.accept
      split
      · rfl
      · rfl
    rw [AcknowledgedWrites.step, hstate]
    exact sound_succ hsound
  | advance i => exact h.advance hn hfollowing i
  | restart env cfg fallbackHost fallbackPort file offsets =>
    obtain ⟨hsound, receipt, hhonours⟩ := h
    have hspec := restarted_spec hsound htame (newSettings cfg)
    have hrestarted := hhonours.renew
      (f := fun b => newBroker env cfg fallbackHost fallbackPort b.storage.disk file offsets)
      (fun r hr => hr.step hspec)
    exact ⟨hspec.sound, receipt, hrestarted⟩

section Runs

variable {env : Surroundings} (hok : Succeeds env.storage) (cfg : Config) (fallbackHost : Str)
  (fallbackPort : Int) (file : GroupsFile) (offsets : OffsetManager)

include hok

theorem served_fresh : Served 0 (fresh env cfg fallbackHost fallbackPort file offsets) := by
  refine ⟨sound_empty hok (newSettings cfg), fun _ => none, ?_⟩
  refine ⟨fun i r hr => ?_, fun i j r q hr => ?_, fun i request hget => ?_, fun _ _ => rfl⟩
  · cases hr
  · cases hr
  · simp only [fresh, List.getElem?_nil, reduceCtorEq] at hget

/-- In every state of a run in which no file operation fails, topics have plain
names and values are short, every acknowledged record is in its log until
retention removes it, and no offset of a partition is acknowledged to two
requests. -/
theorem acknowledged_writes_kept (happenings : List Happening)
    (htame : ∀ happening ∈ happenings, happening.Tame)
    (hfollowing : Valid step (fun s _ => Following s.state)
      (fresh env cfg fallbackHost fallbackPort file offsets) happenings)
    (hlength : happenings.length < 2 ^ 63) :
    let s := run step (fresh env cfg fallbackHost fallbackPort file offsets) happenings
    (∀ i r, Answered s i r → Recorded s.state.storage r) ∧
      ∀ i j r q, Answered s i r → Answered s j q → r.key = q.key → i = j := by
  have hserved := run_counted Served.step
    (served_fresh hok cfg fallbackHost fallbackPort file offsets)
    (hfollowing.and_forall htame) (by omega)
  obtain ⟨hsound, receipt, hhonours⟩ := hserved
  refine ⟨fun i r hr => ?_, fun i j r q hr hq hkey => ?_⟩
  · exact (hhonours.good i r (hhonours.answered hr)).recorded hsound
  · exact hhonours.apart i j r q (hhonours.answered hr) (hhonours.answered hq) hkey

end Runs

instance (topic : Str) : Decidable (Plain topic) :=
  decidable_of_iff (topic ≠ [] ∧ (47 : UInt8) ∉ topic ∧ ¬ lit "-segment" <:+: topic ∧
      ¬ lit "-replica" <:+: topic)
    ⟨fun h => ⟨h.1, h.2.1, h.2.2.1, h.2.2.2⟩,
      fun h => ⟨h.nonempty, h.no_slash, h.no_segment, h.no_replica⟩⟩

instance (n : Int) : Decidable (StorageFrames.Natural n) :=
  inferInstanceAs (Decidable (0 ≤ n ∧ InInt64 n))

instance (b : Broker) : Decidable (Following b) :=
  inferInstanceAs (Decidable (∀ key ∈ b.workers.keys, ∀ state ∈ b.workers.get key,
    Plain state.worker.topic ∧ StorageFrames.Natural state.worker.partition))

instance (value : Str) : Decidable (Short value) :=
  inferInstanceAs (Decidable (value.length + 52 ≤ LogLines.maxScanTokenSize))

def lone : Session := fresh quiet alone [] 0 (.holds FMap.empty) ⟨FMap.empty⟩

def firstLine : Str := lit "V1|1|PRODUCE|orders k:v"

def secondLine : Str := lit "V1|2|PRODUCE|orders k:w"

theorem acknowledges_first (offset hw : Int) :
    Acknowledges firstLine
      (okLine ⟨lit "V1", lit "1", lit "PRODUCE", [lit "orders", lit "k:v"]⟩ 0 offset hw)
      ⟨lit "orders", 0, offset, lit "v"⟩ :=
  have hsplit : Cuts.splitN [58] 2 (lit "k:v") = [lit "k", lit "v"] := by decide +kernel
  ⟨_, hw, by decide +kernel, ⟨rfl, _, [], _, rfl, hsplit⟩, rfl⟩

theorem acknowledges_second (offset hw : Int) :
    Acknowledges secondLine
      (okLine ⟨lit "V1", lit "2", lit "PRODUCE", [lit "orders", lit "k:w"]⟩ 0 offset hw)
      ⟨lit "orders", 0, offset, lit "w"⟩ :=
  have hsplit : Cuts.splitN [58] 2 (lit "k:w") = [lit "k", lit "w"] := by decide +kernel
  ⟨_, hw, by decide +kernel, ⟨rfl, _, [], _, rfl, hsplit⟩, rfl⟩

theorem tameLine_of_acknowledges (h : Acknowledges text response r) (ht : Plain r.topic)
    (hshort : Short r.value) : TameLine quiet text := by
  intro req topic value hreq hproduces
  obtain ⟨req', hw, hreq', hproduces', -⟩ := h
  rw [hreq] at hreq'
  cases hreq'
  obtain ⟨rfl, rfl⟩ := hproduces.unique hproduces'
  exact ⟨calm_succeeds 0, ht, hshort⟩

def restarted : List Happening :=
  [.start (.line quiet firstLine)] ++ List.replicate 14 (.advance 0) ++
    [.restart quiet alone [] 0 (.holds FMap.empty) ⟨FMap.empty⟩,
      .start (.line quiet secondLine)] ++ List.replicate 14 (.advance 1)

theorem acknowledged_writes_kept_restarted :
    let s := run step lone restarted
    Answered s 0 ⟨lit "orders", 0, 0, lit "v"⟩ ∧ Answered s 1 ⟨lit "orders", 0, 1, lit "w"⟩ ∧
      Recorded s.state.storage ⟨lit "orders", 0, 0, lit "v"⟩ ∧
      Recorded s.state.storage ⟨lit "orders", 0, 1, lit "w"⟩ := by
  have hfirst : Answered (run step lone restarted) 0 ⟨lit "orders", 0, 0, lit "v"⟩ :=
    ⟨_, _, by decide +kernel, acknowledges_first 0 0⟩
  have hsecond : Answered (run step lone restarted) 1 ⟨lit "orders", 0, 1, lit "w"⟩ :=
    ⟨_, _, by decide +kernel, acknowledges_second 1 1⟩
  have htame : ∀ happening ∈ restarted, happening.Tame := by
    intro happening hmem
    simp only [restarted, List.mem_append, List.mem_cons, List.not_mem_nil, or_false,
      List.mem_replicate] at hmem
    rcases hmem with ((rfl | ⟨-, rfl⟩) | rfl | rfl) | ⟨-, rfl⟩
    · exact tameLine_of_acknowledges (acknowledges_first 0 0) (by decide) (by decide)
    · trivial
    · exact calm_succeeds 0
    · exact tameLine_of_acknowledges (acknowledges_second 0 0) (by decide) (by decide)
    · trivial
  have hok : Succeeds quiet.storage := calm_succeeds 0
  obtain ⟨hkept, -⟩ := acknowledged_writes_kept hok alone [] 0 (.holds FMap.empty) ⟨FMap.empty⟩
    restarted htame (by decide +kernel) (by decide)
  exact ⟨hfirst, hsecond, hkept 0 _ hfirst, hkept 1 _ hsecond⟩

def refusing : Surroundings where
  clock := quiet.clock
  polls := []
  storage := { calm 0 with mkdirOk := false }
  visit := quiet.visit
  order := quiet.order
  order_perm := quiet.order_perm

def refusals : List Happening :=
  [.start (.line refusing firstLine)] ++ List.replicate 14 (.advance 0) ++
    [.start (.line refusing secondLine)] ++ List.replicate 14 (.advance 1)

/-- Two producers are told that their records are at the same offset, and the log
has neither. -/
theorem refused_writes_acknowledged :
    let s := run step lone refusals
    Answered s 0 ⟨lit "orders", 0, 0, lit "v"⟩ ∧ Answered s 1 ⟨lit "orders", 0, 0, lit "w"⟩ ∧
      ¬ Recorded s.state.storage ⟨lit "orders", 0, 0, lit "v"⟩ ∧
      ¬ Recorded s.state.storage ⟨lit "orders", 0, 0, lit "w"⟩ := by
  have hempty : messagesOf (run step lone refusals).state.storage (lit "orders") 0 = [] := by
    decide +kernel
  refine ⟨⟨_, _, by decide +kernel, acknowledges_first 0 0⟩,
    ⟨_, _, by decide +kernel, acknowledges_second 0 0⟩, ?_, ?_⟩
  · simp [Recorded, hempty]
  · simp [Recorded, hempty]

end Flux.AcknowledgedWrites
