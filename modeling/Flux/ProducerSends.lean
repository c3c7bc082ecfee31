import Flux.GoStrings
import Mathlib.Data.List.Nodup
import Mathlib.Data.List.Range

/-!
One `send` call of the two producers. Both try each message several times and
change the endpoint after errors that another broker may not have. The TypeScript
runtime goes on with the message at hand; the Python runtime starts the whole list
again, so what was acknowledged before is sent once more.
-/
namespace Flux.ProducerSends

open GoStrings

inductive Failure
  | protocol (code message : Str)
  | other (message : Str)
  deriving DecidableEq, Repr

def Failure.message : Failure → Str
  | .protocol _ message => message
  | .other message => message

def isRetryableBrokerError (refused : String) (err : Failure) : Bool :=
  let notLeader : Bool :=
    match err with
    | .protocol code _ => code = lit "NOT_LEADER"
    | .other _ => false
  notLeader || decide (lit "connection closed" <:+: err.message) ||
    decide (lit refused <:+: err.message) || decide (lit "timed out" <:+: err.message) ||
    decide (lit "socket hang up" <:+: err.message)

structure Attempt where
  endpoint : ℕ
  message : ℕ
  acked : Bool
  deriving DecidableEq, Repr

structure Session where
  endpointIndex : ℕ
  interactions : ℕ
  attempts : List Attempt
  deriving DecidableEq, Repr

/-- What each interaction with a broker ends in, in order. -/
abbrev Outcomes := ℕ → Option Failure

abbrev Action := Session → Session × Option Failure

def connect (outcomes : Outcomes) : Action := fun s =>
  ({ s with interactions := s.interactions + 1 }, outcomes s.interactions)

def produce (outcomes : Outcomes) (message : ℕ) : Action := fun s =>
  ({ s with
    interactions := s.interactions + 1
    attempts := s.attempts ++
      [⟨s.endpointIndex, message, (outcomes s.interactions).isNone⟩] },
    outcomes s.interactions)

def rotateClient (endpoints : ℕ) (s : Session) : Session :=
  { s with endpointIndex := (s.endpointIndex + 1) % endpoints }

def withRetry (onRetry : Failure → Action) (fn : Action) : ℕ → Action
  | 0, s => fn s
  | retries + 1, s =>
      match fn s with
      | (s, none) => (s, none)
      | (s, some err) =>
          match onRetry err s with
          | (s, some err') => (s, some err')
          | (s, none) => withRetry onRetry fn retries s

def forEach {α : Type} (body : α → Action) : List α → Action
  | [], s => (s, none)
  | a :: rest, s =>
      match body a s with
      | (s, some err) => (s, some err)
      | (s, none) => forEach body rest s

def batches {α : Type} (size : ℕ) : ℕ → List α → List (List α)
  | 0, _ => []
  | fuel + 1, l => if l = [] then [] else l.take size :: batches size fuel (l.drop size)

def sendBatches (body : ℕ → Action) (batchSize count : ℕ) : Action :=
  forEach (forEach body) (batches batchSize count (List.range count))

namespace TypeScript

def onConnectRetry (endpoints : ℕ) (err : Failure) : Action := fun s =>
  (if isRetryableBrokerError "ECONNREFUSED" err then rotateClient endpoints s else s, none)

def onProduceRetry (outcomes : Outcomes) (endpoints : ℕ) (err : Failure) : Action := fun s =>
  if isRetryableBrokerError "ECONNREFUSED" err then connect outcomes (rotateClient endpoints s)
  else (s, none)

def send (outcomes : Outcomes) (endpoints maxRetries batchSize count : ℕ) : Action := fun s =>
  if count = 0 then (s, none)
  else
    match withRetry (onConnectRetry endpoints) (connect outcomes) maxRetries s with
    | (s, some err) => (s, some err)
    | (s, none) =>
        sendBatches (fun message =>
          withRetry (onProduceRetry outcomes endpoints) (produce outcomes message) maxRetries)
          batchSize count s

end TypeScript

namespace Python

/-- `FLUXProducer.send` -/
def sendOnce (outcomes : Outcomes) (maxRetries batchSize count : ℕ) : Action := fun s =>
  if count = 0 then (s, none)
  else
    match withRetry (fun _ s => (s, none)) (connect outcomes) maxRetries s with
    | (s, some err) => (s, some err)
    | (s, none) =>
        sendBatches (fun message =>
          withRetry (fun _ s => (s, none)) (produce outcomes message) maxRetries) batchSize count s

/-- The loop of `wrapped_send`, by the attempts that are left after this one. -/
def wrappedSend (outcomes : Outcomes) (endpoints maxRetries batchSize count : ℕ) : ℕ → Action
  | 0, s => sendOnce outcomes maxRetries batchSize count s
  | left + 1, s =>
      match sendOnce outcomes maxRetries batchSize count s with
      | (s, none) => (s, none)
      | (s, some err) =>
          if isRetryableBrokerError "Connection refused" err then
            wrappedSend outcomes endpoints maxRetries batchSize count left
              (rotateClient endpoints s)
          else (s, some err)

def send (outcomes : Outcomes) (endpoints maxRetries batchSize count : ℕ) : Action :=
  wrappedSend outcomes endpoints maxRetries batchSize count (max 1 endpoints - 1)

end Python

def acks (attempts : List Attempt) : List ℕ :=
  (attempts.filter (fun a => a.acked)).map Attempt.message

/-- What is asked of one call: no message goes out after its acknowledgement, the
messages before it in the list were acknowledged earlier, and a call that ends
without an error has acknowledged all. -/
structure Orderly (count : ℕ) (attempts : List Attempt) (result : Option Failure) : Prop where
  once : attempts.Pairwise (fun a b => a.acked = true → b.message ≠ a.message)
  inOrder : ∀ front a back, attempts = front ++ a :: back → a.acked = true →
    ∀ i < a.message, i ∈ acks front
  complete : result = none → ∀ i < count, i ∈ acks attempts

inductive Submits : List ℕ → List Attempt → Bool → Prop
  | nil : Submits [] [] true
  | stopped {i : ℕ} {rest : List ℕ} {failed : List Attempt}
      (hfailed : ∀ a ∈ failed, a.message = i ∧ a.acked = false) :
      Submits (i :: rest) failed false
  | next {i : ℕ} {rest : List ℕ} {failed new : List Attempt} {a : Attempt} {finished : Bool}
      (hfailed : ∀ a ∈ failed, a.message = i ∧ a.acked = false) (hmessage : a.message = i)
      (hacked : a.acked = true) (h : Submits rest new finished) :
      Submits (i :: rest) (failed ++ a :: new) finished

section Submitted

variable {l : List ℕ} {new : List Attempt} {finished : Bool}

theorem acks_append (front back : List Attempt) :
    acks (front ++ back) = acks front ++ acks back := by
  simp [acks]

theorem acks_failed {failed : List Attempt} {i : ℕ}
    (h : ∀ a ∈ failed, a.message = i ∧ a.acked = false) : acks failed = [] := by
  rw [acks, List.filter_eq_nil_iff.mpr (fun a ha => by simp [(h a ha).2]), List.map_nil]

theorem Submits.mem (h : Submits l new finished) {a : Attempt} (ha : a ∈ new) : a.message ∈ l := by
  induction h with
  | nil => exact absurd ha List.not_mem_nil
  | stopped hfailed =>
    rw [(hfailed a ha).1]
    exact List.mem_cons_self ..
  | next hfailed hmessage hacked h ih =>
    rcases List.mem_append.mp ha with hfront | hback
    · rw [(hfailed a hfront).1]
      exact List.mem_cons_self ..
    · rcases List.mem_cons.mp hback with rfl | hnew
      · rw [hmessage]
        exact List.mem_cons_self ..
      · exact List.mem_cons_of_mem _ (ih hnew)

theorem once_failed {failed : List Attempt} {i : ℕ}
    (h : ∀ a ∈ failed, a.message = i ∧ a.acked = false) :
    failed.Pairwise (fun a b => a.acked = true → b.message ≠ a.message) := by
  refine List.pairwise_iff_forall_sublist.mpr (fun {a b} hsub hacked => ?_)
  rw [(h a (hsub.subset (List.mem_cons_self ..))).2] at hacked
  cases hacked

theorem Submits.once (h : Submits l new finished) (hnodup : l.Nodup) :
    new.Pairwise (fun a b => a.acked = true → b.message ≠ a.message) := by
  induction h with
  | nil => exact List.Pairwise.nil
  | stopped hfailed => exact once_failed hfailed
  | @next i rest failed new a finished hfailed hmessage hacked h ih =>
    obtain ⟨hnot, hrest⟩ := List.nodup_cons.mp hnodup
    have hlate : ∀ b ∈ new, b.message ≠ i := fun b hb heq => hnot (heq ▸ h.mem hb)
    refine List.pairwise_append.mpr ⟨once_failed hfailed,
      List.pairwise_cons.mpr ⟨?_, ih hrest⟩, ?_⟩
    · intro b hb _
      rw [hmessage]
      exact hlate b hb
    · intro b hb c _ hb'
      rw [(hfailed b hb).2] at hb'
      cases hb'

/-- The acknowledged messages are the first ones of the list, all if it was finished. -/
theorem Submits.acks_eq (h : Submits l new finished) :
    acks new <+: l ∧ (finished = true → acks new = l) := by
  induction h with
  | nil => exact ⟨List.prefix_refl _, fun _ => rfl⟩
  | stopped hfailed =>
    rw [acks_failed hfailed]
    exact ⟨List.nil_prefix, fun hfinished => by cases hfinished⟩
  | @next i rest failed new a finished hfailed hmessage hacked h ih =>
    have hacks : acks (failed ++ a :: new) = i :: acks new := by
      rw [acks_append, acks_failed hfailed, List.nil_append]
      simp [acks, hacked, hmessage]
    rw [hacks]
    exact ⟨List.cons_prefix_cons.mpr ⟨rfl, ih.1⟩, fun hfinished => by rw [ih.2 hfinished]⟩

/-- Submissions of the whole list in order are as they should be. -/
theorem orderly_of_submits {count : ℕ} {result : Option Failure}
    (h : Submits (List.range count) new result.isNone) : Orderly count new result := by
  obtain ⟨hfrontOf, hall⟩ := h.acks_eq
  refine ⟨h.once List.nodup_range, fun front a back hsplit hacked i hi => ?_, fun hnone => ?_⟩
  · have hacks : acks new = acks front ++ a.message :: acks back := by
      rw [hsplit, acks_append]
      simp [acks, hacked]
    obtain ⟨rest, hrest⟩ := hacks ▸ hfrontOf
    have hsorted : (List.range count).Pairwise (· < ·) := List.pairwise_lt_range
    have hmem : i ∈ List.range count := by
      have hplace : a.message ∈ List.range count := by
        rw [← hrest]
        simp
      rw [List.mem_range] at hplace ⊢
      omega
    rw [← hrest, List.append_assoc] at hsorted hmem
    rcases List.mem_append.mp hmem with hfront | hback
    · exact hfront
    · have hafter := (List.pairwise_cons.mp (List.pairwise_append.mp hsorted).2.1).1
      rcases List.mem_cons.mp hback with heq | hlater
      · omega
      · have := hafter i hlater
        omega
  · intro i hi
    rw [hall (by rw [hnone]; rfl)]
    exact List.mem_range.mpr hi

end Submitted

section Actions

variable (outcomes : Outcomes) {onRetry : Failure → Action}

def Quiet (onRetry : Failure → Action) : Prop :=
  ∀ err s, (onRetry err s).1.attempts = s.attempts

theorem quiet_none : Quiet (fun _ s => (s, none)) := fun _ _ => rfl

/-- A message is tried until it is acknowledged or the loop gives up. -/
theorem withRetry_produce (hquiet : Quiet onRetry) (i retries : ℕ) (s : Session) :
    ∃ failed, (∀ a ∈ failed, a.message = i ∧ a.acked = false) ∧
      ((∃ err, (withRetry onRetry (produce outcomes i) retries s).2 = some err ∧
        (withRetry onRetry (produce outcomes i) retries s).1.attempts = s.attempts ++ failed) ∨
      ∃ a : Attempt, a.message = i ∧ a.acked = true ∧
        (withRetry onRetry (produce outcomes i) retries s).2 = none ∧
        (withRetry onRetry (produce outcomes i) retries s).1.attempts =
          s.attempts ++ (failed ++ [a])) := by
  have hone : ∀ e : ℕ, ∀ a ∈ [(⟨e, i, false⟩ : Attempt)], a.message = i ∧ a.acked = false :=
    fun e => List.forall_mem_singleton.mpr ⟨rfl, rfl⟩
  induction retries generalizing s with
  | zero =>
    cases hout : outcomes s.interactions with
    | none =>
      refine ⟨[], by simp, .inr ⟨⟨s.endpointIndex, i, true⟩, rfl, rfl, hout, ?_⟩⟩
      simp [withRetry, produce, hout]
    | some err =>
      refine ⟨_, hone s.endpointIndex, .inl ⟨err, hout, ?_⟩⟩
      simp [withRetry, produce, hout]
  | succ retries ih =>
    cases hout : outcomes s.interactions with
    | none =>
      refine ⟨[], by simp, .inr ⟨⟨s.endpointIndex, i, true⟩, rfl, rfl, ?_, ?_⟩⟩
      · simp [withRetry, produce, hout]
      · simp [withRetry, produce, hout]
    | some err =>
      have hfirst : produce outcomes i s = ({ s with
          interactions := s.interactions + 1
          attempts := s.attempts ++ [⟨s.endpointIndex, i, false⟩] }, some err) := by
        simp [produce, hout]
      simp only [withRetry, hfirst]
      cases hretry : onRetry err { s with
          interactions := s.interactions + 1
          attempts := s.attempts ++ [⟨s.endpointIndex, i, false⟩] } with
      | mk s₁ r =>
        have hattempts : s₁.attempts = s.attempts ++ [⟨s.endpointIndex, i, false⟩] := by
          have hsame := hquiet err { s with
            interactions := s.interactions + 1
            attempts := s.attempts ++ [⟨s.endpointIndex, i, false⟩] }
          rw [hretry] at hsame
          exact hsame
        cases r with
        | some err' => exact ⟨_, hone s.endpointIndex, .inl ⟨err', rfl, hattempts⟩⟩
        | none =>
          obtain ⟨failed, hfailed, hend⟩ := ih s₁
          refine ⟨⟨s.endpointIndex, i, false⟩ :: failed, List.forall_mem_cons.mpr
            ⟨⟨rfl, rfl⟩, hfailed⟩, ?_⟩
          rw [hattempts] at hend
          simpa using hend

theorem forEach_append {α : Type} (body : α → Action) (front back : List α) (s : Session) :
    forEach body (front ++ back) s =
      match forEach body front s with
      | (s, some err) => (s, some err)
      | (s, none) => forEach body back s := by
  induction front generalizing s with
  | nil => rfl
  | cons a rest ih =>
    simp only [List.cons_append, forEach]
    cases body a s with
    | mk s₁ r =>
      cases r with
      | some err => rfl
      | none => exact ih s₁

theorem forEach_flatten {α : Type} (body : α → Action) (lists : List (List α)) (s : Session) :
    forEach (forEach body) lists s = forEach body lists.flatten s := by
  induction lists generalizing s with
  | nil => rfl
  | cons l rest ih =>
    rw [List.flatten_cons, forEach_append, forEach]
    cases forEach body l s with
    | mk s₁ r =>
      cases r with
      | some err => rfl
      | none => exact ih s₁

theorem batches_flatten {α : Type} {size : ℕ} (hsize : 1 ≤ size) (fuel : ℕ) (l : List α)
    (hfuel : l.length ≤ fuel) : (batches size fuel l).flatten = l := by
  induction fuel generalizing l with
  | zero =>
    have hempty : l = [] := List.length_eq_zero_iff.mp (by omega)
    rw [hempty]
    rfl
  | succ fuel ih =>
    rw [batches]
    split
    · rename_i hempty
      rw [hempty]
      rfl
    · rename_i hne
      have hpositive := List.length_pos_iff.mpr hne
      have hshorter : (l.drop size).length ≤ fuel := by
        rw [List.length_drop]
        omega
      rw [List.flatten_cons, ih _ hshorter, List.take_append_drop]

/-- Batches of any size send the messages one after the other. -/
theorem sendBatches_eq (body : ℕ → Action) {batchSize : ℕ} (hsize : 1 ≤ batchSize) (count : ℕ) :
    sendBatches body batchSize count = forEach body (List.range count) := by
  funext s
  rw [sendBatches, forEach_flatten, batches_flatten hsize]
  simp

/-- Messages are submitted in order up to the first that fails. -/
theorem forEach_submits (hquiet : Quiet onRetry) (retries : ℕ) (l : List ℕ) (s : Session) :
    ∃ new, (forEach (fun i => withRetry onRetry (produce outcomes i) retries) l s).1.attempts =
        s.attempts ++ new ∧
      Submits l new
        (forEach (fun i => withRetry onRetry (produce outcomes i) retries) l s).2.isNone := by
  induction l generalizing s with
  | nil => exact ⟨[], by simp [forEach], .nil⟩
  | cons i rest ih =>
    obtain ⟨failed, hfailed, ⟨err, herr, hattempts⟩ | ⟨a, hmessage, hacked, hnone, hattempts⟩⟩ :=
      withRetry_produce outcomes hquiet i retries s
    · simp only [forEach]
      cases hrun : withRetry onRetry (produce outcomes i) retries s with
      | mk s₁ r =>
        rw [hrun] at herr hattempts
        cases herr
        exact ⟨failed, hattempts, .stopped hfailed⟩
    · simp only [forEach]
      cases hrun : withRetry onRetry (produce outcomes i) retries s with
      | mk s₁ r =>
        rw [hrun] at hnone hattempts
        cases hnone
        obtain ⟨new, hnew, hsubmits⟩ := ih s₁
        refine ⟨failed ++ a :: new, ?_, .next hfailed hmessage hacked hsubmits⟩
        rw [hnew, hattempts]
        simp

theorem withRetry_connect (hquiet : Quiet onRetry) (retries : ℕ) (s : Session) :
    (withRetry onRetry (connect outcomes) retries s).1.attempts = s.attempts := by
  induction retries generalizing s with
  | zero => rfl
  | succ retries ih =>
    cases hout : outcomes s.interactions with
    | none => simp [withRetry, connect, hout]
    | some err =>
      have hfirst : connect outcomes s =
          ({ s with interactions := s.interactions + 1 }, some err) := by
        simp [connect, hout]
      simp only [withRetry, hfirst]
      have hsame := hquiet err { s with interactions := s.interactions + 1 }
      cases hretry : onRetry err { s with interactions := s.interactions + 1 } with
      | mk s₁ r =>
        rw [hretry] at hsame
        cases r with
        | some err' => exact hsame
        | none => exact (ih s₁).trans hsame

end Actions

theorem submits_nothing {count : ℕ} (h : count ≠ 0) : Submits (List.range count) [] false := by
  obtain ⟨n, rfl⟩ := Nat.exists_eq_succ_of_ne_zero h
  rw [List.range_succ_eq_map]
  exact .stopped (by simp)

section TypeScriptRuntime

variable (outcomes : Outcomes) (endpoints retries : ℕ) {batchSize : ℕ} (count : ℕ) (s : Session)

theorem quiet_onConnectRetry : Quiet (TypeScript.onConnectRetry endpoints) := by
  intro err s
  unfold TypeScript.onConnectRetry
  split
  · rfl
  · rfl

theorem quiet_onProduceRetry : Quiet (TypeScript.onProduceRetry outcomes endpoints) := by
  intro err s
  unfold TypeScript.onProduceRetry
  split
  · rfl
  · rfl

theorem typescript_submits (hsize : 1 ≤ batchSize) :
    ∃ new, (TypeScript.send outcomes endpoints retries batchSize count s).1.attempts =
        s.attempts ++ new ∧
      Submits (List.range count) new
        (TypeScript.send outcomes endpoints retries batchSize count s).2.isNone := by
  unfold TypeScript.send
  split
  · rename_i hcount
    rw [hcount]
    exact ⟨[], by simp, .nil⟩
  · rename_i hcount
    have hconnect := withRetry_connect outcomes (quiet_onConnectRetry endpoints) retries s
    split
    · rename_i s₁ err hrun
      rw [hrun] at hconnect
      exact ⟨[], by simpa using hconnect, submits_nothing hcount⟩
    · rename_i s₁ hrun
      rw [hrun] at hconnect
      rw [sendBatches_eq _ hsize, ← hconnect]
      exact forEach_submits outcomes (quiet_onProduceRetry outcomes endpoints) retries _ s₁

end TypeScriptRuntime

section PythonRuntime

variable (outcomes : Outcomes) (endpoints retries : ℕ) {batchSize : ℕ} (count : ℕ) (s : Session)

theorem sendOnce_submits (hsize : 1 ≤ batchSize) :
    ∃ new, (Python.sendOnce outcomes retries batchSize count s).1.attempts = s.attempts ++ new ∧
      Submits (List.range count) new
        (Python.sendOnce outcomes retries batchSize count s).2.isNone := by
  unfold Python.sendOnce
  split
  · rename_i hcount
    rw [hcount]
    exact ⟨[], by simp, .nil⟩
  · rename_i hcount
    have hconnect := withRetry_connect outcomes quiet_none retries s
    split
    · rename_i s₁ err hrun
      rw [hrun] at hconnect
      exact ⟨[], by simpa using hconnect, submits_nothing hcount⟩
    · rename_i s₁ hrun
      rw [hrun] at hconnect
      rw [sendBatches_eq _ hsize, ← hconnect]
      exact forEach_submits outcomes quiet_none retries _ s₁

/-- A list of one message that was not finished has no acknowledgement. -/
theorem Submits.failed {i : ℕ} {new : List Attempt} (h : Submits [i] new false) :
    ∀ a ∈ new, a.message = i ∧ a.acked = false := by
  cases h with
  | stopped hfailed => exact hfailed
  | next hfailed hmessage hacked h => cases h

theorem Submits.after_failed {i : ℕ} {failed new : List Attempt} {finished : Bool}
    (hfailed : ∀ a ∈ failed, a.message = i ∧ a.acked = false) (h : Submits [i] new finished) :
    Submits [i] (failed ++ new) finished := by
  cases h with
  | stopped hfailed' => exact .stopped (List.forall_mem_append.mpr ⟨hfailed, hfailed'⟩)
  | next hfailed' hmessage hacked h =>
    rw [← List.append_assoc]
    exact .next (List.forall_mem_append.mpr ⟨hfailed, hfailed'⟩) hmessage hacked h

/-- With one message there is nothing to send again. -/
theorem wrappedSend_submits (hsize : 1 ≤ batchSize) (hcount : count ≤ 1) (left : ℕ) (s : Session) :
    ∃ new, (Python.wrappedSend outcomes endpoints retries batchSize count left s).1.attempts =
        s.attempts ++ new ∧
      Submits (List.range count) new
        (Python.wrappedSend outcomes endpoints retries batchSize count left s).2.isNone := by
  induction left generalizing s with
  | zero => exact sendOnce_submits outcomes retries count s hsize
  | succ left ih =>
    obtain ⟨new, hnew, hsubmits⟩ := sendOnce_submits outcomes retries count s hsize
    unfold Python.wrappedSend
    cases hrun : Python.sendOnce outcomes retries batchSize count s with
    | mk s₁ r =>
      rw [hrun] at hnew hsubmits
      cases r with
      | none => exact ⟨new, hnew, hsubmits⟩
      | some err =>
        dsimp only
        split
        · obtain ⟨new', hnew', hsubmits'⟩ := ih (rotateClient endpoints s₁)
          have hone : List.range count = [0] := by
            rcases Nat.le_one_iff_eq_zero_or_eq_one.mp hcount with rfl | rfl
            · cases hsubmits
            · rfl
          rw [hone] at hsubmits hsubmits' ⊢
          refine ⟨new ++ new', ?_, hsubmits'.after_failed hsubmits.failed⟩
          rw [hnew', ← List.append_assoc, ← hnew]
          rfl
        · exact ⟨new, hnew, hsubmits⟩

theorem wrappedSend_grows (hsize : 1 ≤ batchSize) (left : ℕ) (s : Session) :
    s.attempts <+:
      (Python.wrappedSend outcomes endpoints retries batchSize count left s).1.attempts := by
  induction left generalizing s with
  | zero =>
    obtain ⟨new, hnew, -⟩ := sendOnce_submits outcomes retries count s hsize
    exact ⟨new, hnew.symm⟩
  | succ left ih =>
    obtain ⟨new, hnew, -⟩ := sendOnce_submits outcomes retries count s hsize
    unfold Python.wrappedSend
    cases hrun : Python.sendOnce outcomes retries batchSize count s with
    | mk s₁ r =>
      rw [hrun] at hnew
      have hfirst : s.attempts <+: s₁.attempts := ⟨new, hnew.symm⟩
      cases r with
      | none => exact hfirst
      | some err =>
        dsimp only
        split
        · exact hfirst.trans (ih (rotateClient endpoints s₁))
        · exact hfirst

theorem withRetry_ok {onRetry : Failure → Action} {fn : Action} {s s' : Session}
    (h : fn s = (s', none)) (retries : ℕ) : withRetry onRetry fn retries s = (s', none) := by
  cases retries with
  | zero => exact h
  | succ retries => simp only [withRetry, h]

def started (s : Session) : Session :=
  { s with
    interactions := s.interactions + 2
    attempts := s.attempts ++ [⟨s.endpointIndex, 0, true⟩] }

/-- The first message goes out and is acknowledged, and the others follow. -/
theorem sendOnce_started {outcomes : Outcomes} (retries count : ℕ) {s : Session}
    (hsize : 1 ≤ batchSize) (hconnect : outcomes s.interactions = none)
    (hproduce : outcomes (s.interactions + 1) = none) :
    Python.sendOnce outcomes retries batchSize (count + 1) s =
      forEach (fun i => withRetry (fun _ s => (s, none)) (produce outcomes i) retries)
        ((List.range count).map Nat.succ) (started s) := by
  have hconnected : connect outcomes s =
      ({ s with interactions := s.interactions + 1 }, none) := by
    simp [connect, hconnect]
  have hproduced : produce outcomes 0 { s with interactions := s.interactions + 1 } =
      (started s, none) := by
    simp [produce, hproduce, started]
  rw [Python.sendOnce, if_neg (Nat.succ_ne_zero count), withRetry_ok hconnected]
  dsimp only
  rw [sendBatches_eq _ hsize, List.range_succ_eq_map, forEach, withRetry_ok hproduced]

theorem sendOnce_starts {outcomes : Outcomes} (retries count : ℕ) {s : Session}
    (hsize : 1 ≤ batchSize) (hconnect : outcomes s.interactions = none)
    (hproduce : outcomes (s.interactions + 1) = none) :
    s.attempts ++ [⟨s.endpointIndex, 0, true⟩] <+:
      (Python.sendOnce outcomes retries batchSize (count + 1) s).1.attempts := by
  rw [sendOnce_started retries count hsize hconnect hproduce]
  obtain ⟨new, hnew, -⟩ := forEach_submits outcomes quiet_none retries
    ((List.range count).map Nat.succ) (started s)
  exact ⟨new, hnew.symm⟩

theorem wrappedSend_starts {outcomes : Outcomes} (endpoints retries count : ℕ) {s : Session}
    (hsize : 1 ≤ batchSize) (hconnect : outcomes s.interactions = none)
    (hproduce : outcomes (s.interactions + 1) = none) (left : ℕ) :
    s.attempts ++ [⟨s.endpointIndex, 0, true⟩] <+:
      (Python.wrappedSend outcomes endpoints retries batchSize (count + 1) left s).1.attempts := by
  have hfirst := sendOnce_starts retries count hsize hconnect hproduce
  cases left with
  | zero => exact hfirst
  | succ left =>
    unfold Python.wrappedSend
    cases hrun : Python.sendOnce outcomes retries batchSize (count + 1) s with
    | mk s₁ r =>
      rw [hrun] at hfirst
      cases r with
      | none => exact hfirst
      | some err =>
        dsimp only
        split
        · exact hfirst.trans (wrappedSend_grows outcomes endpoints retries _ hsize left
            (rotateClient endpoints s₁))
        · exact hfirst

end PythonRuntime

section Resending

def notLeader : Failure :=
  .protocol (lit "NOT_LEADER") (lit "partition leader unavailable on this broker")

def refusing (retries : ℕ) : Outcomes := fun k =>
  if 2 ≤ k ∧ k ≤ retries + 2 then some notLeader else none

theorem withRetry_refused {outcomes : Outcomes} {err : Failure} {retries : ℕ} (s : Session)
    (i : ℕ) (h : ∀ j ≤ retries, outcomes (s.interactions + j) = some err) :
    ∃ s', withRetry (fun _ s => (s, none)) (produce outcomes i) retries s = (s', some err) ∧
      s'.interactions = s.interactions + retries + 1 := by
  induction retries generalizing s with
  | zero => exact ⟨_, congrArg _ (h 0 (Nat.le_refl 0)), rfl⟩
  | succ retries ih =>
    have hfirst : produce outcomes i s = ((produce outcomes i s).1, some err) :=
      Prod.ext rfl (h 0 (by omega))
    obtain ⟨s', hrun, hcount⟩ := ih (produce outcomes i s).1 (fun j hj => by
      have hnext := h (j + 1) (by omega)
      rwa [← Nat.add_assoc, Nat.add_right_comm] at hnext)
    refine ⟨s', ?_, ?_⟩
    · rw [withRetry, hfirst]
      exact hrun
    · rw [hcount, produce]
      dsimp only
      omega

/-- With two endpoints and two messages the first one can go out twice. -/
theorem python_resends {endpoints batchSize count : ℕ} (retries : ℕ) (hsize : 1 ≤ batchSize)
    (hendpoints : 2 ≤ endpoints) (hcount : 2 ≤ count) :
    ¬ Orderly count
      (Python.send (refusing retries) endpoints retries batchSize count ⟨0, 0, []⟩).1.attempts
      (Python.send (refusing retries) endpoints retries batchSize count ⟨0, 0, []⟩).2 := by
  obtain ⟨n, rfl⟩ : ∃ n, count = n + 2 := ⟨count - 2, by omega⟩
  obtain ⟨left, hleft⟩ : ∃ left, max 1 endpoints - 1 = left + 1 := ⟨endpoints - 2, by omega⟩
  have hall : ∀ j ≤ retries, refusing retries ((started ⟨0, 0, []⟩).interactions + j) =
      some notLeader := by
    intro j hj
    simp only [started, refusing]
    exact if_pos (by omega)
  obtain ⟨s₁, hrefused, hinteractions⟩ := withRetry_refused (started ⟨0, 0, []⟩) 1 hall
  have hopen : refusing retries 0 = none ∧ refusing retries 1 = none := ⟨rfl, rfl⟩
  have hstarted := sendOnce_started retries (n + 1) (s := ⟨0, 0, []⟩) hsize hopen.1 hopen.2
  have hfirst := sendOnce_starts retries (n + 1) (s := ⟨0, 0, []⟩) hsize hopen.1 hopen.2
  have hsecond : (List.range (n + 1)).map Nat.succ =
      1 :: (List.range n).map (Nat.succ ∘ Nat.succ) := by
    rw [List.range_succ_eq_map, List.map_cons, List.map_map]
  rw [hsecond, forEach, hrefused] at hstarted
  rw [hstarted] at hfirst
  dsimp only at hfirst
  have hposition : (rotateClient endpoints s₁).interactions = 2 + retries + 1 := hinteractions
  have hlate : ∀ k, retries + 3 ≤ k → refusing retries k = none := fun k hk => if_neg (by omega)
  have hagain := wrappedSend_starts endpoints retries (n + 1) (s := rotateClient endpoints s₁)
    hsize (hlate _ (by omega)) (hlate _ (by omega)) left
  have hsend : Python.send (refusing retries) endpoints retries batchSize (n + 2) ⟨0, 0, []⟩ =
      Python.wrappedSend (refusing retries) endpoints retries batchSize (n + 2) left
        (rotateClient endpoints s₁) := by
    have hretryable : isRetryableBrokerError "Connection refused" notLeader = true := by
      decide
    rw [Python.send, hleft, Python.wrappedSend, hstarted]
    dsimp only
    rw [if_pos hretryable]
  intro h
  have honce := h.once
  rw [hsend] at honce
  have hpair : List.Sublist
      [(⟨0, 0, true⟩ : Attempt), ⟨(rotateClient endpoints s₁).endpointIndex, 0, true⟩]
      (Python.wrappedSend (refusing retries) endpoints retries batchSize (n + 2) left
        (rotateClient endpoints s₁)).1.attempts := by
    refine List.Sublist.trans ?_ hagain.sublist
    exact hfirst.sublist.append (List.Sublist.refl _)
  exact (List.pairwise_cons.mp (honce.sublist hpair)).1 _ (List.mem_singleton.mpr rfl) rfl rfl

end Resending

/-- The TypeScript runtime goes on from the message that failed: it is orderly whatever
the brokers answer. -/
theorem typescript_orderly (outcomes : Outcomes) (endpoints retries : ℕ) {batchSize : ℕ}
    (count : ℕ) (hsize : 1 ≤ batchSize) (endpointIndex interactions : ℕ) :
    let result := TypeScript.send outcomes endpoints retries batchSize count
      ⟨endpointIndex, interactions, []⟩
    Orderly count result.1.attempts result.2 := by
  obtain ⟨new, hnew, hsubmits⟩ := typescript_submits outcomes endpoints retries count
    ⟨endpointIndex, interactions, []⟩ hsize
  dsimp only
  rw [hnew]
  exact orderly_of_submits hsubmits

end Flux.ProducerSends
