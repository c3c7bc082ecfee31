import Flux.GroupCalls
import Flux.Runs

/-!
Runs of the group manager: requests in any order with any clock readings, and
restarts from the state file. As long as consumer ids are valid text every group
stays well formed and its assignment fair. The state file does not keep other
ids, and a restart can then merge two members.
-/
namespace Flux.GroupRuns

open GoStrings FiniteMap Groups GroupAssignments Runs GroupGenerations GroupCalls

variable {counts : ℕ → Prop} {n : ℕ} {gm : GroupManager}

inductive Event
  | request (request : Request)
  | restart (numPartitions : ℕ)

def step (gm : GroupManager) : Event → GroupManager
  | .request request => serve gm request
  | .restart numPartitions => newGroupManager numPartitions gm.file

def reached (numPartitions : ℕ) (events : List Event) : GroupManager :=
  run step (newGroupManager numPartitions (.holds FMap.empty)) events

/-- Restarts use the given partition count. -/
def Event.Keeps (numPartitions : ℕ) : Event → Prop
  | .request _ => True
  | .restart m => m = numPartitions

/-- The saves of the event succeed. -/
def Event.Intact : Event → Prop
  | .request r => Saves r.visit
  | .restart _ => True

/-- The consumer ids that the event brings in are valid text. -/
def Event.Identified : Event → Prop
  | .request r => ValidConsumer r
  | .restart _ => True

/-- The names that the event brings in are valid text. -/
def Event.Named : Event → Prop
  | .request r => ValidNames r
  | .restart _ => True

instance : (e : Event) → Decidable (e.Intact ∧ e.Named)
  | .request r => inferInstanceAs (Decidable (Saves r.visit ∧ ValidNames r))
  | .restart _ => isTrue ⟨trivial, trivial⟩

instance : (e : Event) → Decidable e.Identified
  | .request r => inferInstanceAs (Decidable (ValidConsumer r))
  | .restart _ => isTrue trivial

theorem get_load_nothing (name : Str) : (load (.holds FMap.empty)).get name = none := by
  rw [load, FMap.get_mapValues, FMap.get_empty]
  rfl

/-- A manager without a state file has no groups. -/
theorem holds_start (hn : counts n) (Q F : Str → Group → Prop) :
    Holds counts Q F (newGroupManager n (.holds FMap.empty)) :=
  ⟨hn, by simp [newGroupManager, get_load_nothing], by simp [newGroupManager, get_load_nothing]⟩

theorem holds_restart {Q : Str → Group → Prop} (hm : Holds counts Q Q gm) {numPartitions : ℕ}
    (hn : counts numPartitions) : Holds counts Q Q (newGroupManager numPartitions gm.file) :=
  ⟨hn, hm.saved, hm.saved⟩

theorem managed_step (hm : Managed counts gm) {e : Event}
    (hcounts : ∀ m, e = .restart m → counts m) (hid : e.Identified) :
    Managed counts (step gm e) := by
  cases e with
  | request r => exact hm.serve hid
  | restart m => exact holds_restart hm (hcounts m rfl)

theorem managed_reached {events : List Event} (hkeeps : ∀ e ∈ events, e.Keeps n)
    (hid : ∀ e ∈ events, e.Identified) : Managed (· = n) (reached n events) := by
  have hstep : ∀ gm e, Managed (· = n) gm → Event.Keeps n e ∧ e.Identified →
      Managed (· = n) (step gm e) := by
    rintro gm e hm ⟨hkeep, hname⟩
    refine managed_step hm ?_ hname
    rintro m rfl
    exact hkeep
  exact run_invariant hstep (holds_start (by rfl) _ _)
    (valid_of_forall (fun e he _ => ⟨hkeeps e he, hid e he⟩))

/-- In every run whose restarts keep the partition count and whose consumer ids
are valid text, every group lists its members once and deals the partitions out to
them fairly. -/
theorem groups_fair (n : ℕ) (events : List Event) (hkeeps : ∀ e ∈ events, e.Keeps n)
    (hid : ∀ e ∈ events, e.Identified) (name : Str) (g : Group)
    (hg : (reached n events).groups.get name = some g) :
    g.memberOrder.Nodup ∧ (∀ id, id ∈ g.memberOrder ↔ (g.members.get id).isSome) ∧
      FairAssignment n g.memberOrder g.assignments := by
  have hwf := (managed_reached hkeeps hid).groups name g hg
  obtain ⟨m, rfl, hfair⟩ := hwf.fair
  exact ⟨hwf.nodup, hwf.members_iff, hfair⟩

def rangeEvents : List Event :=
  [.request (.join prompt (lit "g") (lit "orders") (lit "c0") []),
    .request (.join prompt (lit "g") [0xFF] (lit "c2") (lit "range")),
    .request (.join prompt (lit "g") [0xFF] (lit "c1") []), .restart 5]

/-- Two members share five partitions by ranges. -/
theorem groups_fair_range : ∃ g, (reached 5 rangeEvents).groups.get (lit "g") = some g ∧
    g.memberOrder = [lit "c2", lit "c1"] ∧ FairAssignment 5 g.memberOrder g.assignments := by
  have hid : ∀ e ∈ rangeEvents, e.Identified := by decide
  have hkeeps : ∀ e ∈ rangeEvents, e.Keeps 5 := by simp [rangeEvents, Event.Keeps]
  exact ⟨_, rfl, rfl, (groups_fair 5 rangeEvents hkeeps hid (lit "g") _ rfl).2.2⟩

/-- Two members whose names are not valid text come back from the file as one,
listed twice. -/
theorem merged_members_listed_twice : ∃ g,
    (reached 1 [.request (.join prompt (lit "g") (lit "orders") [0xFF] []),
      .request (.join prompt (lit "g") (lit "orders") [0xFE] []), .restart 1]).groups.get
        (lit "g") = some g ∧ ¬ g.memberOrder.Nodup :=
  ⟨_, rfl, by decide⟩

def anyCount : ℕ → Prop := fun _ => True

end Flux.GroupRuns
