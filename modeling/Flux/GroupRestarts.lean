import Flux.GroupReplies

/-!
Restarts of the group manager. As long as its saves succeed, the names are valid
text and no generation overflows, the state file holds the groups of the memory
with their heartbeats cut to milliseconds, after every request, whatever it is
answered. A restart is therefore the same as cutting the heartbeats in memory: no
later answer can tell the two apart. A generation that has overflowed is negative
and comes back from the file as 1.
-/
namespace Flux.GroupRestarts

open GoRuntime GoStrings FiniteMap JsonState Groups GroupGenerations GroupShapes GroupCalls
open GroupRuns GroupReplies Runs

variable {g : Group} {assignor name : Str} {gm : GroupManager} {n k : ℕ} {counts : ℕ → Prop}
  {request : Request} {visit : Visit} {events : List Event} {generation : Int}

/-- `time.UnixMilli(t.UnixMilli())` -/
def millis (t : Time) : Time := unixMilli t * 1000000

def truncateGroup (g : Group) : Group :=
  { g with members := g.members.mapValues (fun _ t => millis t) }

def truncateGroups (groups : FMap Str Group) : FMap Str Group :=
  groups.mapValues (fun _ g => truncateGroup g)

def truncated (gm : GroupManager) : GroupManager :=
  { gm with groups := truncateGroups gm.groups }

/-- The state file gives back the groups of the memory. -/
def Mirrors (gm : GroupManager) : Prop := SameGroups (truncateGroups gm.groups) (load gm.file)

theorem unixMilli_of_inInt64 {m : Int} (h : InInt64 m) : unixMilli (m * 1000000) = m := by
  unfold unixMilli
  rw [Int.mul_ediv_cancel m (by omega)]
  exact wrap64_of_inInt64 h

theorem millis_millis (t : Time) : millis (millis t) = millis t := by
  unfold millis
  rw [unixMilli_of_inInt64 (unixMilli_inInt64 t)]

section Truncation

theorem same_truncateGroup {g' : Group} (h : SameGroup g g') :
    SameGroup (truncateGroup g) (truncateGroup g') := by
  refine ⟨h.topic, h.generation, h.assignor, h.memberOrder, fun id => ?_, h.assignments⟩
  simp only [truncateGroup, FMap.get_mapValues, h.members]

theorem truncateGroup_twice (g : Group) :
    SameGroup (truncateGroup g) (truncateGroup (truncateGroup g)) := by
  refine ⟨rfl, rfl, rfl, rfl, fun id => ?_, fun _ => rfl⟩
  simp only [truncateGroup, FMap.get_mapValues, Option.map_map]
  congr 1
  funext t
  exact millis_millis t

theorem same_truncateGroups {groups groups' : FMap Str Group} (h : SameGroups groups groups') :
    SameGroups (truncateGroups groups) (truncateGroups groups') := by
  intro name
  have hname := h name
  simp only [truncateGroups, FMap.get_mapValues]
  generalize groups.get name = o, groups'.get name = o' at hname ⊢
  cases hname with
  | none => exact .none
  | some hg => exact .some (same_truncateGroup hg)

theorem truncateGroups_twice (groups : FMap Str Group) :
    SameGroups (truncateGroups groups) (truncateGroups (truncateGroups groups)) := by
  intro name
  simp only [truncateGroups, FMap.get_mapValues]
  cases groups.get name with
  | none => exact .none
  | some g => exact .some (truncateGroup_twice g)

theorem truncateGroup_wellFormed (h : WellFormed counts g) :
    WellFormed counts (truncateGroup g) := by
  refine ⟨h.identified, h.nodup, fun id => ?_, h.rebalanced⟩
  rw [truncateGroup, FMap.get_mapValues, Option.isSome_map]
  exact h.members_iff id

end Truncation

section Loading

/-- The members of a list come back with the milliseconds that were written. -/
theorem get_loaded_members (members : FMap Str Time) (order : List Str)
    (hnamed : ∀ id ∈ order, ValidText id) (hsome : ∀ id ∈ order, (members.get id).isSome)
    (acc : FMap Str Time) (id : Str) :
    ((order.filterMap (fun memberID =>
        (members.get memberID).map (fun hb => (coerce memberID, unixMilli hb)))).foldl
      (fun members m => members.set m.1 (m.2 * 1000000)) acc).get id =
      if id ∈ order then (members.get id).map millis else acc.get id := by
  induction order generalizing acc with
  | nil => simp
  | cons first rest ih =>
    obtain ⟨hb, hget⟩ := Option.isSome_iff_exists.mp (hsome first (List.mem_cons_self ..))
    have hname : coerce first = first := hnamed first (List.mem_cons_self ..)
    rw [List.filterMap_cons, hget, Option.map_some, List.foldl_cons,
      ih (fun i hi => hnamed i (List.mem_cons_of_mem _ hi))
        (fun i hi => hsome i (List.mem_cons_of_mem _ hi)), hname]
    by_cases hrest : id ∈ rest
    · simp [hrest]
    · by_cases hid : id = first
      · simp [hid, hget, millis]
      · simp [hrest, hid]

theorem loadGroup_same (h : WellFormed counts g) (hl : Legible k name g)
    (hk : (1 : Int) + k < 2 ^ 63) : SameGroup (truncateGroup g) (loadGroup (persistGroup g)) := by
  obtain ⟨hgeneration, hshape⟩ := loadGroup_persistGroup h hl hk
  refine ⟨hshape.topic, hgeneration, hshape.assignor, hshape.memberOrder, fun id => ?_,
    hshape.assignments⟩
  have hloaded := get_loaded_members g.members g.memberOrder h.identified
    (fun i hi => (h.members_iff i).mp hi) FMap.empty id
  show (List.foldl _ FMap.empty _).get id = _
  refine hloaded.trans ?_
  rw [truncateGroup, FMap.get_mapValues]
  by_cases hid : id ∈ g.memberOrder
  · rw [if_pos hid]
  · have hnone : g.members.get id = none := by
      have := (h.members_iff id).not.mp hid
      simpa using this
    rw [if_neg hid, hnone, FMap.get_empty]
    rfl

/-- Groups that are well formed and, after `k` changes, legible. -/
structure Sound (k : ℕ) (gm : GroupManager) : Prop where
  managed : Managed anyCount gm
  legible : Holds anyCount (Legible k) (Legible k) gm

/-- A save that succeeds makes the file a mirror of the memory. -/
theorem saveLocked_mirrors (hk : (1 : Int) + k < 2 ^ 63) (h : Sound k (saveLocked .written gm)) :
    Mirrors (saveLocked .written gm) := by
  have hvalid : ∀ name, (gm.groups.get name).isSome → ValidText name := by
    intro name hsome
    obtain ⟨g, hg⟩ := Option.isSome_iff_exists.mp hsome
    exact (h.legible.groups name g hg).name
  intro name
  have hload : (load (saveLocked .written gm).file).get name =
      (gm.groups.get name).map (fun g => loadGroup (persistGroup g)) := by
    show ((persist gm.groups).mapValues (fun _ p => loadGroup p)).get name = _
    rw [FMap.get_mapValues, persist, get_jsonMap _ _ hvalid, Option.map_map]
    rfl
  rw [hload, truncateGroups, FMap.get_mapValues]
  cases hget : gm.groups.get name with
  | none =>
    rw [show (saveLocked .written gm).groups.get name = none from hget]
    exact .none
  | some g =>
    rw [show (saveLocked .written gm).groups.get name = some g from hget]
    exact .some (loadGroup_same (h.managed.groups name g hget) (h.legible.groups name g hget) hk)

end Loading

section Requests

variable {k : ℕ} {gm : GroupManager} (h : Sound k gm)

include h

theorem Sound.serve (hnamed : ValidNames request) : Sound (k + 4) (serve gm request) :=
  ⟨h.managed.serve hnamed.consumer,
    (legible_kept anyCount).served h.legible hnamed (serve_served gm request)⟩

variable (hk : (1 : Int) + (k + 4 : ℕ) < 2 ^ 63) (hfile : Mirrors gm)

include hk hfile

/-- A saved expiry leaves the file a mirror of the memory. -/
theorem cleanup_mirrors (hsave : visit.expirySave = .written) (hget : gm.groups.get name = some g) :
    Mirrors (cleanup visit gm name g).1 := by
  have hkeeps : Sound (k + 1) (cleanup visit gm name g).1 :=
    ⟨(wellFormed_kept anyCount).cleanup (k := 0) h.managed visit (h.managed.groups name g hget),
      (legible_kept anyCount).cleanup h.legible visit (h.legible.groups name g hget)⟩
  unfold cleanup at hkeeps ⊢
  dsimp only at hkeeps ⊢
  split at hkeeps
  · rename_i hremoved
    rw [if_pos hremoved]
    rw [hsave] at hkeeps ⊢
    exact saveLocked_mirrors (by push_cast at hk ⊢; omega) hkeeps
  · rename_i hremoved
    rw [if_neg hremoved,
      GroupExpiry.cleanupExpired_quiet gm.numPartitions visit.now g (by simpa using hremoved)]
    have hsame : SameGroups gm.groups (setGroup gm name g).groups := by
      intro name'
      by_cases heq : name' = name
      · rw [setGroup, heq, FMap.get_set_self, hget]
        exact .some (SameGroup.refl g)
      · rw [setGroup, FMap.get_set_ne _ _ heq]
        exact SameGroups.refl gm.groups name'
    exact (same_truncateGroups hsame).symm.trans hfile

theorem checkMember_mirrors (hsave : visit.expirySave = .written)
    (groupName topic consumerID : Str) (generation : Int) :
    Mirrors (checkMember visit gm groupName topic consumerID generation).1 := by
  unfold checkMember
  cases hget : gm.groups.get groupName with
  | none => exact hfile
  | some g =>
    have hclean := cleanup_mirrors h hk hfile hsave hget
    dsimp only
    split
    · exact hfile
    · split
      · exact hclean
      · split
        · exact hclean
        · exact hclean

/-- Every request leaves the file in step, whether it is answered with an error or
not. -/
theorem serve_mirrors (hnamed : ValidNames request) (hsaves : Saves request.visit) :
    Mirrors (serve gm request) := by
  have hserved := serve_served gm request
  have hsound := h.serve hnamed
  generalize serve gm request = gm' at hserved hsound
  cases hserved with
  | joined visit groupName topic consumerID assignor =>
    have hfinal : visit.finalSave = .written := hsaves.2
    simp only [joinGroup, hfinal] at hsound ⊢
    exact saveLocked_mirrors hk hsound
  | checked _ topic consumerID generation =>
    exact checkMember_mirrors h hk hfile hsaves.1 _ topic consumerID generation
  | removed _ hresult =>
    rw [hsaves.2] at hsound ⊢
    exact saveLocked_mirrors hk hsound
  | refreshed _ hresult =>
    rw [hsaves.2] at hsound ⊢
    exact saveLocked_mirrors hk hsound

end Requests

structure Restartable (n : ℕ) (gm : GroupManager) : Prop where
  sound : Sound (4 * n) gm
  mirrors : Mirrors gm

theorem Restartable.succ (h : Restartable n gm) : Restartable (n + 1) gm := by
  have hlegible := legible_kept anyCount
  exact ⟨⟨h.sound.managed, hlegible.holds_succ (hlegible.holds_succ (hlegible.holds_succ
    (hlegible.holds_succ h.sound.legible)))⟩, h.mirrors⟩

theorem Restartable.restart (h : Restartable n gm) (m : ℕ) :
    Restartable n (step gm (.restart m)) := by
  refine ⟨⟨holds_restart h.sound.managed trivial, holds_restart h.sound.legible trivial⟩, ?_⟩
  have htwice := (same_truncateGroups h.mirrors).symm.trans (truncateGroups_twice _).symm
  exact htwice.trans h.mirrors

theorem Restartable.step (hn : n + 1 < 2 ^ 61) (h : Restartable n gm) {e : Event}
    (he : e.Intact ∧ e.Named) : Restartable (n + 1) (step gm e) := by
  cases e with
  | request r =>
    exact ⟨h.sound.serve he.2,
      serve_mirrors h.sound (by push_cast; omega) h.mirrors he.2 he.1⟩
  | restart m => exact (h.restart m).succ

theorem restartable_start (n : ℕ) : Restartable 0 (newGroupManager n (.holds FMap.empty)) := by
  refine ⟨⟨holds_start trivial _ _, holds_start trivial _ _⟩, fun name => ?_⟩
  simp only [newGroupManager, truncateGroups, FMap.get_mapValues, get_load_nothing]
  exact .none

theorem restartable_run (h : Restartable n gm) (hevents : ∀ e ∈ events, e.Intact ∧ e.Named)
    (hbound : n + events.length < 2 ^ 61) :
    Restartable (n + events.length) (run GroupRuns.step gm events) :=
  run_counted (fun _ _ _ hn h he => h.step hn he) h
    (valid_of_forall (fun e he _ => hevents e he)) hbound

theorem restartable_reached (n : ℕ) (hevents : ∀ e ∈ events, e.Intact ∧ e.Named)
    (hbound : events.length < 2 ^ 61) : Restartable events.length (reached n events) := by
  have hrun := restartable_run (restartable_start n) hevents (by omega)
  rwa [Nat.zero_add] at hrun

theorem Restartable.truncated (h : Restartable n gm) : Restartable n (truncated gm) := by
  have hgroups : ∀ name g, (truncateGroups gm.groups).get name = some g →
      ∃ g₀, gm.groups.get name = some g₀ ∧ truncateGroup g₀ = g := by
    intro name g hg
    rwa [truncateGroups, FMap.get_mapValues, Option.map_eq_some_iff] at hg
  refine ⟨⟨⟨trivial, ?_, h.sound.managed.saved⟩, ⟨trivial, ?_, h.sound.legible.saved⟩⟩,
    (truncateGroups_twice gm.groups).symm.trans h.mirrors⟩
  · intro name g hg
    obtain ⟨g₀, hg₀, rfl⟩ := hgroups name g hg
    exact truncateGroup_wellFormed (h.sound.managed.groups name g₀ hg₀)
  · intro name g hg
    obtain ⟨g₀, hg₀, rfl⟩ := hgroups name g hg
    have hl := h.sound.legible.groups name g₀ hg₀
    exact ⟨hl.name, hl.topic, hl.assignor, hl.assignor_ne, hl.generation⟩

structure Alike (n : ℕ) (gm gm' : GroupManager) : Prop where
  same : SameManager gm gm'
  left : Restartable n gm
  right : Restartable n gm'

def answer (gm : GroupManager) : Event → Option Reply
  | .request r => some (reply gm r)
  | .restart _ => none

theorem Alike.step (n : ℕ) (gm gm' : GroupManager) (e : Event) (hn : n + 1 < 2 ^ 61)
    (h : Alike n gm gm') (he : e.Intact ∧ e.Named) :
    Alike (n + 1) (step gm e) (step gm' e) ∧ answer gm' e = answer gm e := by
  have hleft := h.left.step hn he
  have hright := h.right.step hn he
  cases e with
  | request r =>
    obtain ⟨hsame, hreply⟩ := same_serve h.same r
    exact ⟨⟨hsame, hleft, hright⟩, congrArg some hreply⟩
  | restart m =>
    have hload : SameGroups (load gm.file) (load gm'.file) :=
      (h.left.mirrors.symm.trans (same_truncateGroups h.same.groups)).trans h.right.mirrors
    exact ⟨⟨⟨rfl, hload⟩, hleft, hright⟩, rfl⟩

theorem alike_answers {gm' : GroupManager} (h : Alike n gm gm') {later : List Event}
    (hlater : ∀ e ∈ later, e.Intact ∧ e.Named) (hbound : n + later.length < 2 ^ 61) :
    outputs step answer gm' later = outputs step answer gm later :=
  outputs_related Alike.step h hlater hbound

/-- Every heartbeat in memory is a whole number of milliseconds. -/
def WholeMillis (gm : GroupManager) : Prop :=
  ∀ name g id t, gm.groups.get name = some g → g.members.get id = some t → millis t = t

theorem truncated_whole (h : WholeMillis gm) : SameManager gm (truncated gm) := by
  refine ⟨rfl, fun name => ?_⟩
  rw [truncated, truncateGroups, FMap.get_mapValues]
  cases hget : gm.groups.get name with
  | none => exact .none
  | some g =>
    refine .some ⟨rfl, rfl, rfl, rfl, fun id => ?_, fun _ => rfl⟩
    show (g.members.mapValues (fun _ t => millis t)).get id = _
    rw [FMap.get_mapValues]
    cases hmember : g.members.get id with
    | none => rfl
    | some t => exact congrArg some (h name g id t hget hmember)

/-- After any events whose saves succeed and whose names are valid text, requests
that ended with an error among them, the file gives back the groups of the memory
with their heartbeats cut to milliseconds. A restart with the same partition count
is answered from then on as if the heartbeats had been cut in memory, and makes no
difference at all where they are whole milliseconds. The bound keeps generations
from overflowing. -/
theorem restart_transparent (n : ℕ) (events : List Event)
    (hevents : ∀ e ∈ events, e.Intact ∧ e.Named) (hbound : events.length < 2 ^ 61) :
    SameGroups (truncateGroups (reached n events).groups) (load (reached n events).file) ∧
      ∀ later : List Event, (∀ e ∈ later, e.Intact ∧ e.Named) →
        events.length + later.length < 2 ^ 61 →
        outputs step answer (step (reached n events) (.restart (reached n events).numPartitions))
            later = outputs step answer (truncated (reached n events)) later ∧
          (WholeMillis (reached n events) →
            outputs step answer
                (step (reached n events) (.restart (reached n events).numPartitions)) later =
              outputs step answer (reached n events) later) := by
  have hreached := restartable_reached n hevents hbound
  refine ⟨hreached.mirrors, fun later hlater hlength => ?_⟩
  have halike : Alike events.length (truncated (reached n events))
      (step (reached n events) (.restart (reached n events).numPartitions)) :=
    ⟨⟨rfl, hreached.mirrors⟩, hreached.truncated, hreached.restart _⟩
  have hanswers := alike_answers halike hlater hlength
  refine ⟨hanswers, fun hwhole => hanswers.trans ?_⟩
  exact alike_answers ⟨truncated_whole hwhole, hreached, hreached.truncated⟩ hlater hlength

def refused : List Event :=
  [.request (.join prompt (lit "g") (lit "orders") (lit "c1") []),
    .request (.sync prompt (lit "g") (lit "orders") (lit "c2") 2)]

/-- A refused request before the restart makes no difference. -/
theorem restart_transparent_refused :
    outputs step answer (step (reached 1 refused) (.restart 1))
        [.request (.heartbeat late (lit "g") (lit "orders") (lit "c1") 2)] =
      outputs step answer (truncated (reached 1 refused))
        [.request (.heartbeat late (lit "g") (lit "orders") (lit "c1") 2)] := by
  have hevents : ∀ e ∈ refused, e.Intact ∧ e.Named := by decide
  exact ((restart_transparent 1 refused hevents (by decide)).2 _ (by decide) (by decide)).1

structure Turning (assignor : Str) (generation : Int) (gm : GroupManager) (g : Group) : Prop where
  get : gm.groups.get (lit "g") = some g
  topic : g.topic = lit "orders"
  assignor : g.assignor = assignor
  memberOrder : g.memberOrder = [lit "c1"]
  member : g.members.get (lit "c1") = some 0
  generation : g.generation = generation

def other (assignor : Str) : Str :=
  if assignor = assignorRange then assignorRoundRobin else assignorRange

def turn (assignor : Str) : Request :=
  .join prompt (lit "g") (lit "orders") (lit "c1") assignor

theorem other_ne (assignor : Str) : other assignor ≠ [] ∧ other assignor ≠ assignor := by
  unfold other
  split
  · rename_i hrange
    rw [hrange]
    decide
  · rename_i hrange
    exact ⟨by decide, Ne.symm hrange⟩

/-- Every change of the assignor raises the generation. -/
theorem Turning.turn (h : Turning assignor generation gm g) :
    ∃ g', Turning (other assignor) (wrap64 (generation + 1))
      (serve gm (turn (other assignor))) g' := by
  obtain ⟨hnil, hne⟩ := other_ne assignor
  have hensure : ensureGroup gm (lit "g") (lit "orders") (other assignor) =
      rebalance gm.numPartitions
        { g with assignor := other assignor, generation := wrap64 (g.generation + 1) } := by
    simp only [ensureGroup, h.get, switchTopic, h.topic, if_true, switchAssignor, h.assignor]
    rw [if_neg (by simp [hnil, hne])]
  -- the member has just been heard from, so the join only switches the assignor
  generalize hg : ensureGroup gm (lit "g") (lit "orders") (other assignor) = g₁ at hensure
  have hmember : g₁.members.get (lit "c1") = some 0 := by rw [hensure]; exact h.member
  have horder : g₁.memberOrder = [lit "c1"] := by rw [hensure]; exact h.memberOrder
  have halive : ∀ id ∈ g₁.memberOrder, GroupExpiry.alive prompt.now g₁.members id = true := by
    intro id hid
    rw [horder, List.mem_singleton] at hid
    rw [hid, GroupExpiry.alive, hmember]
    decide
  have hclean : (cleanup prompt gm (lit "g") g₁).2 = g₁ := by
    unfold cleanup
    rw [GroupExpiry.cleanupExpired_alive _ _ _ halive]
  refine ⟨{ g₁ with members := g₁.members.set (lit "c1") prompt.now }, ?_, ?_, ?_, horder,
    FMap.get_set_self .., ?_⟩
  · simp only [serve, GroupRestarts.turn, joinGroup, hg, hclean, addMember, hmember,
      groups_saveLocked, setGroup, FMap.get_set_self]
  · rw [hensure]
    exact h.topic
  · rw [hensure]
    rfl
  · rw [hensure, ← h.generation]
    rfl

def turns : ℕ → Str → List Event
  | 0, _ => []
  | m + 1, assignor => .request (turn (other assignor)) :: turns m (other assignor)

theorem turns_intact (m : ℕ) : ∀ e ∈ turns m assignor, e.Intact ∧ e.Named := by
  induction m generalizing assignor with
  | zero => simp [turns]
  | succ m ih =>
    have hvalid : ValidText (other assignor) := by
      unfold other
      split
      · decide
      · decide
    intro e he
    rcases List.mem_cons.mp he with rfl | hrest
    · exact ⟨⟨rfl, rfl⟩, by decide, by decide, by decide, hvalid⟩
    · exact ih e hrest

theorem turning_turns (hrange : InInt64 generation) (h : Turning assignor generation gm g) (m : ℕ) :
    ∃ assignor' g', Turning assignor' (wrap64 (generation + m))
      (run step gm (turns m assignor)) g' := by
  induction m generalizing assignor generation gm g with
  | zero =>
    refine ⟨assignor, g, ?_⟩
    rw [Nat.cast_zero, Int.add_zero, wrap64_of_inInt64 hrange]
    exact h
  | succ m ih =>
    obtain ⟨g', h'⟩ := h.turn
    have hlast := ih (wrap64_inInt64 _) h'
    rw [wrap64, wrap64, Int.bmod_add_bmod] at hlast
    rw [turns, run_cons, Nat.cast_succ, show generation + ((m : Int) + 1) = generation + 1 + m by
      omega]
    exact hlast

theorem one_le_loaded {file : GroupsFile} (h : (load file).get name = some g) :
    1 ≤ g.generation := by
  unfold load at h
  split at h
  · rw [FMap.get_mapValues, Option.map_eq_some_iff] at h
    obtain ⟨p, -, rfl⟩ := h
    simp only [loadGroup]
    split
    · omega
    · omega
  · simp at h

def joinings (m : ℕ) : List Event := .request (turn []) :: turns m assignorRoundRobin

theorem joinings_intact (m : ℕ) : ∀ e ∈ joinings m, e.Intact ∧ e.Named := by
  intro e he
  rcases List.mem_cons.mp he with rfl | hrest
  · exact ⟨⟨rfl, rfl⟩, by decide, by decide, by decide, by decide⟩
  · exact turns_intact m e hrest

/-- After an overflow the file does not hold the groups. -/
theorem joinings_lost (m : ℕ) (hoverflow : wrap64 (2 + m) ≤ 0) :
    ¬ SameGroups (truncateGroups (reached 1 (joinings m)).groups)
      (load (reached 1 (joinings m)).file) := by
  obtain ⟨g, hfirst⟩ : ∃ g, Turning assignorRoundRobin 2 (reached 1 [.request (turn [])]) g :=
    ⟨_, rfl, rfl, rfl, rfl, rfl, rfl⟩
  obtain ⟨assignor, g', hlast⟩ := turning_turns (by decide) hfirst m
  have hget : (reached 1 (joinings m)).groups.get (lit "g") = some g' := hlast.get
  intro hsame
  have hmemory := hsame (lit "g")
  rw [truncateGroups, FMap.get_mapValues, hget] at hmemory
  cases hloaded : (load (reached 1 (joinings m)).file).get (lit "g") with
  | none =>
    rw [hloaded] at hmemory
    cases hmemory
  | some loaded =>
    rw [hloaded] at hmemory
    cases hmemory with
    | some hgroup =>
      have hpos := one_le_loaded hloaded
      rw [hgroup.generation] at hpos
      exact absurd (hlast.generation ▸ hpos) (by omega)

/-- Enough joins take a group to the generation after the largest one, which the
file does not give back. -/
theorem overflowed_generation_lost : ∃ events : List Event, (∀ e ∈ events, e.Intact ∧ e.Named) ∧
    ¬ SameGroups (truncateGroups (reached 1 events).groups) (load (reached 1 events).file) :=
  ⟨joinings (2 ^ 63 - 2), joinings_intact _, joinings_lost _ (by decide)⟩

end Flux.GroupRestarts
