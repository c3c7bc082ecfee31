import Flux.GroupCalls
import Flux.OffsetCommits
import Flux.Runs

/-!
Commits under interleaving. A COMMIT request is two steps, between which other
requests may run, so a commit can be written after its group has moved on and
undo the commit of the partition's next owner. As long as every commit is
written while its group still has the generation it was validated at and no
generation overflows, commits to one partition are written in the order of their
generations.
-/
namespace Flux.CommitFencing

open GoStrings FiniteMap Groups GroupGenerations GroupShapes GroupCalls OffsetCommits Runs

structure Server where
  coordinator : Coordinator
  /-- Validated commits that are not written yet. -/
  validated : List Commit
  /-- The commits written so far, in order. -/
  written : List Commit

variable {s : Server} {gm : GroupManager} {c c' : Commit} {k limit : ℕ}

inductive Step
  | request (request : Request)
  | validate (visit : Visit) (c : Commit)
  | write (place : ℕ)

def setGroups (s : Server) (gm : GroupManager) : Server :=
  { s with coordinator := { s.coordinator with groupManager := gm } }

def validate (visit : Visit) (s : Server) (c : Commit) : Server :=
  match validateCommit visit s.coordinator.groupManager c.groupName c.topic c.consumerID
      c.generation c.partition with
  | (gm, .ok _) => { setGroups s gm with validated := s.validated ++ [c] }
  | (gm, .error _) => setGroups s gm

def write (s : Server) (place : ℕ) (c : Commit) : Server where
  coordinator :=
    { s.coordinator with
      offsetManager :=
        s.coordinator.offsetManager.commit c.groupName c.topic c.partition c.offset }
  validated := s.validated.eraseIdx place
  written := s.written ++ [c]

def step (s : Server) : Step → Server
  | .request request => setGroups s (serve s.coordinator.groupManager request)
  | .validate visit c => validate visit s c
  | .write place =>
      match s.validated[place]? with
      | none => s
      | some c => write s place c

def idle (coordinator : Coordinator) : Server := ⟨coordinator, [], []⟩

/-- A commit is written only while its group has the generation it names. -/
def Current (s : Server) : Step → Prop
  | .write place => ∀ c, s.validated[place]? = some c →
      ∃ g, s.coordinator.groupManager.groups.get c.groupName = some g ∧
        g.generation = c.generation
  | _ => True

def SameCell (c c' : Commit) : Prop :=
  c.groupName = c'.groupName ∧ c.topic = c'.topic ∧ c.partition = c'.partition

def stored (s : Server) (c : Commit) : Int :=
  s.coordinator.offsetManager.getOffset c.groupName c.topic c.partition

/-- No later commit to the same partition is of an earlier generation. -/
def Ordered (written : List Commit) : Prop :=
  written.Pairwise (fun c c' => SameCell c c' → c.generation ≤ c'.generation)

structure Fenced (s : Server) : Prop where
  ordered : Ordered s.written
  reached : ∀ c ∈ s.written, ∃ g,
    s.coordinator.groupManager.groups.get c.groupName = some g ∧ c.generation ≤ g.generation
  newest : ∀ c ∈ s.written, ∃ c' ∈ s.written, SameCell c c' ∧ c.generation ≤ c'.generation ∧
    stored s c = c'.offset

def Roomy (gm : GroupManager) : Prop :=
  ∀ name g, gm.groups.get name = some g → -2 ^ 63 ≤ g.generation ∧ g.generation + 4 < 2 ^ 63

theorem setGroups_fenced (h : Fenced s) (hroom : Roomy s.coordinator.groupManager)
    (honward : Onward 4 s.coordinator.groupManager gm) : Fenced (setGroups s gm) := by
  refine ⟨h.ordered, ?_, h.newest⟩
  intro c hc
  obtain ⟨g, hg, hle⟩ := h.reached c hc
  obtain ⟨g', hg', hf⟩ := honward c.groupName g hg
  obtain ⟨hlow, hhigh⟩ := hroom c.groupName g hg
  exact ⟨g', hg', hle.trans (hf.generation_le hlow hhigh).1⟩

theorem validate_fenced (h : Fenced s) (hroom : Roomy s.coordinator.groupManager) (visit : Visit)
    (c : Commit) : Fenced (validate visit s c) := by
  have honward : Onward 4 s.coordinator.groupManager
      (validateCommit visit s.coordinator.groupManager c.groupName c.topic c.consumerID c.generation
        c.partition).1 :=
    (serve_served s.coordinator.groupManager (.validateCommit visit c.groupName c.topic
      c.consumerID c.generation c.partition)).onward
  unfold validate
  split
  · rename_i gm _ heq
    rw [heq] at honward
    have hset := setGroups_fenced h hroom honward
    exact ⟨hset.ordered, hset.reached, hset.newest⟩
  · rename_i gm _ heq
    rw [heq] at honward
    exact setGroups_fenced h hroom honward

theorem stored_write_same (s : Server) (place : ℕ) (h : SameCell c c') :
    stored (write s place c') c = c'.offset := by
  obtain ⟨hgroup, htopic, hpartition⟩ := h
  rw [stored, hgroup, htopic, hpartition]
  exact getOffset_commit_self ..

theorem stored_write_other (s : Server) (place : ℕ) (h : ¬ SameCell c c') :
    stored (write s place c') c = stored s c := by
  refine getOffset_commit_ne _ _ ?_
  intro heq
  obtain ⟨hgroup, hrest⟩ := Prod.mk.inj heq
  obtain ⟨htopic, hpartition⟩ := Prod.mk.inj hrest
  exact h ⟨hgroup, htopic, hpartition⟩

instance (c c' : Commit) : Decidable (SameCell c c') := instDecidableAnd

/-- A commit of the current generation may be written. -/
theorem write_fenced (h : Fenced s) (place : ℕ) {g : Group}
    (hg : s.coordinator.groupManager.groups.get c.groupName = some g)
    (hcurrent : g.generation = c.generation) : Fenced (write s place c) := by
  have hle : ∀ c' ∈ s.written, SameCell c' c → c'.generation ≤ c.generation := by
    intro c' hc' hcell
    obtain ⟨g', hg', hgen⟩ := h.reached c' hc'
    rw [hcell.1, hg, Option.some.injEq] at hg'
    rw [← hcurrent, hg']
    exact hgen
  refine ⟨?_, ?_, ?_⟩
  · refine List.pairwise_append.mpr ⟨h.ordered, List.pairwise_singleton _ _, ?_⟩
    intro c' hc' c'' hc''
    rw [List.mem_singleton.mp hc'']
    exact hle c' hc'
  · intro c' hc'
    rcases List.mem_append.mp hc' with hold | hlast
    · exact h.reached c' hold
    · rw [List.mem_singleton.mp hlast]
      exact ⟨g, hg, hcurrent.ge⟩
  · intro c' hc'
    by_cases hcell : SameCell c' c
    · refine ⟨c, List.mem_append_right _ (List.mem_singleton_self c), hcell, ?_,
        stored_write_same s place hcell⟩
      rcases List.mem_append.mp hc' with hold | hlast
      · exact hle c' hold hcell
      · rw [List.mem_singleton.mp hlast]
    · rcases List.mem_append.mp hc' with hold | hlast
      · obtain ⟨c'', hc'', hsame, hgen, hstored⟩ := h.newest c' hold
        exact ⟨c'', List.mem_append_left _ hc'', hsame, hgen,
          (stored_write_other s place hcell).trans hstored⟩
      · rw [List.mem_singleton.mp hlast] at hcell
        exact absurd ⟨rfl, rfl, rfl⟩ hcell

theorem step_fenced {e : Step} (h : Fenced s) (hroom : Roomy s.coordinator.groupManager)
    (hcurrent : Current s e) : Fenced (step s e) := by
  cases e with
  | request request =>
    exact setGroups_fenced h hroom (serve_served s.coordinator.groupManager request).onward
  | validate visit c => exact validate_fenced h hroom visit c
  | write place =>
    unfold step
    dsimp only
    split
    · exact h
    · rename_i c hc
      obtain ⟨g, hg, hgen⟩ := hcurrent c hc
      exact write_fenced h place hg hgen

/-- A step is at most one request to the group manager. -/
theorem step_groups (s : Server) (e : Step) :
    (step s e).coordinator.groupManager = s.coordinator.groupManager ∨
      ∃ request,
        (step s e).coordinator.groupManager = serve s.coordinator.groupManager request := by
  cases e with
  | request request => exact Or.inr ⟨request, rfl⟩
  | validate visit c =>
    refine Or.inr ⟨.validateCommit visit c.groupName c.topic c.consumerID c.generation c.partition,
      ?_⟩
    unfold step validate serve
    dsimp only
    split
    · rename_i heq
      rw [heq]
      rfl
    · rename_i heq
      rw [heq]
      rfl
  | write place =>
    left
    unfold step
    dsimp only
    split
    · rfl
    · rfl

def Bounded (limit k : ℕ) (gm : GroupManager) : Prop :=
  Holds (fun _ => True) (fun _ g => Within (-2 ^ 63) (2 ^ 63 - 1 - limit) k g)
    (fun _ _ => True) gm

theorem Bounded.step (hlimit : limit + 2 ≤ 2 ^ 63)
    (h : Bounded limit k s.coordinator.groupManager) (e : Step) :
    Bounded limit (k + 4) (step s e).coordinator.groupManager := by
  have hkept : Kept (fun _ => True) (fun _ _ _ _ => True)
      (fun k _ g => Within (-2 ^ 63) (2 ^ 63 - 1 - limit) k g) (fun _ _ _ => True) :=
    within_kept (fun _ => True) (by omega) (by omega)
  rcases step_groups s e with hsame | ⟨request, hserve⟩
  · rw [hsame]
    exact hkept.holds_succ (hkept.holds_succ (hkept.holds_succ (hkept.holds_succ h)))
  · rw [hserve]
    refine hkept.served h ?_ (serve_served _ request)
    cases request <;> trivial

theorem Bounded.roomy (hk : k + 4 ≤ limit) (h : Bounded limit k gm) : Roomy gm := by
  intro name g hg
  obtain ⟨hlow, hhigh⟩ := h.groups name g hg (by omega)
  exact ⟨hlow, by omega⟩

/-- In every run in which commits are written while current, no commit is
written after one of a later generation for the same partition, and what is
stored for a partition is the offset of a commit as new as any written. A step
takes a group through at most four generations, and the run is to start so far
below the largest one. -/
theorem commits_fenced (coordinator : Coordinator) (steps : List Step)
    (hlength : steps.length < 2 ^ 61)
    (hroom : ∀ name g, coordinator.groupManager.groups.get name = some g →
      -2 ^ 63 ≤ g.generation ∧ g.generation + 4 * steps.length < 2 ^ 63)
    (hcurrent : Valid step Current (idle coordinator) steps) :
    Ordered (run step (idle coordinator) steps).written ∧
      ∀ c ∈ (run step (idle coordinator) steps).written,
        ∃ c' ∈ (run step (idle coordinator) steps).written, SameCell c c' ∧
          c.generation ≤ c'.generation ∧
          stored (run step (idle coordinator) steps) c = c'.offset := by
  have hidle : Fenced (idle coordinator) :=
    ⟨List.Pairwise.nil, by simp [idle], by simp [idle]⟩
  have hstart : Bounded (4 * steps.length) 0 (idle coordinator).coordinator.groupManager := by
    refine ⟨trivial, ?_, fun _ _ _ => trivial⟩
    intro name g hg _
    obtain ⟨hlow, hhigh⟩ := hroom name g hg
    exact ⟨hlow, by push_cast; omega⟩
  have hstep : ∀ n s e, n + 1 < steps.length + 1 →
      Fenced s ∧ Bounded (4 * steps.length) (4 * n) s.coordinator.groupManager → Current s e →
        Fenced (step s e) ∧
          Bounded (4 * steps.length) (4 * (n + 1)) (step s e).coordinator.groupManager := by
    rintro n s e hn ⟨hs, hb⟩ he
    exact ⟨step_fenced hs (hb.roomy (by omega)) he, hb.step (by omega) e⟩
  have hfenced := (run_counted (n := 0) hstep ⟨hidle, hstart⟩ hcurrent (by omega)).1
  exact ⟨hfenced.ordered, hfenced.newest⟩

def freshCoordinator : Coordinator :=
  ⟨newGroupManager 1 (.holds FMap.empty), ⟨FMap.empty⟩⟩

def firstCommit : Commit := ⟨lit "g", lit "orders", lit "c1", 2, 0, 5⟩

def secondCommit : Commit := ⟨lit "g", lit "orders", lit "c2", 4, 0, 9⟩

def overtaken : List Step :=
  [.request (.join prompt (lit "g") (lit "orders") (lit "c1") []), .validate prompt firstCommit,
    .request (.join late (lit "g") (lit "orders") (lit "c2") []), .validate late secondCommit]

def inTurn : List Step :=
  [.request (.join prompt (lit "g") (lit "orders") (lit "c1") []), .validate prompt firstCommit,
    .write 0, .request (.join late (lit "g") (lit "orders") (lit "c2") []),
    .validate late secondCommit, .write 0]

/-- Two commits that are written in turn. -/
theorem commits_fenced_inTurn :
    (run step (idle freshCoordinator) inTurn).written = [firstCommit, secondCommit] ∧
      Ordered (run step (idle freshCoordinator) inTurn).written := by
  have hroom : ∀ name g, freshCoordinator.groupManager.groups.get name = some g →
      -2 ^ 63 ≤ g.generation ∧ g.generation + 4 * inTurn.length < 2 ^ 63 := by
    intro name g hg
    simp [freshCoordinator, newGroupManager, load, FMap.get_mapValues] at hg
  refine ⟨rfl, (commits_fenced freshCoordinator inTurn (by decide) hroom ?_).1⟩
  refine ⟨trivial, trivial, ?_, trivial, trivial, ?_, trivial⟩
  · rintro c ⟨rfl⟩
    exact ⟨_, rfl, rfl⟩
  · rintro c ⟨rfl⟩
    exact ⟨_, rfl, rfl⟩

/-- The first commit is written last and undoes the second. -/
theorem fenced_commit_overwrites :
    (run step (idle freshCoordinator) (overtaken ++ [.write 1, .write 0])).written =
      [secondCommit, firstCommit] ∧
    stored (run step (idle freshCoordinator) (overtaken ++ [.write 1])) secondCommit = 9 ∧
    stored (run step (idle freshCoordinator) (overtaken ++ [.write 1, .write 0])) secondCommit = 5 ∧
    ¬ Ordered (run step (idle freshCoordinator) (overtaken ++ [.write 1, .write 0])).written := by
  refine ⟨rfl, rfl, rfl, ?_⟩
  intro hordered
  have hwritten : (run step (idle freshCoordinator) (overtaken ++ [.write 1, .write 0])).written =
    [secondCommit, firstCommit] := rfl
  rw [hwritten] at hordered
  have hle := List.rel_of_pairwise_cons hordered (List.mem_singleton_self firstCommit)
    ⟨rfl, rfl, rfl⟩
  exact absurd hle (by decide)

end Flux.CommitFencing
