import Flux.GroupRestarts

/-!
Generations as fences. While the saves succeed, the names are valid text and no
generation overflows, a generation of a group stands for one topic, one
membership and one assignment for ever, restarts included. A group whose name is
not valid text is lost in a restart and starts over.
-/
namespace Flux.GenerationFences

open GoStrings FiniteMap Groups GroupAssignments Runs GroupGenerations GroupShapes GroupRuns
open GroupRestarts

def Advances (g g' : Group) : Prop :=
  g.generation < g'.generation ∨ (g'.generation = g.generation ∧ SameShape g g')

theorem step_onward {n : ℕ} {gm : GroupManager} (h : Restartable n gm) (e : Event) :
    Onward 4 gm (step gm e) := by
  cases e with
  | request r => exact (serve_served gm r).onward
  | restart m =>
    intro name g hg
    have hname := h.mirrors name
    rw [truncateGroups, FMap.get_mapValues, hg] at hname
    show ∃ g', (load gm.file).get name = some g' ∧ _
    cases hloaded : (load gm.file).get name with
    | none =>
      rw [hloaded] at hname
      cases hname
    | some g' =>
      rw [hloaded] at hname
      cases hname with
      | some hsame =>
        exact ⟨g', rfl, fun _ _ => Or.inr ⟨hsame.generation, hsame.topic, hsame.assignor,
          hsame.memberOrder, hsame.assignments⟩⟩

theorem run_onward {n : ℕ} {gm : GroupManager} (h : Restartable n gm) {events : List Event}
    (hevents : ∀ e ∈ events, e.Intact ∧ e.Named) (hbound : n + events.length < 2 ^ 61) :
    Onward (4 * events.length) gm (run step gm events) := by
  have hstep : ∀ j s (e : Event), j + 1 < 2 ^ 61 - n → Restartable (n + j) s ∧ Onward (4 * j) gm s →
      e.Intact ∧ e.Named → Restartable (n + (j + 1)) (step s e) ∧
        Onward (4 * (j + 1)) gm (step s e) := by
    rintro j s e hj ⟨hs, honward⟩ he
    exact ⟨hs.step (by omega) he, honward.trans (step_onward hs e)⟩
  have hrun := run_counted (n := 0) hstep ⟨h, Onward.refl 0 gm⟩
    (valid_of_forall (fun e he _ => hevents e he)) (by omega)
  rw [Nat.zero_add] at hrun
  exact hrun.2

/-- No generation overflows in a run of fewer than `2 ^ 61` events. -/
theorem advances_of_onward {n m : ℕ} {gm gm' : GroupManager} (h : Restartable n gm)
    (honward : Onward (4 * m) gm gm') (hbound : n + m < 2 ^ 61) {name : Str} {g : Group}
    (hg : gm.groups.get name = some g) :
    ∃ g', gm'.groups.get name = some g' ∧ Advances g g' := by
  obtain ⟨g', hg', hf⟩ := honward name g hg
  have hgen := (h.sound.legible.groups name g hg).generation (by push_cast; omega)
  push_cast at hgen
  refine ⟨g', hg', ?_⟩
  rcases hf (by omega) (by push_cast; omega) with ⟨hlt, -⟩ | hsame
  · exact Or.inl hlt
  · exact Or.inr hsame

/-- Well-formed groups of one shape have the same members. -/
theorem members_iff_of_sameShape {g g' : Group} (h : SameShape g g')
    (hwf : WellFormed anyCount g) (hwf' : WellFormed anyCount g') (id : Str) :
    (g'.members.get id).isSome ↔ (g.members.get id).isSome := by
  rw [← hwf.members_iff, ← hwf'.members_iff, h.memberOrder]

/-- Between any two moments of a run with intact saves and names that are valid
text, of fewer than `2 ^ 61` events, a group's generation does not fall, and if it
is the same the topic, assignor, members and assignments are. Two consumers whose commits for one
partition are accepted, the second one any number of events after the first,
therefore name different generations. -/
theorem generation_fences (n : ℕ) (front back : List Event)
    (hevents : ∀ e ∈ front ++ back, e.Intact ∧ e.Named)
    (hbound : (front ++ back).length + 1 < 2 ^ 61) :
    (∀ name g, (reached n front).groups.get name = some g →
      ∃ g', (reached n (front ++ back)).groups.get name = some g' ∧
        g.generation ≤ g'.generation ∧
        (g'.generation = g.generation → SameShape g g' ∧
          ∀ id, (g'.members.get id).isSome ↔ (g.members.get id).isSome)) ∧
    (∀ rest visit visit' groupName topic topic' consumerID consumerID' generation generation'
        partition,
      back = .request (.validateCommit visit groupName topic consumerID generation partition) ::
        rest →
      (validateCommit visit (reached n front) groupName topic consumerID generation partition).2 =
        .ok () →
      (validateCommit visit' (reached n (front ++ back)) groupName topic' consumerID' generation'
        partition).2 = .ok () →
      consumerID ≠ consumerID' → generation ≠ generation') := by
  have hback : ∀ e ∈ back, e.Intact ∧ e.Named :=
    fun e he => hevents e (List.mem_append_right _ he)
  rw [List.length_append] at hbound
  have hstart := restartable_reached n (fun e he => hevents e (List.mem_append_left back he))
    (by omega)
  have hend := restartable_reached n hevents (by rw [List.length_append]; omega)
  have hrun : reached n (front ++ back) = run step (reached n front) back :=
    run_append step _ front back
  refine ⟨?_, ?_⟩
  · intro name g hg
    obtain ⟨g', hg', hadvance⟩ :=
      advances_of_onward hstart (run_onward hstart hback (by omega)) (by omega) hg
    rw [← hrun] at hg'
    refine ⟨g', hg', ?_⟩
    rcases hadvance with hlt | ⟨heq, hshape⟩
    · exact ⟨by omega, fun heq => absurd heq (by omega)⟩
    · exact ⟨by omega, fun _ => ⟨hshape, members_iff_of_sameShape hshape
        (hstart.sound.managed.groups name g hg) (hend.sound.managed.groups name g' hg')⟩⟩
  · intro rest visit visit' groupName topic topic' consumerID consumerID' generation generation'
      partition hsplit hfirst hsecond hne heq
    obtain ⟨g, hg, -, hgen, hown⟩ := validateCommit_accepted hfirst
    obtain ⟨g', hg', -, hgen', hown'⟩ := validateCommit_accepted hsecond
    have hlast := (serve_served (reached n (front ++ back)) (.validateCommit visit' groupName
      topic' consumerID' generation' partition)).onward
    subst hsplit
    rw [List.length_cons] at hbound
    have hmid := hstart.step (by omega) (hback _ (List.mem_cons_self ..))
    have hrest := run_onward hmid (fun e he => hback e (List.mem_cons_of_mem _ he)) (by omega)
    rw [hrun, run_cons] at hg' hlast
    obtain ⟨g'', hg'', hadvance⟩ :=
      advances_of_onward (m := rest.length + 1) hmid (hrest.trans hlast) (by omega) hg
    rw [serve, hg', Option.some.injEq] at hg''
    subst hg''
    rcases hadvance with hlt | ⟨-, hshape⟩
    · omega
    · obtain ⟨m, -, hfair⟩ := (hmid.sound.managed.groups groupName g hg).fair
      rw [assigned_congr hshape.assignments] at hown'
      exact hne (hfair.unique partition consumerID consumerID' hown hown')

def takeover : List Event :=
  [.request (.validateCommit prompt (lit "g") (lit "orders") (lit "c1") 2 0),
    .request (.join late (lit "g") (lit "orders") (lit "c2") [])]

/-- A consumer that takes over commits under a later generation. -/
theorem generation_fences_takeover :
    (validateCommit prompt (reached 1 [.request (.join prompt (lit "g") (lit "orders") (lit "c1")
      [])]) (lit "g") (lit "orders") (lit "c1") 2 0).2 = .ok () ∧
    (validateCommit late (reached 1 ([.request (.join prompt (lit "g") (lit "orders") (lit "c1")
      [])] ++ takeover)) (lit "g") (lit "orders") (lit "c2") 4 0).2 = .ok () ∧ (2 : Int) ≠ 4 := by
  have hevents : ∀ e ∈ [Event.request (.join prompt (lit "g") (lit "orders") (lit "c1") [])] ++
      takeover, e.Intact ∧ e.Named := by decide
  exact ⟨rfl, rfl, (generation_fences 1 _ takeover hevents (by decide)).2 _ prompt late (lit "g")
    (lit "orders") (lit "orders") (lit "c1") (lit "c2") 2 4 0 rfl rfl rfl (by decide)⟩

/-- A group whose name is not valid text is lost in a restart and starts over. -/
theorem renamed_group_starts_over : ∃ g g',
    (reached 1 [.request (.join prompt [0xFF] (lit "orders") (lit "c1") []),
      .request (.join prompt [0xFF] (lit "orders") (lit "c2") [])]).groups.get [0xFF] = some g ∧
    (reached 1 ([.request (.join prompt [0xFF] (lit "orders") (lit "c1") []),
      .request (.join prompt [0xFF] (lit "orders") (lit "c2") [])] ++ [.restart 1,
      .request (.join prompt [0xFF] (lit "orders") (lit "c1") [])])).groups.get [0xFF] = some g' ∧
    g'.generation < g.generation :=
  ⟨_, _, rfl, rfl, by decide⟩

end Flux.GenerationFences
