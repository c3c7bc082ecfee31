import Flux.GroupRuns

/-!
The assignment of a group is a function of who is in it. Whatever calls, expiries
and restarts two managers have gone through, two groups with the same members and
the same assignor have dealt the partitions out in the same way. A restart that
changes names breaks this: it renames the shares without dealing them out again.
-/
namespace Flux.MembershipAssignments

open GoStrings FiniteMap Groups GroupAssignments GroupGenerations GroupShapes GroupRuns

/-- Sorting forgets the order in which the members have joined. -/
theorem sortStrings_eq_of_perm {l l' : List Str} (h : l.Perm l') :
    sortStrings l = sortStrings l' := by
  have htotal : Std.Total (fun a b : Str => strLe a b = true) := ⟨strLe_total⟩
  have htrans : IsTrans Str (fun a b => strLe a b = true) := ⟨strLe_trans⟩
  have hperm : (sortStrings l).Perm (sortStrings l') :=
    (sortStrings_perm l).trans (h.trans (sortStrings_perm l').symm)
  refine hperm.eq_of_pairwise (fun a b _ _ hab hba => strLe_antisymm a b hab hba) ?_ ?_
  · exact List.pairwise_insertionSort _ l
  · exact List.pairwise_insertionSort _ l'

theorem assign_perm (n : ℕ) (assignor : Str) {l l' : List Str} (h : l.Perm l') :
    assign n assignor l = assign n assignor l' := by
  unfold assign
  simp only [sortStrings_eq_of_perm h]

def SameMembers (g g' : Group) : Prop :=
  ∀ id, (g.members.get id).isSome ↔ (g'.members.get id).isSome

theorem sameMembers_of_keys {g g' : Group} (h : g.members.keys.Perm g'.members.keys) :
    SameMembers g g' := by
  intro id
  rw [Option.isSome_iff_exists, Option.isSome_iff_exists, ← FMap.mem_keys_iff,
    ← FMap.mem_keys_iff]
  exact h.mem_iff

/-- Groups with the same members list them in some order, each one once. -/
theorem memberOrder_perm {counts : ℕ → Prop} {g g' : Group} (h : WellFormed counts g)
    (h' : WellFormed counts g') (hmembers : SameMembers g g') :
    g.memberOrder.Perm g'.memberOrder := by
  rw [List.perm_ext_iff_of_nodup h.nodup h'.nodup]
  intro id
  rw [h.members_iff, h'.members_iff]
  exact hmembers id

/-- For any two histories of two managers with `n` partitions whose consumer ids are
valid text, groups that end with the same members and the same assignor have the same
assignments. -/
theorem assignments_determined (n : ℕ) (events events' : List Event)
    (hkeeps : ∀ e ∈ events ++ events', e.Keeps n) (hid : ∀ e ∈ events ++ events', e.Identified)
    (name : Str) (g g' : Group) (hg : (reached n events).groups.get name = some g)
    (hg' : (reached n events').groups.get name = some g') (hmembers : SameMembers g g')
    (hassignor : g.assignor = g'.assignor) (id : Str) :
    g.assignments.get id = g'.assignments.get id := by
  have hwf := (managed_reached (fun e he => hkeeps e (List.mem_append_left _ he))
    (fun e he => hid e (List.mem_append_left _ he))).groups name g hg
  have hwf' := (managed_reached (fun e he => hkeeps e (List.mem_append_right _ he))
    (fun e he => hid e (List.mem_append_right _ he))).groups name g' hg'
  obtain ⟨m, rfl, hassign⟩ := hwf.rebalanced
  obtain ⟨m', rfl, hassign'⟩ := hwf'.rebalanced
  rw [hassign id, hassign' id, hassignor, assign_perm m' g'.assignor
    (memberOrder_perm hwf hwf' hmembers)]

def detour : List Event :=
  [.request (.join prompt (lit "g") (lit "orders") (lit "c1") []),
    .request (.join prompt (lit "g") (lit "orders") (lit "c3") []), .restart 5,
    .request (.join prompt (lit "g") (lit "orders") (lit "c2") (lit "range")),
    .request (.leave prompt (lit "g") (lit "orders") (lit "c3") 5)]

/-- Histories that end with the same members in another order. -/
theorem assignments_determined_detour : ∃ g g',
    (reached 5 rangeEvents).groups.get (lit "g") = some g ∧
      (reached 5 detour).groups.get (lit "g") = some g' ∧ g.memberOrder ≠ g'.memberOrder ∧
      ∀ id, g.assignments.get id = g'.assignments.get id := by
  have hkeeps : ∀ e ∈ rangeEvents ++ detour, e.Keeps 5 := by
    simp [rangeEvents, detour, Event.Keeps]
  have hid : ∀ e ∈ rangeEvents ++ detour, e.Identified := by decide
  exact ⟨_, _, rfl, rfl, by decide, assignments_determined 5 rangeEvents detour hkeeps
    hid (lit "g") _ _ rfl rfl (sameMembers_of_keys (by decide)) rfl⟩

/-- Two consumers whose names are not valid text come back from the file as one
consumer, who has the share of one of them. Had that consumer joined alone, it would
have everything. -/
theorem merged_members_lose_a_share : ∃ g g',
    (reached 2 [.request (.join prompt (lit "g") (lit "orders") [0xFF] []),
      .request (.join prompt (lit "g") (lit "orders") [0xFE] []), .restart 2]).groups.get
        (lit "g") = some g ∧
    (reached 2 [.request (.join prompt (lit "g") (lit "orders") [0xEF, 0xBF, 0xBD] [])]).groups.get
        (lit "g") = some g' ∧
    SameMembers g g' ∧ g.assignor = g'.assignor ∧
    g.assignments.get [0xEF, 0xBF, 0xBD] ≠ g'.assignments.get [0xEF, 0xBF, 0xBD] :=
  ⟨_, _, rfl, rfl, sameMembers_of_keys (by decide), rfl, by decide⟩

end Flux.MembershipAssignments
