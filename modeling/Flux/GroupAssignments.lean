import Flux.FairShares
import Flux.Groups

/-!
What the two assignors compute. Members are taken in sorted order; round robin
deals the partitions out to them in turn and range cuts them into slices, so
both assign every partition to exactly one member in shares that differ by at
most one.
-/
namespace Flux.GroupAssignments

open GoStrings FiniteMap FairShares Groups

variable {members : List Str} {assignments assignments' : FMap Str (List Int)} {n : ℕ} {id : Str}
  {share : ℕ → List ℕ}

/-- Every partition below `numPartitions` belongs to exactly one member, and
members hold equal shares up to one. -/
structure FairAssignment (numPartitions : ℕ) (members : List Str)
    (assignments : FMap Str (List Int)) : Prop where
  only_members : ∀ id, (assignments.get id).isSome → id ∈ members
  in_range : ∀ id p, p ∈ assigned assignments id → 0 ≤ p ∧ p < numPartitions
  nodup : ∀ id, (assigned assignments id).Nodup
  covered : members ≠ [] → ∀ p : Int, 0 ≤ p → p < numPartitions →
    ∃ id ∈ members, p ∈ assigned assignments id
  unique : ∀ p id id', p ∈ assigned assignments id → p ∈ assigned assignments id' → id = id'
  balanced : ∀ id ∈ members, ∀ id' ∈ members,
    (assigned assignments id).length ≤ (assigned assignments id').length + 1

structure Deals (share : ℕ → List ℕ) (members : List Str) (assignments : FMap Str (List Int)) :
    Prop where
  held : ∀ j id, members[j]? = some id →
    assigned assignments id = (share j).map (fun p : ℕ => (p : Int))
  others : ∀ id, id ∉ members → assignments.get id = none

theorem assigned_set_self (assignments : FMap Str (List Int)) (id : Str) (parts : List Int) :
    assigned (assignments.set id parts) id = parts := by
  simp [assigned]

theorem assigned_set_ne (assignments : FMap Str (List Int)) {id' : Str} (parts : List Int)
    (h : id' ≠ id) : assigned (assignments.set id parts) id' = assigned assignments id' := by
  simp [assigned, h]

theorem Deals.place (h : Deals share members assignments) {p : Int}
    (hp : p ∈ assigned assignments id) :
    ∃ j i, j < members.length ∧ members[j]? = some id ∧ i ∈ share j ∧ (i : Int) = p := by
  by_cases hmem : id ∈ members
  · obtain ⟨j, hj⟩ := List.mem_iff_getElem?.mp hmem
    rw [h.held j id hj] at hp
    obtain ⟨i, hi, rfl⟩ := List.mem_map.mp hp
    exact ⟨j, i, (List.getElem?_eq_some_iff.mp hj).1, hj, hi, rfl⟩
  · simp [assigned, h.others id hmem] at hp

/-- Fair shares for distinct members give a fair assignment. -/
theorem Deals.fair (h : Deals share members assignments) (hshare : Fair n members.length share) :
    FairAssignment n members assignments where
  only_members id hsome := by
    by_contra hmem
    simp [h.others id hmem] at hsome
  in_range id p hp := by
    obtain ⟨j, i, hj, -, hi, rfl⟩ := h.place hp
    have := hshare.below j hj i hi
    omega
  nodup id := by
    by_cases hmem : id ∈ members
    · obtain ⟨j, hj⟩ := List.mem_iff_getElem?.mp hmem
      rw [h.held j id hj]
      exact (hshare.nodup j).map (fun a b hab => by simpa using hab)
    · simp [assigned, h.others id hmem]
  covered _ p hlow hhigh := by
    obtain ⟨j, hj, hi⟩ := hshare.total p.toNat (by omega)
    refine ⟨members[j], List.getElem_mem hj, ?_⟩
    rw [h.held j _ (List.getElem?_eq_getElem hj)]
    exact List.mem_map.mpr ⟨p.toNat, hi, by omega⟩
  unique p id id' hp hp' := by
    obtain ⟨j, i, hj, hid, hi, rfl⟩ := h.place hp
    obtain ⟨j', i', hj', hid', hi', heq⟩ := h.place hp'
    have hii : i' = i := by omega
    rw [hii] at hi'
    rw [hshare.disjoint i j j' hj hj' hi hi', hid', Option.some.injEq] at hid
    exact hid.symm
  balanced id hid id' hid' := by
    obtain ⟨j, hj⟩ := List.mem_iff_getElem?.mp hid
    obtain ⟨j', hj'⟩ := List.mem_iff_getElem?.mp hid'
    rw [h.held j id hj, h.held j' id' hj', List.length_map, List.length_map]
    exact hshare.balanced j j' (List.getElem?_eq_some_iff.mp hj).1
      (List.getElem?_eq_some_iff.mp hj').1

theorem dealt_succ (n k j : ℕ) :
    dealt (n + 1) k j = dealt n k j ++ if n % k = j then [n] else [] := by
  rw [dealt, List.range_succ, List.filter_append, ← dealt]
  by_cases h : n % k = j
  · simp [h]
  · simp [h]

/-- Round robin deals the partitions out one at a time. -/
theorem assignRoundRobin_deals (n : ℕ) (members : List Str) (h : members ≠ [])
    (hnodup : members.Nodup) :
    Deals (dealt n members.length) members (assignRoundRobin n members h) := by
  induction n with
  | zero => exact ⟨fun j id _ => by simp [assignRoundRobin, assigned, dealt],
      fun id _ => by simp [assignRoundRobin]⟩
  | succ n ih =>
    have hlt := Nat.mod_lt n (List.length_pos_of_ne_nil h)
    have hstep : assignRoundRobin (n + 1) members h =
        (assignRoundRobin n members h).set (members.get ⟨n % members.length, hlt⟩)
          (assigned (assignRoundRobin n members h) (members.get ⟨n % members.length, hlt⟩) ++
            [(n : Int)]) := by
      simp [assignRoundRobin, List.range_succ]
    have hplace : members[n % members.length]? = some (members.get ⟨n % members.length, hlt⟩) :=
      List.getElem?_eq_getElem hlt
    rw [hstep]
    refine ⟨?_, ?_⟩
    · intro j id hj
      rw [dealt_succ]
      by_cases hturn : n % members.length = j
      · subst hturn
        rw [hplace, Option.some.injEq] at hj
        subst hj
        rw [assigned_set_self, ih.held _ _ hplace]
        simp
      · have hne : id ≠ members.get ⟨n % members.length, hlt⟩ := by
          intro heq
          rw [heq] at hj
          exact hturn ((List.getElem?_inj hlt hnodup).mp (hplace.trans hj.symm))
        rw [assigned_set_ne _ _ hne, ih.held j id hj]
        simp [hturn]
    · intro id hid
      have hne : id ≠ members.get ⟨n % members.length, hlt⟩ :=
        fun heq => hid (heq ▸ List.get_mem _ _)
      rw [FMap.get_set_ne _ _ hne, ih.others id hid]

/-- The loop gives the members that are left the slices from `idx` on. -/
theorem rangeLoop_get (n k : ℕ) (rest : List Str) (hnodup : rest.Nodup) (idx start : ℕ)
    (hstart : start = shareStart n k idx) (acc : FMap Str (List Int)) :
    (∀ j id, rest[j]? = some id → (rangeLoop (n / k) (n % k) idx start rest acc).get id =
      some ((sliced n k (idx + j)).map (fun p : ℕ => (p : Int)))) ∧
    (∀ id, id ∉ rest → (rangeLoop (n / k) (n % k) idx start rest acc).get id = acc.get id) := by
  induction rest generalizing idx start acc with
  | nil => exact ⟨by simp, fun id _ => rfl⟩
  | cons m rest ih =>
    obtain ⟨hm, hrest⟩ := List.nodup_cons.mp hnodup
    have hcount : (if idx < n % k then n / k + 1 else n / k) = shareSize n k idx := by
      unfold shareSize
      split <;> rfl
    have hnext : start + shareSize n k idx = shareStart n k (idx + 1) := by
      rw [shareStart_succ, hstart]
    have hloop : rangeLoop (n / k) (n % k) idx start (m :: rest) acc =
        rangeLoop (n / k) (n % k) (idx + 1) (start + shareSize n k idx) rest
          (acc.set m ((sliced n k idx).map (fun p : ℕ => (p : Int)))) := by
      simp only [rangeLoop, hcount, sliced, hstart]
      split
      · rename_i hzero
        simp [hzero]
      · rfl
    obtain ⟨hheld, hothers⟩ := ih hrest (idx + 1) (start + shareSize n k idx) hnext
      (acc.set m ((sliced n k idx).map (fun p : ℕ => (p : Int))))
    rw [hloop]
    refine ⟨?_, ?_⟩
    · intro j id hj
      cases j with
      | zero =>
        have hid : m = id := by simpa using hj
        rw [← hid, hothers m hm, FMap.get_set_self, Nat.add_zero]
      | succ j =>
        rw [hheld j id (by simpa using hj), show idx + 1 + j = idx + (j + 1) by omega]
    · intro id hid
      rw [List.mem_cons, not_or] at hid
      rw [hothers id hid.2, FMap.get_set_ne _ _ hid.1]

theorem assignRange_deals (n : ℕ) (members : List Str) (hnodup : members.Nodup) :
    Deals (sliced n members.length) members (assignRange n members) := by
  obtain ⟨hheld, hothers⟩ := rangeLoop_get n members.length members hnodup 0 0
    (by simp [shareStart]) FMap.empty
  refine ⟨?_, ?_⟩
  · intro j id hj
    have := hheld j id hj
    rw [assigned, assignRange, this, Option.getD_some, Nat.zero_add]
  · intro id hid
    rw [assignRange, hothers id hid, FMap.get_empty]

theorem sortStrings_perm (l : List Str) : (sortStrings l).Perm l := List.perm_insertionSort _ l

/-- Fairness does not depend on the order in which members are listed. -/
theorem FairAssignment.perm {members' : List Str} (h : FairAssignment n members assignments)
    (hperm : members.Perm members') : FairAssignment n members' assignments where
  only_members id hsome := hperm.mem_iff.mp (h.only_members id hsome)
  in_range := h.in_range
  nodup := h.nodup
  covered hne p hlow hhigh := by
    have hne' : members ≠ [] := by
      intro hnil
      rw [hnil] at hperm
      exact hne hperm.nil_eq.symm
    obtain ⟨id, hid, hp⟩ := h.covered hne' p hlow hhigh
    exact ⟨id, hperm.mem_iff.mp hid, hp⟩
  unique := h.unique
  balanced id hid id' hid' :=
    h.balanced id (hperm.mem_iff.mpr hid) id' (hperm.mem_iff.mpr hid')

theorem assigned_congr (h : ∀ id, assignments'.get id = assignments.get id) (id : Str) :
    assigned assignments' id = assigned assignments id := by
  rw [assigned, assigned, h]

/-- Fairness is about what the assignments hold, not how. -/
theorem FairAssignment.congr (h : FairAssignment n members assignments)
    (heq : ∀ id, assignments'.get id = assignments.get id) :
    FairAssignment n members assignments' := by
  have hassigned := assigned_congr heq
  exact ⟨fun id hsome => h.only_members id (heq id ▸ hsome),
    by simpa only [hassigned] using h.in_range,
    by simpa only [hassigned] using h.nodup, by simpa only [hassigned] using h.covered,
    by simpa only [hassigned] using h.unique, by simpa only [hassigned] using h.balanced⟩

/-- Both assignors are fair to distinct members. -/
theorem assign_fair (n : ℕ) (assignor : Str) (members : List Str) (hnodup : members.Nodup) :
    FairAssignment n members (assign n assignor members) := by
  have hperm := sortStrings_perm members
  have hsorted : (sortStrings members).Nodup := hperm.nodup_iff.mpr hnodup
  refine FairAssignment.perm ?_ hperm
  unfold assign
  split
  · rename_i hnil
    rw [hnil]
    exact ⟨by simp, by simp [assigned], by simp [assigned], by simp, by simp [assigned], by simp⟩
  · rename_i hne
    have hpos := List.length_pos_of_ne_nil hne
    split
    · exact (assignRange_deals n _ hsorted).fair (sliced_fair n _ hpos)
    · exact (assignRoundRobin_deals n _ hne hsorted).fair (dealt_fair n _ hpos)

end Flux.GroupAssignments
