import Flux.Groups

/-!
Session expiry. The sweep over a group's members keeps those that are alive, in
order, and a sweep that removes nobody leaves the group as it was.
-/
namespace Flux.GroupExpiry

open GoRuntime GoStrings FiniteMap Groups

def alive (now : Time) (members : FMap Str Time) (id : Str) : Bool :=
  match members.get id with
  | none => false
  | some lastHeartbeat => !decide (sessionTimeout < timeSub now lastHeartbeat)

theorem alive_del (now : Time) (members : FMap Str Time) {id : Str}
    (hdead : alive now members id = false) (id' : Str) :
    alive now (members.del id) id' = alive now members id' := by
  by_cases h : id' = id
  · subst h
    rw [hdead]
    simp [alive]
  · simp [alive, h]

theorem expireMember_alive (now : Time) (acc : ExpiryState) {id : Str}
    (h : alive now acc.members id = true) :
    expireMember now acc id = { acc with active := acc.active ++ [id] } := by
  unfold alive at h
  unfold expireMember
  cases hget : acc.members.get id with
  | none => simp [hget] at h
  | some hb =>
    have hfresh : ¬ sessionTimeout < timeSub now hb := by simpa [hget] using h
    simp [hfresh]

theorem expireMember_dead (now : Time) (acc : ExpiryState) {id : Str}
    (h : alive now acc.members id = false) :
    (expireMember now acc id).active = acc.active ∧ (expireMember now acc id).removed = true ∧
      ∀ id', (expireMember now acc id).members.get id' = (acc.members.del id).get id' := by
  unfold alive at h
  unfold expireMember
  cases hget : acc.members.get id with
  | none =>
    refine ⟨rfl, rfl, ?_⟩
    intro id'
    by_cases he : id' = id
    · simp [he, hget]
    · simp [he]
  | some hb =>
    have hold : sessionTimeout < timeSub now hb := by simpa [hget] using h
    simp [hold]

/-- The sweep keeps the members that are alive, in order. -/
theorem sweep (now : Time) (order : List Str) (acc : ExpiryState) :
    (order.foldl (expireMember now) acc).active =
        acc.active ++ order.filter (alive now acc.members) ∧
      (∀ id, (order.foldl (expireMember now) acc).members.get id =
        if id ∈ order ∧ alive now acc.members id = false then none else acc.members.get id) ∧
      (order.foldl (expireMember now) acc).removed =
        (acc.removed || order.any (fun id => !alive now acc.members id)) := by
  induction order generalizing acc with
  | nil => simp
  | cons m rest ih =>
    rw [List.foldl_cons]
    obtain ⟨hactive, hmembers, hremoved⟩ := ih (expireMember now acc m)
    cases hm : alive now acc.members m with
    | true =>
      rw [expireMember_alive now acc hm] at hactive hmembers hremoved ⊢
      refine ⟨by simp [hactive, hm], ?_, by simp [hremoved, hm]⟩
      intro id
      rw [hmembers id]
      by_cases he : id = m
      · simp [he, hm]
      · simp [he]
    | false =>
      obtain ⟨hsame, hgone, hget⟩ := expireMember_dead now acc hm
      have halive : ∀ id, alive now (expireMember now acc m).members id =
          alive now acc.members id := by
        intro id
        rw [← alive_del now acc.members hm id]
        simp only [alive, hget]
      simp only [halive] at hactive hmembers hremoved
      refine ⟨by simp [hactive, hsame, hm, funext halive], ?_, by simp [hremoved, hgone, hm]⟩
      intro id
      rw [hmembers id, hget id]
      by_cases he : id = m
      · simp [he, hm]
      · simp [he]

theorem sweep_alive (now : Time) (order : List Str) (acc : ExpiryState)
    (h : ∀ id ∈ order, alive now acc.members id = true) :
    order.foldl (expireMember now) acc = { acc with active := acc.active ++ order } := by
  induction order generalizing acc with
  | nil => simp
  | cons m rest ih =>
    have hrest := ih { acc with active := acc.active ++ [m] }
      (fun id hid => h id (List.mem_cons_of_mem _ hid))
    rw [List.foldl_cons, expireMember_alive now acc (h m (List.mem_cons_self ..)), hrest]
    simp

theorem cleanupExpired_alive (n : ℕ) (now : Time) (g : Group)
    (h : ∀ id ∈ g.memberOrder, alive now g.members id = true) :
    cleanupExpired n now g = (g, false) := by
  unfold cleanupExpired
  rw [sweep_alive now g.memberOrder ⟨g.members, [], false⟩ h]
  simp

/-- A cleanup that removes nobody changes nothing. -/
theorem cleanupExpired_quiet (n : ℕ) (now : Time) (g : Group)
    (h : (cleanupExpired n now g).2 = false) : cleanupExpired n now g = (g, false) := by
  have hremoved : (g.memberOrder.foldl (expireMember now) ⟨g.members, [], false⟩).removed =
      false := by
    unfold cleanupExpired at h
    dsimp only at h
    split at h
    · exact absurd h.symm Bool.false_ne_true
    · rename_i hr
      simpa using hr
  rw [(sweep now g.memberOrder ⟨g.members, [], false⟩).2.2] at hremoved
  exact cleanupExpired_alive n now g (by simpa using hremoved)

theorem cleanupExpired_names (n : ℕ) (now : Time) (g : Group) :
    (cleanupExpired n now g).1.topic = g.topic ∧
      (cleanupExpired n now g).1.assignor = g.assignor := by
  unfold cleanupExpired
  dsimp only
  split
  · exact ⟨rfl, rfl⟩
  · exact ⟨rfl, rfl⟩

/-- Expiry removes exactly the members that were not heard from in time. -/
theorem expiry_removes_silent (n : ℕ) (now : Time) (g : Group) :
    let g' := (cleanupExpired n now g).1
    let active := g.memberOrder.filter (alive now g.members)
    g'.memberOrder = active ∧
      (∀ id, g'.members.get id = if id ∈ g.memberOrder ∧ alive now g.members id = false then none
        else g.members.get id) ∧
      (g'.generation, g'.assignments) = if active = g.memberOrder then
          (g.generation, g.assignments)
        else (wrap64 (g.generation + 1), assign n g.assignor active) := by
  obtain ⟨hactive, hmembers, hremoved⟩ := sweep now g.memberOrder ⟨g.members, [], false⟩
  have hany : g.memberOrder.any (fun id => !alive now g.members id) =
      decide (g.memberOrder.filter (alive now g.members) ≠ g.memberOrder) := by
    rw [Bool.eq_iff_iff]
    simp
  by_cases hall : g.memberOrder.filter (alive now g.members) = g.memberOrder
  · simp [cleanupExpired, hactive, hmembers, hremoved, hany, hall]
  · simp [cleanupExpired, rebalance, hactive, hmembers, hremoved, hany, hall]

end Flux.GroupExpiry
