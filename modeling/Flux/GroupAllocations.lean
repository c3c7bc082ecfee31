import Flux.GroupExpiry

/-!
The slices that the range assignor makes for the partitions of each member.
Every other allocation of the group manager grows with what is already in
memory, but the capacity of these is computed from the configured number of
partitions, and the run time checks it.
-/
namespace Flux.GroupAllocations

open GoRuntime GoStrings Groups

/-- The capacities `assignRangeLocked` asks for, from member number `idx` on. -/
def rangeCounts (base extra : ℕ) : ℕ → List Str → List ℕ
  | _, [] => []
  | idx, _ :: rest =>
      let count := if idx < extra then base + 1 else base
      if count = 0 then rangeCounts base extra (idx + 1) rest
      else count :: rangeCounts base extra (idx + 1) rest

def makeAll : List ℕ → Except Panic Unit
  | [] => .ok ()
  | count :: rest => (makeCap intSize count).bind (fun _ => makeAll rest)

def assignAllocs (numPartitions : ℕ) (g : Group) : Except Panic Unit :=
  let members := sortStrings g.memberOrder
  if members = [] then .ok ()
  else if g.assignor = assignorRange then
    makeAll (rangeCounts (numPartitions / members.length) (numPartitions % members.length) 0
      members)
  else .ok ()

def ensureAllocs (gm : GroupManager) (groupName topic assignor : Str) : Except Panic Unit :=
  match gm.groups.get groupName with
  | none => .ok ()
  | some g =>
      if assignor = [] ∨ assignor = (switchTopic g topic).assignor then .ok ()
      else assignAllocs gm.numPartitions (ensureGroup gm groupName topic assignor)

def cleanupAllocs (visit : Visit) (gm : GroupManager) (g : Group) : Except Panic Unit :=
  let swept := cleanupExpired gm.numPartitions visit.now g
  if swept.2 then assignAllocs gm.numPartitions swept.1 else .ok ()

/-- `JoinGroup` rebalances up to three times. -/
def joinAllocs (visit : Visit) (gm : GroupManager) (groupName topic consumerID assignor : Str) :
    Except Panic Unit :=
  let g := ensureGroup gm groupName topic assignor
  let cleaned := (cleanup visit gm groupName g).2
  (ensureAllocs gm groupName topic assignor).bind (fun _ =>
    (cleanupAllocs visit gm g).bind (fun _ =>
      if (cleaned.members.get consumerID).isNone then
        assignAllocs gm.numPartitions (addMember gm.numPartitions visit.now cleaned consumerID)
      else .ok ()))

def checkAllocs (visit : Visit) (gm : GroupManager) (groupName topic : Str) : Except Panic Unit :=
  match gm.groups.get groupName with
  | none => .ok ()
  | some g => if g.topic ≠ topic then .ok () else cleanupAllocs visit gm g

def leaveAllocs (visit : Visit) (gm : GroupManager) (groupName topic consumerID : Str)
    (generation : Int) : Except Panic Unit :=
  (checkAllocs visit gm groupName topic).bind (fun _ =>
    match (checkMember visit gm groupName topic consumerID generation).2 with
    | .error _ => .ok ()
    | .ok g => assignAllocs gm.numPartitions (removeMember gm.numPartitions g consumerID))

theorem rangeCounts_le (n : ℕ) (members rest : List Str) (hmembers : members ≠ []) (idx : ℕ) :
    ∀ count ∈ rangeCounts (n / members.length) (n % members.length) idx rest, count ≤ n := by
  have hlen : 0 < members.length := List.length_pos_of_ne_nil hmembers
  have hle : n / members.length ≤ n := Nat.div_le_self n _
  have hlt : ∀ i, i < n % members.length → n / members.length + 1 ≤ n := by
    intro i hi
    have hdiv := Nat.div_add_mod n members.length
    have hmul : n / members.length ≤ members.length * (n / members.length) :=
      Nat.le_mul_of_pos_left _ hlen
    omega
  induction rest generalizing idx with
  | nil => simp [rangeCounts]
  | cons member rest ih =>
    intro count hcount
    unfold rangeCounts at hcount
    dsimp only at hcount
    have hfirst : (if idx < n % members.length then n / members.length + 1
        else n / members.length) ≤ n := by
      split
      · exact hlt idx ‹_›
      · exact hle
    generalize (if idx < n % members.length then n / members.length + 1
      else n / members.length) = first at hcount hfirst
    split at hcount
    · exact ih (idx + 1) count hcount
    · rcases List.mem_cons.mp hcount with rfl | hrest
      · exact hfirst
      · exact ih (idx + 1) count hrest

theorem makeCap_ok {size n : Int} (hn : 0 ≤ n) (hle : size * n ≤ maxAlloc) :
    makeCap size n = .ok () := by
  unfold makeCap
  rw [if_neg (by omega)]

theorem makeAll_ok {counts : List ℕ} (h : ∀ count ∈ counts, intSize * (count : Int) ≤ maxAlloc) :
    makeAll counts = .ok () := by
  induction counts with
  | nil => rfl
  | cons count rest ih =>
    have hcap := makeCap_ok (Int.natCast_nonneg count) (h count (List.mem_cons_self ..))
    have hrest := ih (fun c hc => h c (List.mem_cons_of_mem _ hc))
    simp only [makeAll, hcap, hrest, Except.bind]

section Allocs

variable {n : ℕ} (h : intSize * (n : Int) ≤ maxAlloc)

include h

theorem assignAllocs_ok (g : Group) : assignAllocs n g = .ok () := by
  unfold assignAllocs
  dsimp only
  split
  · rfl
  · rename_i hmembers
    split
    · refine makeAll_ok (fun count hcount => ?_)
      have hle := rangeCounts_le n _ _ hmembers 0 count hcount
      have hsize : intSize = 8 := rfl
      rw [hsize] at h ⊢
      omega
    · rfl

theorem cleanupAllocs_ok (visit : Visit) {gm : GroupManager} (hgm : gm.numPartitions = n)
    (g : Group) : cleanupAllocs visit gm g = .ok () := by
  unfold cleanupAllocs
  dsimp only
  split
  · exact hgm ▸ assignAllocs_ok (hgm ▸ h) _
  · rfl

theorem joinAllocs_ok (visit : Visit) {gm : GroupManager} (hgm : gm.numPartitions = n)
    (groupName topic consumerID assignor : Str) :
    joinAllocs visit gm groupName topic consumerID assignor = .ok () := by
  subst hgm
  have hensure : ensureAllocs gm groupName topic assignor = .ok () := by
    unfold ensureAllocs
    cases gm.groups.get groupName with
    | none => rfl
    | some g =>
      dsimp only
      split
      · rfl
      · exact assignAllocs_ok h _
  unfold joinAllocs
  simp only [hensure, cleanupAllocs_ok h visit rfl, Except.bind]
  split
  · exact assignAllocs_ok h _
  · rfl

theorem checkAllocs_ok (visit : Visit) {gm : GroupManager} (hgm : gm.numPartitions = n)
    (groupName topic : Str) : checkAllocs visit gm groupName topic = .ok () := by
  unfold checkAllocs
  cases gm.groups.get groupName with
  | none => rfl
  | some g =>
    dsimp only
    split
    · rfl
    · exact cleanupAllocs_ok h visit hgm g

theorem leaveAllocs_ok (visit : Visit) {gm : GroupManager} (hgm : gm.numPartitions = n)
    (groupName topic consumerID : Str) (generation : Int) :
    leaveAllocs visit gm groupName topic consumerID generation = .ok () := by
  unfold leaveAllocs
  simp only [checkAllocs_ok h visit hgm, Except.bind]
  cases (checkMember visit gm groupName topic consumerID generation).2 with
  | error e => rfl
  | ok g => exact hgm ▸ assignAllocs_ok (hgm ▸ h) _

end Allocs

end Flux.GroupAllocations
