import Flux.GroupAssignments
import Flux.GroupGenerations

/-!
Well-formed groups list their members once and hold the assignments of a
rebalance. Every operation on a group keeps it well formed as long as consumer
ids are valid text, and so does a trip through the state file, in which a group
whose other names are valid text too stays as it is while its generation has not
overflowed.
-/
namespace Flux.GroupShapes

open GoRuntime GoStrings FiniteMap JsonState Groups GroupAssignments GroupExpiry GroupGenerations

variable {counts : ℕ → Prop} {g g' : Group} {b low : Int} {k : ℕ}
  {name assignor consumerID topic : Str}

/-- A group between two calls. `counts` says which partition counts may have
been in force at its last rebalance. -/
structure WellFormed (counts : ℕ → Prop) (g : Group) : Prop where
  identified : ∀ id ∈ g.memberOrder, ValidText id
  nodup : g.memberOrder.Nodup
  members_iff : ∀ id, id ∈ g.memberOrder ↔ (g.members.get id).isSome
  rebalanced : ∃ n, counts n ∧
    ∀ id, g.assignments.get id = (assign n g.assignor g.memberOrder).get id

theorem WellFormed.fair (h : WellFormed counts g) :
    ∃ n, counts n ∧ FairAssignment n g.memberOrder g.assignments := by
  obtain ⟨n, hn, hassign⟩ := h.rebalanced
  exact ⟨n, hn, (assign_fair n g.assignor g.memberOrder h.nodup).congr hassign⟩

theorem assign_nil (n : ℕ) (assignor : Str) : assign n assignor [] = FMap.empty := by
  simp [assign, sortStrings]

section Operations

variable {counts : ℕ → Prop} {n : ℕ} (hn : counts n)

include hn

theorem newGroup_wellFormed (topic assignor : Str) :
    WellFormed counts (newGroup topic assignor) :=
  ⟨by simp [newGroup], List.nodup_nil, by simp [newGroup],
    ⟨n, hn, by simp [newGroup, assign_nil]⟩⟩

theorem switchTopic_wellFormed (h : WellFormed counts g) (topic : Str) :
    WellFormed counts (switchTopic g topic) := by
  unfold switchTopic
  split
  · exact h
  · exact ⟨by simp, List.nodup_nil, by simp, ⟨n, hn, by simp [assign_nil]⟩⟩

/-- A rebalance leaves a group whose member list is in order well formed. -/
theorem rebalance_wellFormed (hid : ∀ id ∈ g.memberOrder, ValidText id)
    (hnodup : g.memberOrder.Nodup)
    (hmembers : ∀ id, id ∈ g.memberOrder ↔ (g.members.get id).isSome) :
    WellFormed counts (rebalance n g) :=
  ⟨hid, hnodup, hmembers, ⟨n, hn, fun _ => rfl⟩⟩

theorem switchAssignor_wellFormed (h : WellFormed counts g) (assignor : Str) :
    WellFormed counts (switchAssignor n g assignor) := by
  unfold switchAssignor
  split
  · exact h
  · exact rebalance_wellFormed hn h.identified h.nodup h.members_iff

end Operations

section Members

variable {counts : ℕ → Prop} {n : ℕ} {g : Group} (h : WellFormed counts g)

include h

/-- Expiry leaves a group well formed. -/
theorem cleanupExpired_wellFormed (hn : counts n) (now : Time) :
    WellFormed counts (cleanupExpired n now g).1 := by
  cases hr : (cleanupExpired n now g).2 with
  | false =>
    rw [cleanupExpired_quiet n now g hr]
    exact h
  | true =>
    obtain ⟨hactive, hmembers, -⟩ := sweep now g.memberOrder ⟨g.members, [], false⟩
    simp only [List.nil_append] at hactive hmembers
    unfold cleanupExpired at hr ⊢
    dsimp only at hr ⊢
    split at hr
    · rename_i hremoved
      rw [if_pos hremoved]
      refine rebalance_wellFormed hn ?_ ?_ ?_
      · intro id hid
        rw [hactive] at hid
        exact h.identified id (List.mem_of_mem_filter hid)
      · rw [hactive]
        exact h.nodup.filter _
      · intro id
        rw [hactive, hmembers id, List.mem_filter]
        by_cases hid : id ∈ g.memberOrder
        · have hsome := (h.members_iff id).mp hid
          cases hal : alive now g.members id <;> simp [hid, hsome]
        · have hnone := (h.members_iff id).not.mp hid
          simp only [Bool.not_eq_true, Option.isSome_eq_false_iff,
            Option.isNone_iff_eq_none] at hnone
          simp [hid, hnone]
    · exact absurd hr Bool.false_ne_true

/-- Joining leaves a group well formed. -/
theorem addMember_wellFormed (hn : counts n) (now : Time) (hid : ValidText consumerID) :
    WellFormed counts (addMember n now g consumerID) := by
  unfold addMember
  cases hget : g.members.get consumerID with
  | none =>
    have hnew : consumerID ∉ g.memberOrder := by simp [h.members_iff, hget]
    refine rebalance_wellFormed hn ?_ ?_ ?_
    · intro id hmem
      rcases List.mem_append.mp hmem with hold | hlast
      · exact h.identified id hold
      · exact List.mem_singleton.mp hlast ▸ hid
    · exact h.nodup.append (List.nodup_singleton _) (by simpa using hnew)
    · intro id
      by_cases heq : id = consumerID
      · simp [heq]
      · simp [heq, h.members_iff]
  | some hb =>
    refine ⟨h.identified, h.nodup, ?_, h.rebalanced⟩
    intro id
    rw [h.members_iff id]
    by_cases heq : id = consumerID
    · simp [heq, hget]
    · simp [heq]

theorem removeMember_wellFormed (hn : counts n) (consumerID : Str) :
    WellFormed counts (removeMember n g consumerID) := by
  refine rebalance_wellFormed hn (fun id hid => h.identified id (List.mem_of_mem_filter hid))
    (h.nodup.filter _) ?_
  intro id
  by_cases hid : id = consumerID
  · simp [hid]
  · simp [hid, h.members_iff]

theorem refreshMember_wellFormed (beat : Time) (hmember : (g.members.get consumerID).isSome) :
    WellFormed counts (refreshMember beat g consumerID) := by
  refine ⟨h.identified, h.nodup, ?_, h.rebalanced⟩
  intro id
  unfold refreshMember
  rw [h.members_iff id]
  by_cases hid : id = consumerID
  · simp [hid, hmember]
  · simp [hid]

end Members

section Generations

/-- The generation lies from `low` up to the count `k` above `b`, unless that
overflows. -/
def Within (low b : Int) (k : ℕ) (g : Group) : Prop :=
  b + k < 2 ^ 63 → low ≤ g.generation ∧ g.generation ≤ b + k

theorem Within.follows (hlow : -2 ^ 63 ≤ low) (h : Within low b k g) (hf : Follows 1 g g') :
    Within low b (k + 1) g' := by
  intro hk
  push_cast at hk ⊢
  obtain ⟨hge, hle⟩ := h (by omega)
  have hnext := hf.generation_le (by omega) (by push_cast; omega)
  push_cast at hnext
  exact ⟨by omega, by omega⟩

theorem Within.succ (h : Within low b k g) : Within low b (k + 1) g := by
  intro hk
  push_cast at hk ⊢
  obtain ⟨hge, hle⟩ := h (by omega)
  exact ⟨hge, by omega⟩

theorem newGroup_within (hlow : low ≤ 1) (hb : 1 ≤ b) (k : ℕ) (topic assignor : Str) :
    Within low b k (newGroup topic assignor) := by
  intro hk
  simp only [newGroup]
  exact ⟨hlow, by omega⟩

/-- A group that the state file keeps as it is: its names are valid text, and its
generation, after `k` changes, is one that `load` does not replace. -/
structure Legible (k : ℕ) (name : Str) (g : Group) : Prop where
  name : ValidText name
  topic : ValidText g.topic
  assignor : ValidText g.assignor
  assignor_ne : g.assignor ≠ []
  generation : Within 1 1 k g

theorem Legible.follows (h : Legible k name g) (htopic : ValidText g'.topic)
    (hassignor : ValidText g'.assignor ∧ g'.assignor ≠ []) (hf : Follows 1 g g') :
    Legible (k + 1) name g' :=
  ⟨h.name, htopic, hassignor.1, hassignor.2, h.generation.follows (by omega) hf⟩

theorem newGroup_legible (hname : ValidText name) (htopic : ValidText topic)
    (hassignor : ValidText assignor) (k : ℕ) : Legible k name (newGroup topic assignor) := by
  have hvalid : ValidText (newGroup topic assignor).assignor ∧
      (newGroup topic assignor).assignor ≠ [] := by
    unfold newGroup
    dsimp only
    split
    · exact ⟨by decide, by decide⟩
    · rename_i hne
      exact ⟨hassignor, hne⟩
  exact ⟨hname, htopic, hvalid.1, hvalid.2, newGroup_within (by omega) (by omega) k topic assignor⟩

theorem switchTopic_legible (h : Legible k name g) (htopic : ValidText topic) :
    Legible (k + 1) name (switchTopic g topic) := by
  have hnames : ValidText (switchTopic g topic).topic ∧
      (switchTopic g topic).assignor = g.assignor := by
    unfold switchTopic
    split
    · exact ⟨h.topic, rfl⟩
    · exact ⟨htopic, rfl⟩
  exact h.follows hnames.1 (hnames.2 ▸ ⟨h.assignor, h.assignor_ne⟩) (switchTopic_follows g topic)

theorem switchAssignor_legible (h : Legible k name g) (n : ℕ) (hassignor : ValidText assignor) :
    Legible (k + 1) name (switchAssignor n g assignor) := by
  have hnames : (switchAssignor n g assignor).topic = g.topic ∧
      ValidText (switchAssignor n g assignor).assignor ∧
        (switchAssignor n g assignor).assignor ≠ [] := by
    unfold switchAssignor
    split
    · exact ⟨rfl, h.assignor, h.assignor_ne⟩
    · rename_i hswitch
      exact ⟨rfl, hassignor, fun hnil => hswitch (Or.inl hnil)⟩
  exact h.follows (hnames.1 ▸ h.topic) hnames.2 (switchAssignor_follows n g assignor)

end Generations

section Persistence

theorem get_foldl_set (pairs : List (Str × Int)) (members : FMap Str Time) (id : Str) :
    ((pairs.foldl (fun members m => members.set m.1 (m.2 * 1000000)) members).get id).isSome ↔
      id ∈ pairs.map Prod.fst ∨ (members.get id).isSome := by
  induction pairs generalizing members with
  | nil => simp
  | cons pair rest ih =>
    rw [List.foldl_cons, ih]
    by_cases hid : id = pair.1
    · simp [hid]
    · simp [hid]

theorem map_coerce {names : List Str} (h : ∀ id ∈ names, ValidText id) :
    names.map coerce = names := by
  rw [List.map_congr_left h, List.map_id']

theorem persistGroup_members (h : WellFormed counts g) :
    (persistGroup g).members.map Prod.fst = g.memberOrder := by
  have hsome : ∀ id ∈ g.memberOrder, (g.members.get id).isSome :=
    fun id hid => (h.members_iff id).mp hid
  have hnamed := h.identified
  unfold persistGroup
  dsimp only
  generalize g.memberOrder = order at hsome hnamed
  induction order with
  | nil => rfl
  | cons id rest ih =>
    obtain ⟨hb, hget⟩ := Option.isSome_iff_exists.mp (hsome id (List.mem_cons_self ..))
    have hid : coerce id = id := hnamed id (List.mem_cons_self ..)
    have hrest := ih (fun id' hid' => hsome id' (List.mem_cons_of_mem _ hid'))
      (fun id' hid' => hnamed id' (List.mem_cons_of_mem _ hid'))
    simp [hget, hid, hrest]

theorem get_loaded_assignments (h : WellFormed counts g) (id : Str) :
    (loadGroup (persistGroup g)).assignments.get id = g.assignments.get id := by
  obtain ⟨n, -, hfair⟩ := h.fair
  show (jsonMap _ g.assignments).get id = _
  rw [get_jsonMap _ _ (fun id' hid' => h.identified id' (hfair.only_members id' hid')),
    Option.map_id, id_eq]

/-- The name of an assignor may change in the file, but not what it assigns. -/
theorem assign_loaded (n : ℕ) (g : Group) (order : List Str) :
    assign n (loadGroup (persistGroup g)).assignor order = assign n g.assignor order := by
  have hrange : (loadGroup (persistGroup g)).assignor = assignorRange ↔
      g.assignor = assignorRange := by
    rw [← coerce_eq_iff_of_ascii (s := g.assignor) (by decide +kernel)
      (show ValidText assignorRange by decide)]
    show (if (persistGroup g).assignor = [] then assignorRoundRobin else
      (persistGroup g).assignor) = assignorRange ↔ (persistGroup g).assignor = assignorRange
    split
    · rename_i hnil
      rw [hnil]
      decide
    · exact Iff.rfl
  unfold assign
  simp only [hrange]

theorem loadGroup_wellFormed (h : WellFormed counts g) :
    WellFormed counts (loadGroup (persistGroup g)) := by
  have horder : (loadGroup (persistGroup g)).memberOrder = g.memberOrder :=
    map_coerce h.identified
  obtain ⟨n, hn, hassign⟩ := h.rebalanced
  refine ⟨horder ▸ h.identified, horder ▸ h.nodup, ?_, n, hn, ?_⟩
  · intro id
    have hkeys := get_foldl_set (persistGroup g).members FMap.empty id
    rw [persistGroup_members h] at hkeys
    simp only [FMap.get_empty, Option.isSome_none, Bool.false_eq_true, or_false] at hkeys
    rw [horder]
    exact hkeys.symm
  · intro id
    rw [get_loaded_assignments h, assign_loaded, horder]
    exact hassign id

/-- A legible group that went through the file differs in heartbeat times at most. -/
theorem loadGroup_persistGroup (h : WellFormed counts g) (hl : Legible k name g)
    (hk : (1 : Int) + k < 2 ^ 63) :
    (loadGroup (persistGroup g)).generation = g.generation ∧
      SameShape g (loadGroup (persistGroup g)) := by
  have hpos := (hl.generation hk).1
  have hassignor : coerce g.assignor = g.assignor := hl.assignor
  refine ⟨?_, hl.topic, ?_, map_coerce h.identified, get_loaded_assignments h⟩
  · simp only [loadGroup, persistGroup]
    omega
  · simp [loadGroup, persistGroup, hassignor, hl.assignor_ne]

theorem loadGroup_legible (h : Legible k name g) :
    Legible k (coerce name) (loadGroup (persistGroup g)) := by
  have htopic : coerce g.topic = g.topic := h.topic
  have hassignor : coerce g.assignor = g.assignor := h.assignor
  refine ⟨(congrArg coerce h.name : _), ?_, ?_, ?_, ?_⟩
  · simpa [loadGroup, persistGroup, htopic] using h.topic
  · simpa [loadGroup, persistGroup, hassignor, h.assignor_ne] using h.assignor
  · simp [loadGroup, persistGroup, hassignor, h.assignor_ne]
  · intro hk
    have hgen := h.generation hk
    simp only [loadGroup, persistGroup]
    omega

end Persistence

end Flux.GroupShapes
