import Flux.GroupShapes

/-!
What one request does to the group manager as a whole. A property of single
groups that every operation on a group keeps is kept by every request, for the
groups in memory and for what the state file would be loaded with. Two such
properties are used below: being well formed, which asks valid text of consumer
ids, and being legible, which asks it of all names.
-/
namespace Flux.GroupCalls

open GoStrings FiniteMap JsonState Groups GroupExpiry GroupGenerations GroupShapes

variable {consumerID groupName name topic assignor : Str} {g g' : Group} {request : Request}
  {gm gm' : GroupManager}

structure Holds (counts : ℕ → Prop) (Q F : Str → Group → Prop) (gm : GroupManager) : Prop where
  counted : counts gm.numPartitions
  groups : ∀ name g, gm.groups.get name = some g → Q name g
  saved : ∀ name g, (load gm.file).get name = some g → F name g

structure Kept (counts : ℕ → Prop) (admits : Str → Str → Str → Str → Prop)
    (P F : ℕ → Str → Group → Prop) : Prop where
  succ : ∀ k name g, P k name g → P (k + 1) name g
  succ_saved : ∀ k name g, F k name g → F (k + 1) name g
  newGroup : ∀ k name n topic consumerID assignor, counts n →
    admits name topic consumerID assignor → P k name (newGroup topic assignor)
  switchTopic : ∀ k name g n topic consumerID assignor, counts n →
    admits name topic consumerID assignor → P k name g → P (k + 1) name (switchTopic g topic)
  switchAssignor : ∀ k name g n topic consumerID assignor, counts n →
    admits name topic consumerID assignor → P k name g →
      P (k + 1) name (switchAssignor n g assignor)
  expire : ∀ k name g n now, counts n → P k name g → P (k + 1) name (cleanupExpired n now g).1
  add : ∀ k name g n now topic consumerID assignor, counts n →
    admits name topic consumerID assignor → P k name g →
      P (k + 1) name (addMember n now g consumerID)
  remove : ∀ k name g n consumerID, counts n → P k name g →
    P (k + 1) name (removeMember n g consumerID)
  refresh : ∀ k name g beat consumerID, (g.members.get consumerID).isSome → P k name g →
    P (k + 1) name (refreshMember beat g consumerID)
  load : ∀ k name g, P k name g → F k (coerce name) (loadGroup (persistGroup g))

def Admitted (admits : Str → Str → Str → Str → Prop) : Request → Prop
  | .join _ groupName topic consumerID assignor => admits groupName topic consumerID assignor
  | _ => True

instance (admits : Str → Str → Str → Str → Prop) [∀ a b c d, Decidable (admits a b c d)] :
    (request : Request) → Decidable (Admitted admits request)
  | .join _ groupName topic consumerID assignor =>
      inferInstanceAs (Decidable (admits groupName topic consumerID assignor))
  | .leave .. => isTrue trivial
  | .sync .. => isTrue trivial
  | .heartbeat .. => isTrue trivial
  | .validateCommit .. => isTrue trivial

theorem get_load_saved (h : (load (saveLocked .written gm).file).get name = some g) :
    ∃ name' g', gm.groups.get name' = some g' ∧ coerce name' = name ∧
      loadGroup (persistGroup g') = g := by
  simp only [saveLocked, load, FMap.get_mapValues, Option.map_eq_some_iff] at h
  obtain ⟨p, hp, rfl⟩ := h
  obtain ⟨name', g', hg', hname, rfl⟩ := exists_of_get_jsonMap _ _ hp
  exact ⟨name', g', hg', hname, rfl⟩

section Calls

variable {counts : ℕ → Prop} {admits : Str → Str → Str → Str → Prop}
  {P F : ℕ → Str → Group → Prop} (hP : Kept counts admits P F) {k : ℕ} {gm : GroupManager}
  (hm : Holds counts (P k) (F k) gm)

include hP hm

theorem Kept.holds_succ : Holds counts (P (k + 1)) (F (k + 1)) gm :=
  ⟨hm.counted, fun name g hg => hP.succ k name g (hm.groups name g hg),
    fun name g hg => hP.succ_saved k name g (hm.saved name g hg)⟩

theorem Kept.saveLocked (outcome : SaveOutcome) :
    Holds counts (P k) (F k) (saveLocked outcome gm) := by
  refine ⟨by simpa using hm.counted, by simpa using hm.groups, ?_⟩
  intro name g hg
  cases outcome with
  | written =>
    obtain ⟨name', g', hg', rfl, rfl⟩ := get_load_saved hg
    exact hP.load k name' g' (hm.groups name' g' hg')
  | unchanged => exact hm.saved name g hg
  | torn => simp [Groups.saveLocked, Groups.load] at hg

omit hP in
theorem Holds.setGroup (hg' : P k name g') : Holds counts (P k) (F k) (setGroup gm name g') := by
  refine ⟨hm.counted, ?_, hm.saved⟩
  intro name' g hg
  by_cases heq : name' = name
  · simp only [Groups.setGroup, heq, FMap.get_set_self, Option.some.injEq] at hg
    rw [heq, ← hg]
    exact hg'
  · simp only [Groups.setGroup, FMap.get_set_ne _ _ heq] at hg
    exact hm.groups name' g hg

theorem Kept.ensureGroup (hadm : admits groupName topic consumerID assignor) :
    P (k + 2) groupName (ensureGroup gm groupName topic assignor) := by
  unfold Groups.ensureGroup
  cases hget : gm.groups.get groupName with
  | none => exact hP.newGroup _ _ _ topic consumerID assignor hm.counted hadm
  | some g =>
    have hswitched := hP.switchTopic k groupName g _ topic consumerID assignor hm.counted hadm
      (hm.groups groupName g hget)
    exact hP.switchAssignor _ _ _ _ topic consumerID assignor hm.counted hadm hswitched

theorem Kept.cleanup (visit : Visit) (hg : P k name g) :
    Holds counts (P (k + 1)) (F (k + 1)) (cleanup visit gm name g).1 := by
  have hset := (hP.holds_succ hm).setGroup
    (hP.expire k name g gm.numPartitions visit.now hm.counted hg)
  unfold Groups.cleanup
  dsimp only
  split
  · exact hP.saveLocked hset _
  · exact hset

theorem Kept.joinGroup (visit : Visit) (hadm : admits groupName topic consumerID assignor) :
    Holds counts (P (k + 4)) (F (k + 4))
      (joinGroup visit gm groupName topic consumerID assignor).1 := by
  have hclean := hP.cleanup (hP.holds_succ (hP.holds_succ hm)) visit (hP.ensureGroup hm hadm)
  have hstored := hclean.groups groupName _ (cleanup_stored gm visit groupName _)
  have hadded := hP.add _ _ _ _ visit.now topic consumerID assignor hm.counted hadm hstored
  exact hP.saveLocked ((hP.holds_succ hclean).setGroup hadded) _

theorem Kept.checkMember (visit : Visit) (groupName topic consumerID : Str) (generation : Int) :
    Holds counts (P (k + 1)) (F (k + 1))
      (checkMember visit gm groupName topic consumerID generation).1 := by
  have hstay := hP.holds_succ hm
  unfold Groups.checkMember
  cases hget : gm.groups.get groupName with
  | none => exact hstay
  | some g =>
    have hclean := hP.cleanup hm visit (hm.groups groupName g hget)
    dsimp only
    split
    · exact hstay
    · split
      · exact hclean
      · split
        · exact hclean
        · exact hclean

/-- Replace the group that passed the checks and save. -/
theorem Kept.checked {visit : Visit} {generation : Int}
    (hresult : Groups.checkMember visit gm groupName topic consumerID generation = (gm', .ok g))
    (hg' : counts gm'.numPartitions → P (k + 1) groupName g → P (k + 2) groupName g') :
    Holds counts (P (k + 2)) (F (k + 2))
      (Groups.saveLocked visit.finalSave (Groups.setGroup gm' groupName g')) := by
  have hcheck := hP.checkMember hm visit groupName topic consumerID generation
  rw [hresult] at hcheck
  have hstored := hcheck.groups groupName g (checkMember_accepted hresult).1
  exact hP.saveLocked ((hP.holds_succ hcheck).setGroup (hg' hcheck.counted hstored)) _

theorem Kept.served (hadm : Admitted admits request) (h : Served gm request gm') :
    Holds counts (P (k + 4)) (F (k + 4)) gm' := by
  cases h with
  | joined visit groupName topic consumerID assignor => exact hP.joinGroup hm visit hadm
  | checked _ topic consumerID generation =>
    exact hP.holds_succ (hP.holds_succ (hP.holds_succ
      (hP.checkMember hm request.visit _ topic consumerID generation)))
  | removed _ hresult =>
    exact hP.holds_succ (hP.holds_succ (hP.checked hm hresult
      (fun hn hg => hP.remove _ _ _ _ _ hn hg)))
  | refreshed _ hresult =>
    have hmember := (checkMember_accepted hresult).2.2.2
    exact hP.holds_succ (hP.holds_succ (hP.checked hm hresult
      (fun _ hg => hP.refresh _ _ _ _ _ hmember hg)))

end Calls

def Managed (counts : ℕ → Prop) : GroupManager → Prop :=
  Holds counts (fun _ g => WellFormed counts g) (fun _ g => WellFormed counts g)

def consumerValid (_groupName _topic consumerID _assignor : Str) : Prop := ValidText consumerID

def namesValid (groupName topic consumerID assignor : Str) : Prop :=
  ValidText groupName ∧ ValidText topic ∧ ValidText consumerID ∧ ValidText assignor

instance (a b c d : Str) : Decidable (consumerValid a b c d) :=
  inferInstanceAs (Decidable (ValidText c))

instance (a b c d : Str) : Decidable (namesValid a b c d) :=
  inferInstanceAs (Decidable (ValidText a ∧ ValidText b ∧ ValidText c ∧ ValidText d))

theorem wellFormed_kept (counts : ℕ → Prop) : Kept counts consumerValid
    (fun _ _ g => WellFormed counts g) (fun _ _ g => WellFormed counts g) where
  succ _ _ _ h := h
  succ_saved _ _ _ h := h
  newGroup _ _ _ topic _ assignor hn _ := newGroup_wellFormed hn topic assignor
  switchTopic _ _ _ _ topic _ _ hn _ h := switchTopic_wellFormed hn h topic
  switchAssignor _ _ _ _ _ _ assignor hn _ h := switchAssignor_wellFormed hn h assignor
  expire _ _ _ _ now hn h := cleanupExpired_wellFormed h hn now
  add _ _ _ _ now _ _ _ hn hid h := addMember_wellFormed h hn now hid
  remove _ _ _ _ consumerID hn h := removeMember_wellFormed h hn consumerID
  refresh _ _ _ beat _ hmember h := refreshMember_wellFormed h beat hmember
  load _ _ _ h := loadGroup_wellFormed h

theorem legible_kept (counts : ℕ → Prop) : Kept counts namesValid Legible Legible where
  succ _ _ _ h := ⟨h.name, h.topic, h.assignor, h.assignor_ne, h.generation.succ⟩
  succ_saved _ _ _ h := ⟨h.name, h.topic, h.assignor, h.assignor_ne, h.generation.succ⟩
  newGroup k _ _ _ _ _ _ hnames := newGroup_legible hnames.1 hnames.2.1 hnames.2.2.2 k
  switchTopic _ _ _ _ _ _ _ _ hnames h := switchTopic_legible h hnames.2.1
  switchAssignor _ _ _ n _ _ _ _ hnames h := switchAssignor_legible h n hnames.2.2.2
  expire _ _ g n now _ h := by
    obtain ⟨htopic, hassignor⟩ := cleanupExpired_names n now g
    exact h.follows (htopic ▸ h.topic) (hassignor ▸ ⟨h.assignor, h.assignor_ne⟩)
      (cleanupExpired_follows n g now)
  add _ _ g n now _ consumerID _ _ _ h := by
    have hnames : (addMember n now g consumerID).topic = g.topic ∧
        (addMember n now g consumerID).assignor = g.assignor := by
      unfold addMember
      split
      · exact ⟨rfl, rfl⟩
      · exact ⟨rfl, rfl⟩
    exact h.follows (hnames.1 ▸ h.topic) (hnames.2 ▸ ⟨h.assignor, h.assignor_ne⟩)
      (addMember_follows n g now consumerID)
  remove _ _ g n consumerID _ h :=
    h.follows h.topic ⟨h.assignor, h.assignor_ne⟩ (removeMember_follows n g consumerID)
  refresh _ _ g beat consumerID _ h :=
    h.follows h.topic ⟨h.assignor, h.assignor_ne⟩ (refreshMember_follows g beat consumerID)
  load _ _ _ h := loadGroup_legible h

theorem within_kept (counts : ℕ → Prop) {low b : Int} (hlow : -2 ^ 63 ≤ low ∧ low ≤ 1)
    (hb : 1 ≤ b) : Kept counts (fun _ _ _ _ => True) (fun k _ g => Within low b k g)
      (fun _ _ _ => True) where
  succ _ _ _ h := h.succ
  succ_saved _ _ _ h := h
  newGroup k _ _ topic _ assignor _ _ := newGroup_within hlow.2 hb k topic assignor
  switchTopic _ _ g _ topic _ _ _ _ h := h.follows hlow.1 (switchTopic_follows g topic)
  switchAssignor _ _ g n _ _ assignor _ _ h :=
    h.follows hlow.1 (switchAssignor_follows n g assignor)
  expire _ _ g n now _ h := h.follows hlow.1 (cleanupExpired_follows n g now)
  add _ _ g n now _ consumerID _ _ _ h := h.follows hlow.1 (addMember_follows n g now consumerID)
  remove _ _ g n consumerID _ h := h.follows hlow.1 (removeMember_follows n g consumerID)
  refresh _ _ g beat consumerID _ h := h.follows hlow.1 (refreshMember_follows g beat consumerID)
  load _ _ _ _ := trivial

def ValidConsumer : Request → Prop := Admitted consumerValid

def ValidNames : Request → Prop := Admitted namesValid

instance (request : Request) : Decidable (ValidConsumer request) :=
  inferInstanceAs (Decidable (Admitted consumerValid request))

instance (request : Request) : Decidable (ValidNames request) :=
  inferInstanceAs (Decidable (Admitted namesValid request))

theorem ValidNames.consumer (h : ValidNames request) : ValidConsumer request := by
  cases request with
  | join => exact h.2.2.1
  | _ => trivial

theorem Managed.serve {counts : ℕ → Prop} (hm : Managed counts gm) (hid : ValidConsumer request) :
    Managed counts (serve gm request) :=
  (wellFormed_kept counts).served (k := 0) hm hid (serve_served gm request)

def Saves (visit : Visit) : Prop :=
  visit.expirySave = .written ∧ visit.finalSave = .written

instance (visit : Visit) : Decidable (Saves visit) := instDecidableAnd

end Flux.GroupCalls
