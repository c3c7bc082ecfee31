import Flux.SparedRuns
import Flux.StorageRuns

/-!
Recovery from a crash within the segment write of an append. The restarted storage skips
the torn line, but it leaves it in the file, and the next append that finds room there
glues its own line to it. After another restart everything is back exactly if that did
not happen.
-/
namespace Flux.TornRecovery

open GoStrings LogLines FiniteMap PartitionStorage Runs
open StorageFrames StorageReplay StorageRefinement StorageAppends StorageCalls
open StorageRuns SegmentFiles SegmentRuns TornTails SparedRuns

section Logs

variable {s : Storage} {topic : Str} {partition : Int} {L : PartitionLog}

theorem written_ids (segments : List (Int × List Record)) :
    (written segments).map Prod.fst = segments.map Prod.fst := by
  rw [written, List.map_map]
  rfl

theorem lookup_written (segments : List (Int × List Record)) (k : Int) :
    (written segments).lookup k =
      (segments.lookup k).map (fun rs => rs.flatMap formatLine) := by
  induction segments with
  | nil => rfl
  | cons g rest ih =>
    rw [written, List.map_cons, ← written, List.lookup_cons, List.lookup_cons]
    cases k == g.1 with
    | true => rfl
    | false => exact ih

/-- A log that a partition represents, as files. -/
theorem shows_of_holds {st : PartitionState} (h : Holds s topic partition L)
    (hst : get2 s.partitionState topic partition = some st) :
    Shows s topic partition (written L.segments) (L.entries.map toMessage) L.next := by
  have htracks := h.tracked st hst
  refine ⟨⟨?_, ?_, ?_⟩, ⟨st, hst, ⟨?_, htracks.ascending, htracks.active⟩, htracks.next⟩,
    h.messages⟩
  · rw [written_ids]
    exact h.stored.ids_natural
  · rw [written_ids]
    exact L.ascending
  · intro k hk
    rw [h.stored.files k hk, lookup_written]
    rfl
  · rw [written_ids]
    exact htracks.segments

/-- What a torn write leaves of a log. -/
theorem exists_tear {lost : Record} (hlog : ∀ r ∈ L.entries, Loggable r)
    (hlost : Loggable lost) (hoffset : lost.offset = L.next) (limit : Int) {cut : ℕ}
    (hcut : cut < (formatLine lost).length) :
    ∃ t : Tear, t.files = write limit (formatLine lost).length ((formatLine lost).take cut)
        (written L.segments) ∧
      t.old = L.entries ∧ t.lost = lost ∧ t.part = (formatLine lost).take cut := by
  obtain ⟨front, k, rs, hwrite, hentries⟩ := write_written limit (formatLine lost).length
    ((formatLine lost).take cut) L.segments
  have hentries' : front.flatMap Prod.snd ++ rs = L.entries := hentries
  refine ⟨⟨front, k, rs, lost, (formatLine lost).take cut, ?_, ?_, ?_, ?_, hlost, ?_⟩,
    hwrite.symm, hentries', rfl, rfl⟩
  · rw [hentries']
    exact hlog
  · rw [hentries', hoffset]
    exact fun r hr => ⟨L.nonneg r hr, L.consecutive.lt_after hr⟩
  · rw [hentries', hoffset, advance_entries]
  · rw [hoffset]
    exact L.next_nonneg
  · rw [formatLine, List.length_append, List.length_singleton] at hcut
    rw [formatLine, List.take_append_of_le_length (by omega)]
    exact List.take_prefix _ _

end Logs

/-- An append whose segment write is cut off, a restart, more appends, and another
restart. -/
structure Outage where
  torn : Append
  cut : ℕ
  restart : Env
  settings : Settings
  later : List Append
  restart' : Env
  settings' : Settings

namespace Outage

variable (o : Outage) (topic : Str) (partition : Int) (s : Storage)

def crashed : Storage := append topic partition s (o.torn.tear o.cut)

def restarted : Storage := newStorage o.restart o.settings (o.crashed topic partition s).disk

def resumed : Storage := run (append topic partition) (o.restarted topic partition s) o.later

def recovered : Storage := newStorage o.restart' o.settings' (o.resumed topic partition s).disk

/-- Apart from the crash nothing fails, the values are such that lines keep them, and
retention deletes nothing. -/
structure Regular : Prop where
  opens : Succeeds o.torn.env
  safe : LineSafe o.torn.value
  fits : Fits o.torn.env (nextOffsetOf s topic partition) o.torn.value
  cut : o.cut < (newLine topic partition s o.torn).length
  restarts : Succeeds o.restart
  spares : Sparing o.restart o.settings (o.crashed topic partition s).disk topic partition 0
  later : Valid (append topic partition) (Allowed topic partition) (o.restarted topic partition s)
    o.later
  restarts' : Succeeds o.restart'
  spares' : Sparing o.restart' o.settings' (o.resumed topic partition s).disk topic partition 0

/-- Every record from before the crash and every record from after it is back. -/
def Recovers : Prop :=
  ∀ m ∈ messagesOf s topic partition ++
      (newRecords topic partition (o.restarted topic partition s) o.later).map toMessage,
    m ∈ messagesOf (o.recovered topic partition s) topic partition

def NoRoom (a : Append) : Prop :=
  shouldRotate s topic partition (stateOf a.env s topic partition).activeSegmentID
    (newLine topic partition s a).length = true

/-- No line is glued to the torn one, or it is the one glued line that is read. -/
def Unglued : Prop :=
  o.cut = 0 ∨ ∀ a ∈ o.later.head?, NoRoom topic partition (o.restarted topic partition s) a ∨
    (o.cut = 1 ∧ nextOffsetOf s topic partition = 0 ∧
      (newLine topic partition (o.restarted topic partition s) a).length < maxScanTokenSize)

end Outage

section Conditions

variable {s : Storage} {topic : Str} {partition next : Int} {messages : List Message}

theorem noRoom_iff {front : Files} {k : Int} {text : Str}
    (h : Shows s topic partition (front ++ [(k, text)]) messages next) (a : Append) :
    Outage.NoRoom topic partition s a ↔
      s.settings.segmentMaxBytes < text.length + (newLine topic partition s a).length := by
  obtain ⟨st, hst, hlisted, -⟩ := h.state
  rcases hlisted.last with ⟨hnil, -, -⟩ | ⟨front', text', hfiles⟩
  · simp at hnil
  · obtain ⟨rfl, hlast⟩ := List.append_inj' hfiles rfl
    obtain ⟨rfl, rfl⟩ := Prod.mk.inj (List.singleton_inj.mp hlast)
    rw [Outage.NoRoom, stateOf_eq a.env topic partition hst, shouldRotate_last h.onDisk,
      decide_eq_true_eq]

/-- The first byte of the line of the record with offset zero is a zero. -/
theorem take_eq_zero_iff {r : Record} (hr : r.offset = 0) {cut : ℕ}
    (hcut : cut < (formatLine r).length) : (formatLine r).take cut = [48] ↔ cut = 1 := by
  constructor
  · intro h
    have hlength := congrArg List.length h
    rw [List.length_take, List.length_singleton] at hlength
    omega
  · rintro rfl
    rw [formatLine, formatRecord, hr]
    rfl

end Conditions

section Outages

variable {o : Outage} {s : Storage} {topic : Str} {partition : Int} {n : ℕ}

structure Crash (o : Outage) (topic : Str) (partition : Int) (s : Storage) (n : ℕ) (t : Tear) :
    Prop where
  onDisk : OnDisk (o.crashed topic partition s).disk topic partition t.files
  named : WellNamed (o.crashed topic partition s)
  old : messagesOf s topic partition = t.old.map toMessage
  lost : t.lost = newRecord topic partition s o.torn
  part : t.part = (newLine topic partition s o.torn).take o.cut
  ids : ∀ k ∈ t.files.map Prod.fst, k ≤ (n + 1 : ℕ)
  next : t.lost.offset ≤ n

theorem exists_crash (hsound : Sound n s) (hn : n + 1 < 2 ^ 63) (ht : Plain topic)
    (hp : Natural partition) (ho : o.Regular topic partition s) :
    ∃ t, Crash o topic partition s n t := by
  obtain ⟨L, hL, hb⟩ := hsound.logs topic partition ht hp
  have hnext := nextOffsetOf_eq hL
  have hlost : Loggable (newRecord topic partition s o.torn) := by
    have hfits := ho.fits
    rw [hnext] at hfits
    rw [newRecord, hnext]
    exact hb.loggable hn ho.safe hfits
  have htear : ∃ t : Tear, t.files = write s.settings.segmentMaxBytes
      (newLine topic partition s o.torn).length ((newLine topic partition s o.torn).take o.cut)
        (written L.segments) ∧ t.old = L.entries ∧ t.lost = newRecord topic partition s o.torn ∧
      t.part = (newLine topic partition s o.torn).take o.cut :=
    exists_tear hL.stored.loggable hlost hnext s.settings.segmentMaxBytes ho.cut
  obtain ⟨t, hfiles, hold, htlost, hpart⟩ := htear
  have hids : ∀ k ∈ (written L.segments).map Prod.fst, k ≤ n := by
    rw [written_ids]
    exact hb.ids
  have hensured := shows_of_holds (holds_ensurePartitionState (tearing o.torn.env o.cut) hL)
    (get2_setState ..)
  obtain ⟨hcrashed, hlocal⟩ := append_torn ho.opens o.cut (ht.key hp) hensured
    (fun k hk => by have := hids k hk; omega)
  rw [← hfiles] at hcrashed
  refine ⟨t, hcrashed.onDisk, hsound.named.keep (ht.key hp) hlocal, ?_, htlost, hpart, ?_, ?_⟩
  · rw [hL.messages, hold]
  · rw [hfiles]
    exact write_ids hids _ _ _
  · rw [htlost]
    exact hnext.trans_le hb.next

/-- What the two restarts and the appends between them do. -/
theorem recovered_spec {t : Tear} (h : Crash o topic partition s n t) (ht : Plain topic)
    (hp : Natural partition) (ho : o.Regular topic partition s)
    (hn : n + o.later.length + 1 < 2 ^ 63) :
    let restarted := o.restarted topic partition s
    let rs := newRecords topic partition restarted o.later
    messagesOf (o.recovered topic partition s) topic partition =
        (records (writeAll o.settings.segmentMaxBytes rs t.files)).map toMessage ∧
      Starting t.resumed rs ∧
      ∀ a, Outage.NoRoom topic partition restarted a ↔
        o.settings.segmentMaxBytes < t.text.length + (newLine topic partition restarted a).length
        := by
  intro restarted rs
  have hkey := ht.key hp
  obtain ⟨hrestarted, hnamed, hsettings⟩ := shows_newStorage o.settings ho.restarts h.named.names
    hkey ht.no_slash h.onDisk t.files_ne_nil ho.spares
  have hresumed : 0 ≤ t.resumed ∧ t.resumed ≤ (n + 1 : ℕ) := by
    have hle := t.resumed_le
    have hnext := h.next
    exact ⟨t.resumed_nonneg, by push_cast; omega⟩
  obtain ⟨hrun, hnamed', hnew⟩ := shows_run hnamed hkey hrestarted hresumed h.ids ho.later
    (by omega)
  obtain ⟨hrecovered, -, -⟩ := shows_newStorage o.settings' ho.restarts' hnamed'.names hkey
    ht.no_slash hrun.onDisk (t.writeAll_ne_nil _ _) ho.spares'
  rw [hsettings] at hrecovered
  refine ⟨hrecovered.messages, hnew, fun a => ?_⟩
  rw [← hsettings]
  exact noRoom_iff hrestarted a

/-- The torn line and the first line after it, in terms of the calls. -/
theorem unglued_iff {t : Tear} (h : Crash o topic partition s n t)
    (ho : o.Regular topic partition s)
    (hroom : ∀ a, Outage.NoRoom topic partition (o.restarted topic partition s) a ↔
      o.settings.segmentMaxBytes <
        t.text.length + (newLine topic partition (o.restarted topic partition s) a).length) :
    (t.part = [] ∨
      ∀ r ∈ (newRecords topic partition (o.restarted topic partition s) o.later).head?,
        o.settings.segmentMaxBytes < t.text.length + (formatLine r).length ∨
          (t.part = [48] ∧ t.lost.offset = 0 ∧ (formatLine r).length < maxScanTokenSize)) ↔
      o.Unglued topic partition s := by
  have hnone : t.part = [] ↔ o.cut = 0 := by
    have hcut := ho.cut
    rw [h.part, List.take_eq_nil_iff, ← List.length_eq_zero_iff]
    omega
  have hzero : t.part = [48] ∧ t.lost.offset = 0 ↔
      o.cut = 1 ∧ nextOffsetOf s topic partition = 0 := by
    rw [h.lost, h.part]
    exact and_congr_left (fun hoffset => take_eq_zero_iff hoffset ho.cut)
  rw [Outage.Unglued, hnone]
  refine or_congr_right ?_
  cases hlater : o.later with
  | nil => exact iff_of_true (by simp [newRecords, outputs]) (by simp)
  | cons a rest =>
    simp only [newRecords_cons, List.head?_cons, Option.mem_some_iff, forall_eq', ← and_assoc,
      hroom a, hzero]
    rfl

end Outages

/-- After a crash within the segment write of an append, a restart, any appends to the
partition and another restart, every record is back exactly if no line was glued to the
torn one. -/
theorem torn_tail_recovers_iff {env : Env} (hok : Succeeds env) (settings : Settings)
    {calls : List Call} (hvalid : Valid step Admissible (newStorage env settings FMap.empty) calls)
    {topic : Str} {partition : Int} (ht : Plain topic) (hp : Natural partition) (o : Outage)
    (ho : o.Regular topic partition (reached env settings calls))
    (hlength : calls.length + o.later.length + 1 < 2 ^ 63) :
    o.Recovers topic partition (reached env settings calls) ↔
      o.Unglued topic partition (reached env settings calls) := by
  have hsound := sound_reached hok settings hvalid (by omega)
  rw [Nat.zero_add] at hsound
  obtain ⟨t, ht'⟩ := exists_crash hsound (by omega) ht hp ho
  obtain ⟨hmessages, hstarting, hroom⟩ := recovered_spec ht' ht hp ho hlength
  rw [← unglued_iff ht' ho hroom, ← t.kept_iff o.settings.segmentMaxBytes hstarting,
    Outage.Recovers, hmessages, ht'.old, ← List.map_append, List.forall_mem_map]
  rfl

section Mishap

def oneRecord : List Call := [.produce (calm 1) (lit "orders") 0 (lit "a")]

def afterOne : Storage := reached (calm 0) defaultSettings oneRecord

def mishap (settings : Settings) : Outage where
  torn := ⟨false, calm 2, lit "b"⟩
  cut := 3
  restart := calm 3
  settings := settings
  later := [⟨false, calm 4, lit "c"⟩]
  restart' := calm 5
  settings' := settings

theorem oneRecord_valid : Valid step Admissible
    (newStorage (calm 0) defaultSettings FMap.empty) oneRecord := by
  refine ⟨⟨calm_succeeds 1, orders_plain, zero_natural, ⟨by decide, by decide⟩, ?_⟩, trivial⟩
  unfold Fits
  decide +kernel

def segmentSizes : List Settings :=
  [defaultSettings,
    { defaultSettings with segmentMaxBytes := 20 }]

theorem mishap_spared : ∀ settings ∈ segmentSizes,
    let restarted := (mishap settings).restarted (lit "orders") 0 afterOne
    let size := (newLine (lit "orders") 0 restarted ⟨false, calm 4, lit "c"⟩).length
    Sparing (calm 3) settings ((mishap settings).crashed (lit "orders") 0 afterOne).disk
        (lit "orders") 0 0 ∧
      size ≤ maxScanTokenSize ∧
      Sparing (calm 4) restarted.settings restarted.disk (lit "orders") 0 size ∧
      (0 < restarted.settings.retentionMaxAge → 4 - restarted.settings.retentionMaxAge < 4) ∧
      Sparing (calm 5) settings ((mishap settings).resumed (lit "orders") 0 afterOne).disk
        (lit "orders") 0 0 := by
  decide +kernel

theorem mishap_regular {settings : Settings} (h : settings ∈ segmentSizes) :
    (mishap settings).Regular (lit "orders") 0 afterOne := by
  obtain ⟨hcrashed, hfits, hsparing, hfresh, hresumed⟩ := mishap_spared settings h
  have hsafe : LineSafe (lit "b") := ⟨by decide, by decide⟩
  refine ⟨calm_succeeds 2, hsafe, ?_, ?_, calm_succeeds 3, hcrashed,
    ⟨⟨calm_succeeds 4, ⟨by decide, by decide⟩, hfits, hsparing, hfresh⟩, trivial⟩,
    calm_succeeds 5, hresumed⟩
  · change (newLine (lit "orders") 0 afterOne ⟨false, calm 2, lit "b"⟩).length ≤ maxScanTokenSize
    decide +kernel
  · change 3 < (newLine (lit "orders") 0 afterOne ⟨false, calm 2, lit "b"⟩).length
    decide +kernel

/-- The third record is glued to the torn line and is gone after the second restart. -/
theorem torn_tail_loses :
    Valid step Admissible (newStorage (calm 0) defaultSettings FMap.empty)
        oneRecord ∧
      (mishap defaultSettings).Regular (lit "orders") 0 afterOne ∧
      ¬ (mishap defaultSettings).Recovers (lit "orders") 0 afterOne := by
  refine ⟨oneRecord_valid, mishap_regular (List.mem_cons_self ..), ?_⟩
  unfold Outage.Recovers
  decide +kernel

/-- With small segments the third record starts a new one, and nothing is lost. -/
theorem torn_tail_recovers_small :
    (mishap { defaultSettings with segmentMaxBytes := 20 }).Recovers
      (lit "orders") 0 afterOne := by
  refine (torn_tail_recovers_iff (calm_succeeds 0) defaultSettings
    oneRecord_valid orders_plain zero_natural _
    (mishap_regular (List.mem_cons_of_mem _ (List.mem_cons_self ..))) (by decide)).mpr ?_
  refine .inr (fun a ha => .inl ?_)
  obtain rfl := Option.some.inj ha
  unfold Outage.NoRoom
  decide +kernel

end Mishap

end Flux.TornRecovery
