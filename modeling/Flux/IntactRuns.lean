import Flux.SegmentAppends
import Flux.StorageRuns

/-!
Runs in which calls may fail, but none stores a part of a line. In every state the
memory of a partition mirrors its files, so a restart reads what the memory holds.
-/
namespace Flux.IntactRuns

open GoRuntime GoStrings LogLines SegmentNames FiniteMap PartitionStorage SegmentedLogs Runs
open StorageFrames StorageAppends StorageRecovery StorageCalls
open StorageRuns SegmentFiles SegmentRuns TornTails SegmentMirrors SegmentAppends

variable {env : Env} {value : Str} {segments' : Segments}

/-- Calls that may fail without storing a byte, and restarts that do not fail. -/
def Cautious (s : Storage) : Call → Prop
  | .produce env topic partition value =>
      Harmless env ∧ Plain topic ∧ Natural partition ∧ LineSafe value ∧
        Fits env (nextOffsetOf s topic partition) value
  | .replicate env topic partition offset value =>
      Harmless env ∧ Plain topic ∧ Natural partition ∧ LineSafe value ∧
        (offset = nextOffsetOf s topic partition → Fits env offset value)
  | .retain _ => True
  | .restart env _ => Succeeds env

structure Tidy (n : ℕ) (topic : Str) (partition : Int) (segments : Segments) (s : Storage) :
    Prop where
  mirrors : Mirrors s topic partition segments
  below : Below n topic partition s
  offsets : ∀ r ∈ entries segments, r.offset < n

structure Intact (n : ℕ) (s : Storage) : Prop where
  named : WellNamed s
  tidy : ∀ t p, Plain t → Natural p → ∃ segments, Tidy n t p segments s

section Bounds

variable {n : ℕ} {s s' : Storage} {topic : Str} {partition : Int} {segments : Segments}

theorem advance_le {entries : List Record} {start m : Int} (hstart : start ≤ m)
    (h : ∀ r ∈ entries, r.offset < m) : advance Record.offset start entries ≤ m := by
  induction entries generalizing start with
  | nil => exact hstart
  | cons r rest ih =>
    have hr := h r (List.mem_cons_self ..)
    refine ih ?_ (fun x hx => h x (List.mem_cons_of_mem _ hx))
    dsimp only
    split
    · omega
    · exact hstart

section Tidy

variable (h : Tidy n topic partition segments s)

include h

theorem Tidy.next_le : 0 ≤ nextOffsetOf s topic partition ∧ nextOffsetOf s topic partition ≤ n := by
  rw [nextOffsetOf_mirrors h.mirrors]
  exact ⟨le_advance .., advance_le (by omega) h.offsets⟩

theorem Tidy.loggable (hn : n + 1 < 2 ^ 63) (hsafe : LineSafe value)
    (hfits : Fits env (nextOffsetOf s topic partition) value) :
    Loggable ⟨nextOffsetOf s topic partition, unixMilli env.stamp, value⟩ where
  offset_range := by
    obtain ⟨hlow, hhigh⟩ := h.next_le
    unfold InInt64
    dsimp only
    omega
  timestamp_range := unixMilli_inInt64 env.stamp
  no_newline := hsafe.no_newline
  no_return := hsafe.no_return
  fits := hfits

theorem Tidy.loggable_at (hn : n + 1 < 2 ^ 63) {offset : Int} (hsafe : LineSafe value)
    (hfits : offset = nextOffsetOf s topic partition → Fits env offset value)
    (heq : offset = nextOffsetOf s topic partition) :
    Loggable ⟨offset, unixMilli env.stamp, value⟩ := by
  have hfit := hfits heq
  rw [heq] at hfit ⊢
  exact h.loggable hn hsafe hfit

theorem Tidy.mono {m : ℕ} (hm : n ≤ m) (hmirrors : Mirrors s' topic partition segments')
    (hbelow : Below m topic partition s')
    (hentries : ∀ r ∈ entries segments', r ∈ entries segments) :
    Tidy m topic partition segments' s' where
  mirrors := hmirrors
  below := hbelow
  offsets r hr := by
    have hlt := h.offsets r (hentries r hr)
    omega

theorem Tidy.stays (hstays : Stays topic partition segments s s') :
    ∃ segments', Tidy (n + 1) topic partition segments' s' ∧
      entries segments' = entries segments := by
  obtain ⟨segments', hmirrors, hentries⟩ := hstays.mirrors
  refine ⟨segments', h.mono (by omega) hmirrors (hstays.climbs n h.below) (fun r hr => ?_),
    hentries⟩
  rwa [hentries] at hr

theorem Tidy.gains {r : Record} (hr : r.offset = nextOffsetOf s topic partition)
    (hgains : Gains topic partition segments r s s') :
    ∃ segments' k, Tidy (n + 1) topic partition segments' s' ∧
      activeOf s' topic partition = some k ∧ Put k [r] segments segments' ∧
      (Fit s.settings.segmentMaxBytes segments → Fit s.settings.segmentMaxBytes segments') := by
  obtain ⟨segments', k, hmirrors, hactive, hput, hfit⟩ := hgains.mirrors
  refine ⟨segments', k, ⟨hmirrors, hgains.climbs n h.below, fun x hx => ?_⟩, hactive, hput, hfit⟩
  rw [hput.entries] at hx
  rcases List.mem_append.mp hx with hold | hnew
  · have hlt := h.offsets x hold
    push_cast
    omega
  · have hle := h.next_le.2
    rw [List.mem_singleton.mp hnew, hr]
    push_cast
    omega

end Tidy

theorem Tidy.retained (env : Env) (h : Tidy n topic partition segments s) (hnamed : WellNamed s)
    (hkey : PartitionKey topic partition) :
    ∃ segments', Tidy n topic partition segments' (enforceRetentionLocked env s) ∧
      Dropped (activeOf s topic partition) segments segments' := by
  obtain ⟨segments', hmirrors, hactive, hdropped⟩ :=
    retains_enforceRetention env hnamed hkey h.mirrors
  refine ⟨segments', h.mono (Nat.le_refl n) hmirrors ?_ ?_, hdropped⟩
  · intro k hk
    exact h.below k (hactive ▸ hk)
  · exact fun r hr => (entries_suffix hdropped.suffix).subset hr

end Bounds

section Restarts

variable {env : Env} {disk : Disk} {topic : Str} {partition : Int} {segments : Segments}

/-- A restart makes the memory mirror the files. -/
theorem mirrors_loaded (settings : Settings) (hok : Succeeds env)
    (hnames : ∀ name, (disk.get name).isSome → KnownName name)
    (hkey : PartitionKey topic partition) (hslash : (47 : UInt8) ∉ topic)
    (hdisk : OnDisk disk topic partition (written segments))
    (hlog : ∀ r ∈ entries segments, Loggable r)
    (hascending : (entries segments).Pairwise (fun a b => a.offset < b.offset)) :
    Mirrors (loaded env settings disk) topic partition segments ∧
      activeOf (loaded env settings disk) topic partition =
        (segments.map Prod.fst).getLast? := by
  by_cases hnil : segments = []
  · subst hnil
    have hload := foldl_loadEntry env topic partition _ (sortedEntries_shape env hnames)
      ⟨settings, FMap.empty, FMap.empty, disk⟩
    rw [idsOf_eq env hnames hkey hslash hdisk.ascending hdisk.natural
      (fun k hk => hdisk.exists_iff hk)] at hload
    have hstate : get2 (loaded env settings disk).partitionState topic partition = none := by
      rw [loaded, loadData_eq hok, hload.2]
      rfl
    have hframe : ∀ k, (loaded env settings disk).disk.get (segmentName topic partition k) =
        disk.get (segmentName topic partition k) := by
      intro k
      rw [loaded, loadData_eq hok]
      exact foldl_loadEntry_disk env _ _ _ (segmentName_not_isIndex topic partition k)
    refine ⟨⟨hdisk.congr hframe, hlog, hascending, ?_, fun _ => rfl, fun st hst => ?_⟩, ?_⟩
    · rw [loaded, loadData_eq hok, hload.1]
      rfl
    · rw [hstate] at hst
      contradiction
    · rw [activeOf, hstate]
      rfl
  · have hne : written segments ≠ [] := by simpa [written] using hnil
    have hshows := shows_loadData settings hok hnames hkey hslash hdisk hne
    rw [records_written hlog] at hshows
    obtain ⟨st, hst, hlisted, hnext⟩ := hshows.state
    have hids : st.segments = segments.map Prod.fst ∨ st.segments = 0 :: segments.map Prod.fst := by
      rw [← map_fst_written]
      exact hlisted.segments
    have hnonempty : segments.map Prod.fst ≠ [] := by simpa using hnil
    have hspans : Spans st segments := by
      refine ⟨?_, hlisted.ascending, fun k hk => ?_, hlisted.active⟩
      · rcases hids with heq | heq
        · rw [heq]
        · rw [heq]
          exact List.sublist_cons_self ..
      · have hmem : k = 0 ∨ k ∈ segments.map Prod.fst := by
          rcases hids with heq | heq
          · exact .inr (heq ▸ hk)
          · exact List.mem_cons.mp (heq ▸ hk)
        rcases hmem with rfl | hfile
        · exact ⟨Int.le_refl 0, by decide⟩
        · exact hdisk.natural k (by rwa [map_fst_written])
    refine ⟨⟨hshows.onDisk, hlog, hascending, hshows.messages, fun hnone => ?_,
      fun st' hst' => ?_⟩, ?_⟩
    · rw [loaded, hst] at hnone
      contradiction
    · obtain rfl := Option.some.inj (hst.symm.trans hst')
      exact ⟨hspans, hnext⟩
    · rw [loaded, activeOf_eq hst, ← hlisted.active]
      rcases hids with heq | heq
      · rw [heq]
      · obtain ⟨first, rest, hcons⟩ := List.exists_cons_of_ne_nil hnonempty
        rw [heq, hcons, List.getLast?_cons_cons]

/-- The memory of a partition is what a restart would read. -/
theorem messagesOf_loaded (settings : Settings) {s : Storage} (hok : Succeeds env)
    (hnamed : WellNamed s) (hkey : PartitionKey topic partition) (hslash : (47 : UInt8) ∉ topic)
    (h : Mirrors s topic partition segments) :
    messagesOf (loaded env settings s.disk) topic partition = messagesOf s topic partition := by
  rw [(mirrors_loaded settings hok hnamed.names hkey hslash h.onDisk h.loggable
    h.ascending).1.messages, h.messages]

end Restarts

section Steps

variable {n : ℕ} {s : Storage}

theorem Intact.retained (env : Env) (h : Intact n s) :
    Intact n (enforceRetentionLocked env s) where
  named := wellNamed_enforceRetention env h.named
  tidy t p ht hp := by
    obtain ⟨segments, htidy⟩ := h.tidy t p ht hp
    obtain ⟨segments', htidy', -⟩ := htidy.retained env h.named (ht.key hp)
    exact ⟨segments', htidy'⟩

theorem Intact.weaken (h : Intact n s) : Intact (n + 1) s where
  named := h.named
  tidy t p ht hp := by
    obtain ⟨segments, htidy⟩ := h.tidy t p ht hp
    refine ⟨segments, htidy.mono (by omega) htidy.mirrors (fun k hk => ?_) (fun _ hr => hr)⟩
    have hle := htidy.below k hk
    push_cast
    omega

/-- A change of one partition keeps the others. -/
theorem Intact.change {s' : Storage} {topic : Str} {partition : Int} (h : Intact n s)
    (htopic : Plain topic) (hpartition : Natural partition)
    (hlocal : Local topic partition (Writes topic partition) s s')
    (hown : Tidy (n + 1) topic partition segments' s') : Intact (n + 1) s' where
  named := h.named.keep (htopic.key hpartition) hlocal
  tidy t p ht hp := by
    by_cases hkey : (t, p) = (topic, partition)
    · obtain ⟨rfl, rfl⟩ := Prod.mk.inj hkey
      exact ⟨segments', hown⟩
    · obtain ⟨segments, htidy⟩ := h.weaken.tidy t p ht hp
      obtain ⟨hmirrors, hactive⟩ := htidy.mirrors.frame hlocal hkey
        (not_writes ht hp (htopic.key hpartition) hkey)
      refine ⟨segments, htidy.mono (Nat.le_refl _) hmirrors (fun k hk => ?_) (fun _ hr => hr)⟩
      exact htidy.below k (hactive ▸ hk)

/-- A restart leaves the storage intact. -/
theorem intact_loaded (hok : Succeeds env) (settings : Settings) (h : Intact n s) :
    Intact n (loaded env settings s.disk) where
  named := wellNamed_loadData settings hok h.named.names
  tidy t p ht hp := by
    obtain ⟨segments, htidy⟩ := h.tidy t p ht hp
    have hmirrors := htidy.mirrors
    obtain ⟨hloaded, hactive⟩ := mirrors_loaded settings hok h.named.names (ht.key hp) ht.no_slash
      hmirrors.onDisk hmirrors.loggable hmirrors.ascending
    refine ⟨segments, htidy.mono (Nat.le_refl n) hloaded (fun k hk => ?_) (fun _ hr => hr)⟩
    have hfile : k ∈ segments.map Prod.fst := List.mem_of_getLast? (hactive.symm.trans hk)
    cases hst : get2 s.partitionState t p with
    | none =>
      rw [hmirrors.untracked hst] at hfile
      exact absurd hfile List.not_mem_nil
    | some st =>
      obtain ⟨hspans, -⟩ := hmirrors.tracked st hst
      have hle := hspans.le_active (hspans.listed.subset hfile)
      have hbelow := htidy.below _ (activeOf_eq hst)
      omega

/-- Every cautious call leaves the storage intact. -/
theorem intact_step (n : ℕ) (s : Storage) (c : Call) (hn : n + 1 < 2 ^ 63) (h : Intact n s)
    (hc : Cautious s c) : Intact (n + 1) (step s c) := by
  cases c with
  | produce env topic partition value =>
    obtain ⟨hharm, ht, hp, hsafe, hfits⟩ := hc
    obtain ⟨segments, htidy⟩ := h.tidy topic partition ht hp
    rcases produce_outcome hharm (ht.key hp) htidy.mirrors htidy.below hn
      (htidy.loggable hn hsafe hfits) with ⟨-, hstays⟩ | ⟨s', hcall, hgains⟩
    · obtain ⟨segments', htidy', -⟩ := htidy.stays hstays
      exact h.change ht hp hstays.within htidy'
    · obtain ⟨segments', k, htidy', -, -, -⟩ := htidy.gains rfl hgains
      rw [step, hcall]
      exact (h.change ht hp hgains.within htidy').retained env
  | replicate env topic partition offset value =>
    obtain ⟨hharm, ht, hp, hsafe, hfits⟩ := hc
    obtain ⟨segments, htidy⟩ := h.tidy topic partition ht hp
    rcases replicate_outcome hharm (ht.key hp) htidy.mirrors htidy.below hn
      (htidy.loggable_at hn hsafe hfits) with ⟨hstays, -⟩ | ⟨heq, -, s', hcall, hgains⟩
    · obtain ⟨segments', htidy', -⟩ := htidy.stays hstays
      exact h.change ht hp hstays.within htidy'
    · obtain ⟨segments', k, htidy', -, -, -⟩ := htidy.gains heq hgains
      rw [step, hcall]
      exact (h.change ht hp hgains.within htidy').retained env
  | retain env => exact (h.retained env).weaken
  | restart env settings => exact ((intact_loaded hc settings h).retained env).weaken

theorem wellNamed_blank (settings : Settings) :
    WellNamed ⟨settings, FMap.empty, FMap.empty, FMap.empty⟩ :=
  ⟨fun name hname => by simp at hname, fun t p hstate => by simp at hstate⟩

theorem tidy_blank (settings : Settings) (t : Str) (p : Int) :
    Tidy 0 t p [] ⟨settings, FMap.empty, FMap.empty, FMap.empty⟩ where
  mirrors := ⟨⟨fun k hk => absurd hk List.not_mem_nil, List.Pairwise.nil, fun k _ => rfl⟩,
    fun r hr => absurd hr List.not_mem_nil, List.Pairwise.nil, by simp [messagesOf, entries],
    fun _ => rfl, fun st hst => by simp at hst⟩
  below k hk := by simp [activeOf] at hk
  offsets r hr := absurd hr List.not_mem_nil

theorem intact_empty (hok : Succeeds env) (settings : Settings) :
    Intact 0 (newStorage env settings FMap.empty) :=
  (intact_loaded hok settings (s := ⟨settings, FMap.empty, FMap.empty, FMap.empty⟩)
    ⟨wellNamed_blank settings, fun t p _ _ => ⟨[], tidy_blank settings t p⟩⟩).retained env

theorem intact_reached (hok : Succeeds env) (settings : Settings) {calls : List Call}
    (hvalid : Valid step Cautious (newStorage env settings FMap.empty) calls)
    (hlength : calls.length < 2 ^ 63) : Intact (0 + calls.length) (reached env settings calls) :=
  run_counted intact_step (intact_empty hok settings) hvalid (by omega)

end Steps

end Flux.IntactRuns
