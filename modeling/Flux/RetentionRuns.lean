import Flux.RetentionBounds

/-!
Runs under fixed limits. Every call puts its record at the end of the last segment, or
of a new one, and retention then takes segments from the front. So after every call the
files keep the bounds, and the partition holds the end of its log, the newest record
with it.
-/
namespace Flux.RetentionRuns

open GoRuntime GoStrings LogLines FiniteMap BrokerConfig PartitionStorage Runs StorageFrames
open StorageReplay StorageAppends StorageRecovery StorageCalls StorageRuns SegmentRuns
open SegmentMirrors SegmentAppends IntactRuns IndexHistories RetentionBounds

structure Limited (limits settings : Settings) : Prop where
  segment : settings.segmentMaxBytes = limits.segmentMaxBytes
  retention : settings.retentionMaxBytes = limits.retentionMaxBytes

def Fixed (limits : Settings) : Call → Prop
  | .restart _ settings => Limited limits settings
  | _ => True

def Allowed (limits : Settings) (s : Storage) (c : Call) : Prop := Admissible s c ∧ Fixed limits c

def appended (t : Str) (p : Int) (s : Storage) (c : Call) : List Record :=
  (recorded t p s c).map Prod.snd

section Appended

variable {s : Storage} {env : Env} {topic : Str} {partition offset : Int} {value : Str}

theorem appended_produce (t : Str) (p : Int) :
    appended t p s (.produce env topic partition value) =
      if topic = t ∧ partition = p then
        [⟨nextOffsetOf s topic partition, unixMilli env.stamp, value⟩] else [] := by
  simp only [appended, recorded]
  split
  · rename_i hown
    obtain ⟨rfl, rfl⟩ := hown
    rfl
  · rfl

theorem appended_next (h : offset = nextOffsetOf s topic partition) (t : Str) (p : Int) :
    appended t p s (.replicate env topic partition offset value) =
      if topic = t ∧ partition = p then [⟨offset, unixMilli env.stamp, value⟩] else [] := by
  by_cases hown : topic = t ∧ partition = p
  · obtain ⟨rfl, rfl⟩ := hown
    simp [appended, recorded, entryOf, newRecord, h]
  · simp [appended, recorded, ← and_assoc, hown]

theorem appended_skipped (h : offset ≠ nextOffsetOf s topic partition) (t : Str) (p : Int) :
    appended t p s (.replicate env topic partition offset value) = [] := by
  simp only [appended, recorded]
  rw [if_neg]
  · rfl
  · rintro ⟨rfl, rfl, heq⟩
    exact h heq

end Appended

def Grown (segments : Segments) (new : List Record) (grown : Segments) : Prop :=
  (new = [] ∧ grown = segments) ∨ ∃ k r, new = [r] ∧ Put k [r] segments grown

/-- After a new record stands at the end, segments are taken from the front. -/
def Follows (segments : Segments) (new : List Record) (segments' : Segments) : Prop :=
  ∃ grown, Grown segments new grown ∧ segments' <:+ grown ∧
    segments'.getLast? = grown.getLast?

/-- No file is too long, and the last one is the active segment and has a record. -/
structure Held (limits : Settings) (n : ℕ) (t : Str) (p : Int) (segments : Segments)
    (s : Storage) : Prop where
  tidy : Tidy n t p segments s
  fit : Fit limits.segmentMaxBytes segments
  topped : ∀ g, segments.getLast? = some g → g.2 ≠ [] ∧ activeOf s t p = some g.1

section Lists

variable {segments segments' grown : Segments} {new : List Record}

theorem Grown.entries (h : Grown segments new grown) :
    entries grown = entries segments ++ new := by
  rcases h with ⟨rfl, rfl⟩ | ⟨k, r, rfl, hput⟩
  · exact (List.append_nil _).symm
  · exact hput.entries

theorem Put.getLast {k : Int} {rs : List Record} (h : Put k rs segments grown) :
    ∃ old, grown.getLast? = some (k, old ++ rs) := by
  rcases h with ⟨front, old, -, rfl⟩ | ⟨-, rfl⟩
  · exact ⟨old, List.getLast?_concat⟩
  · exact ⟨[], List.getLast?_concat⟩

/-- Taking segments from the front, but not the last one, keeps the newest record. -/
theorem entries_getLast (hrecord : ∀ g, segments'.getLast? = some g → g.2 ≠ [])
    (hsuffix : segments' <:+ grown) (hlast : segments'.getLast? = grown.getLast?) :
    (entries segments').getLast? = (entries grown).getLast? := by
  obtain ⟨front, rfl⟩ := hsuffix
  rcases List.eq_nil_or_concat segments' with rfl | ⟨others, g, rfl⟩
  · rw [List.append_nil] at hlast ⊢
    rw [List.getLast?_eq_none_iff.mp hlast.symm]
  · rw [List.concat_eq_append] at hrecord ⊢
    have hg := hrecord g List.getLast?_concat
    rw [← List.append_assoc, entries_concat _ g.1 g.2, entries_concat _ g.1 g.2,
      List.getLast?_append_of_ne_nil _ hg, List.getLast?_append_of_ne_nil _ hg]

end Lists

section Holding

variable {limits : Settings} {n m : ℕ} {s s' : Storage} {t : Str} {p : Int}
  {segments segments' : Segments}

theorem Held.frame (h : Held limits n t p segments s) (hm : n ≤ m)
    (hmirrors : Mirrors s' t p segments) (hactive : activeOf s' t p = activeOf s t p) :
    Held limits m t p segments s' where
  tidy := by
    refine h.tidy.mono hm hmirrors (fun k hk => ?_) (fun _ hr => hr)
    have hle := h.tidy.below k (hactive ▸ hk)
    omega
  fit := h.fit
  topped g hg := by
    rw [hactive]
    exact h.topped g hg

/-- Retention keeps the last segment. -/
theorem Held.getLast (h : Held limits n t p segments s)
    (hdropped : Dropped (activeOf s t p) segments segments') :
    segments'.getLast? = segments.getLast? := by
  cases hlast : segments.getLast? with
  | none =>
    have hnil := List.getLast?_eq_none_iff.mp hlast
    have hempty : segments' = [] := List.suffix_nil.mp (hnil ▸ hdropped.suffix)
    rw [hempty]
    rfl
  | some g =>
    have hkept := hdropped.kept g (List.mem_of_getLast? hlast) (h.topped g hlast).2
    obtain ⟨front, rfl⟩ := hdropped.suffix
    rw [List.getLast?_append_of_ne_nil _ (List.ne_nil_of_mem hkept)] at hlast
    exact hlast

theorem Held.dropped (h : Held limits n t p segments s)
    (hmirrors : Mirrors s' t p segments') (hactive : activeOf s' t p = activeOf s t p)
    (hdropped : Dropped (activeOf s t p) segments segments') :
    Held limits n t p segments' s' where
  tidy := by
    refine h.tidy.mono (Nat.le_refl n) hmirrors (fun k hk => h.tidy.below k (hactive ▸ hk)) ?_
    exact fun r hr => (entries_suffix hdropped.suffix).subset hr
  fit g hg := h.fit g (hdropped.suffix.subset hg)
  topped g hg := by
    rw [hactive]
    exact h.topped g (h.getLast hdropped ▸ hg)

end Holding

/-- Every partition keeps the bounds. -/
structure Steady (limits : Settings) (n : ℕ) (s : Storage) : Prop where
  named : WellNamed s
  limited : Limited limits s.settings
  held : ∀ t p, Plain t → Natural p → ∃ segments, Held limits n t p segments s ∧
    Within limits.retentionMaxBytes segments

structure Ready (limits : Settings) (n : ℕ) (new : Str → Int → List Record) (s s' : Storage) :
    Prop where
  named : WellNamed s'
  limited : Limited limits s'.settings
  held : ∀ t p, Plain t → Natural p → ∃ segments grown, Mirrors s t p segments ∧
    Grown segments (new t p) grown ∧ Held limits n t p grown s'

structure Advances (limits : Settings) (n : ℕ) (new : Str → Int → List Record)
    (s s' : Storage) : Prop where
  named : WellNamed s'
  limited : Limited limits s'.settings
  held : ∀ t p, Plain t → Natural p → ∃ segments segments', Mirrors s t p segments ∧
    Follows segments (new t p) segments' ∧ Held limits n t p segments' s' ∧
    Within limits.retentionMaxBytes segments'

section Steps

variable {limits : Settings} {n : ℕ} {s s' : Storage} {new : Str → Int → List Record}

theorem Advances.steady (h : Advances limits n new s s') : Steady limits n s' where
  named := h.named
  limited := h.limited
  held t p ht hp := by
    obtain ⟨-, segments', -, -, hheld, hwithin⟩ := h.held t p ht hp
    exact ⟨segments', hheld, hwithin⟩

theorem Advances.weaken (h : Advances limits n new s s') :
    Advances limits (n + 1) new s s' where
  named := h.named
  limited := h.limited
  held t p ht hp := by
    obtain ⟨segments, segments', hmirrors, hfollows, hheld, hwithin⟩ := h.held t p ht hp
    exact ⟨segments, segments', hmirrors, hfollows,
      hheld.frame (Nat.le_succ n) hheld.tidy.mirrors rfl, hwithin⟩

theorem Ready.retained (env : Env) (hlimit : 0 < limits.retentionMaxBytes)
    (h : Ready limits n new s s') : Advances limits n new s (enforceRetentionLocked env s') where
  named := wellNamed_enforceRetention env h.named
  limited := by
    rw [enforceRetention_settings]
    exact h.limited
  held t p ht hp := by
    obtain ⟨segments, grown, hmirrors, hgrown, hheld⟩ := h.held t p ht hp
    obtain ⟨segments', hmirrors', hactive, hdropped, hwithin⟩ := enforceRetention_within env
      h.named (ht.key hp) (h.limited.retention ▸ hlimit) hheld.tidy.mirrors
    rw [h.limited.retention] at hwithin
    exact ⟨segments, segments', hmirrors, ⟨grown, hgrown, hdropped.suffix, hheld.getLast hdropped⟩,
      hheld.dropped hmirrors' hactive hdropped, hwithin⟩

/-- A record is appended to one partition. -/
theorem Steady.gains {topic : Str} {partition : Int} {segments : Segments} {r : Record}
    (h : Steady limits n s) (htopic : Plain topic) (hpartition : Natural partition)
    (hheld : Held limits n topic partition segments s)
    (hr : r.offset = nextOffsetOf s topic partition)
    (hgains : Gains topic partition segments r s s') :
    Ready limits (n + 1) (fun t p => if topic = t ∧ partition = p then [r] else []) s s' where
  named := h.named.keep (htopic.key hpartition) hgains.within
  limited := by
    rw [hgains.within.settings]
    exact h.limited
  held t p ht hp := by
    by_cases hown : topic = t ∧ partition = p
    · obtain ⟨rfl, rfl⟩ := hown
      obtain ⟨grown, k, htidy, hactive, hput, hfit⟩ := hheld.tidy.gains hr hgains
      obtain ⟨old, hlast⟩ := Put.getLast hput
      rw [h.limited.segment] at hfit
      refine ⟨segments, grown, hheld.tidy.mirrors, .inr ⟨k, r, if_pos ⟨rfl, rfl⟩, hput⟩, htidy,
        hfit hheld.fit, fun g hg => ?_⟩
      obtain rfl := Option.some.inj (hlast.symm.trans hg)
      exact ⟨by simp, hactive⟩
    · have hne : (t, p) ≠ (topic, partition) := by
        intro heq
        obtain ⟨rfl, rfl⟩ := Prod.mk.inj heq
        exact hown ⟨rfl, rfl⟩
      obtain ⟨others, hothers, -⟩ := h.held t p ht hp
      obtain ⟨hmirrors, hactive⟩ := hothers.tidy.mirrors.frame hgains.within hne
        (not_writes ht hp (htopic.key hpartition) hne)
      exact ⟨others, others, hothers.tidy.mirrors, .inl ⟨if_neg hown, rfl⟩,
        hothers.frame (Nat.le_succ n) hmirrors hactive⟩

/-- A record that is not the next one changes no file. -/
theorem Steady.skipped {topic : Str} {partition : Int} (env : Env) (h : Steady limits n s)
    (htopic : Plain topic) (hpartition : Natural partition) :
    Advances limits n (fun _ _ => []) s (ensurePartitionState env s topic partition) := by
  have hlocal : Local topic partition (Writes topic partition) s
      (ensurePartitionState env s topic partition) := setState_local s _
  refine ⟨h.named.keep (htopic.key hpartition) hlocal, h.limited, fun t p ht hp => ?_⟩
  obtain ⟨segments, hheld, hwithin⟩ := h.held t p ht hp
  refine ⟨segments, segments, hheld.tidy.mirrors,
    ⟨segments, .inl ⟨rfl, rfl⟩, List.suffix_refl _, rfl⟩, ?_, hwithin⟩
  by_cases hown : (t, p) = (topic, partition)
  · obtain ⟨rfl, rfl⟩ := Prod.mk.inj hown
    refine ⟨hheld.tidy.mono (Nat.le_refl n) (mirrors_ensure env hheld.tidy.mirrors)
      (below_ensure env hheld.tidy.below) (fun _ hr => hr), hheld.fit, fun g hg => ?_⟩
    obtain ⟨hrecord, hactive⟩ := hheld.topped g hg
    rw [activeOf_ensure, hactive]
    exact ⟨hrecord, rfl⟩
  · obtain ⟨hmirrors, hactive⟩ := hheld.tidy.mirrors.frame hlocal hown
      (not_writes ht hp (htopic.key hpartition) hown)
    exact hheld.frame (Nat.le_refl n) hmirrors hactive

/-- A restart reads what the files hold. -/
theorem ready_loaded {env : Env} {settings : Settings} (hok : Succeeds env)
    (hlimited : Limited limits settings) (hnamed : WellNamed s)
    (hheld : ∀ t p, Plain t → Natural p → ∃ segments, Held limits n t p segments s) :
    Ready limits n (fun _ _ => []) s (loaded env settings s.disk) where
  named := wellNamed_loadData settings hok hnamed.names
  limited := by
    rw [loaded_settings]
    exact hlimited
  held t p ht hp := by
    obtain ⟨segments, hsegments⟩ := hheld t p ht hp
    have hmirrors := hsegments.tidy.mirrors
    obtain ⟨hloaded, hactive⟩ := mirrors_loaded settings hok hnamed.names (ht.key hp) ht.no_slash
      hmirrors.onDisk hmirrors.loggable hmirrors.ascending
    have hlast : ∀ k, activeOf (loaded env settings s.disk) t p = some k →
        activeOf s t p = some k := by
      intro k hk
      rw [hactive, List.getLast?_map, Option.map_eq_some_iff] at hk
      obtain ⟨g, hg, rfl⟩ := hk
      exact (hsegments.topped g hg).2
    refine ⟨segments, segments, hmirrors, .inl ⟨rfl, rfl⟩, ⟨?_, hsegments.fit, fun g hg => ?_⟩⟩
    · exact hsegments.tidy.mono (Nat.le_refl n) hloaded
        (fun k hk => hsegments.tidy.below k (hlast k hk)) (fun _ hr => hr)
    · refine ⟨(hsegments.topped g hg).1, ?_⟩
      rw [hactive, List.getLast?_map, hg]
      rfl

/-- A call appends its record and drops segments from the front. -/
theorem advances_step (hlimit : 0 < limits.retentionMaxBytes) (hn : n + 1 < 2 ^ 63)
    (h : Steady limits n s) (c : Call) (hc : Allowed limits s c) :
    Advances limits (n + 1) (fun t p => appended t p s c) s (step s c) := by
  obtain ⟨hadm, hfixed⟩ := hc
  cases c with
  | produce env topic partition value =>
    obtain ⟨hok, ht, hp, hsafe, hfits⟩ := hadm
    rw [stateOf_nextOffset] at hfits
    obtain ⟨segments, hheld, -⟩ := h.held topic partition ht hp
    rcases produce_outcome (harmless_of_succeeds hok) (ht.key hp) hheld.tidy.mirrors
      hheld.tidy.below hn (hheld.tidy.loggable hn hsafe hfits) with
      ⟨hfails, -⟩ | ⟨s', hcall, hgains⟩
    · exact absurd hok hfails
    · simp only [appended_produce]
      rw [step, hcall]
      exact (h.gains ht hp hheld rfl hgains).retained env hlimit
  | replicate env topic partition offset value =>
    obtain ⟨hok, ht, hp, hsafe, hfits⟩ := hadm
    rw [stateOf_nextOffset] at hfits
    obtain ⟨segments, hheld, -⟩ := h.held topic partition ht hp
    by_cases hnext : offset = nextOffsetOf s topic partition
    · rcases replicate_outcome (harmless_of_succeeds hok) (ht.key hp) hheld.tidy.mirrors
        hheld.tidy.below hn (hheld.tidy.loggable_at hn hsafe hfits) with
        ⟨-, -, hfails⟩ | ⟨-, -, s', hcall, hgains⟩
      · exact absurd hok (hfails hnext)
      · simp only [appended_next hnext]
        rw [step, hcall]
        exact (h.gains ht hp hheld hnext hgains).retained env hlimit
    · simp only [appended_skipped hnext]
      rw [replicate_skipped env s topic partition offset value hnext]
      exact (h.skipped env ht hp).weaken
  | retain env =>
    refine (Ready.retained env hlimit ⟨h.named, h.limited, fun t p ht hp => ?_⟩).weaken
    obtain ⟨segments, hheld, -⟩ := h.held t p ht hp
    exact ⟨segments, segments, hheld.tidy.mirrors, .inl ⟨rfl, rfl⟩, hheld⟩
  | restart env settings =>
    refine (Ready.retained env hlimit (ready_loaded hadm hfixed h.named ?_)).weaken
    intro t p ht hp
    obtain ⟨segments, hheld, -⟩ := h.held t p ht hp
    exact ⟨segments, hheld⟩

theorem steady_step (hlimit : 0 < limits.retentionMaxBytes) (n : ℕ) (s : Storage) (c : Call)
    (hn : n + 1 < 2 ^ 63) (h : Steady limits n s) (hc : Allowed limits s c) :
    Steady limits (n + 1) (step s c) :=
  (advances_step hlimit hn h c hc).steady

/-- The first start finds an empty data directory. -/
theorem advances_empty {env : Env} (hok : Succeeds env) (hlimit : 0 < limits.retentionMaxBytes) :
    Advances limits 0 (fun _ _ => []) ⟨limits, FMap.empty, FMap.empty, FMap.empty⟩
      (newStorage env limits FMap.empty) := by
  refine (ready_loaded hok ⟨rfl, rfl⟩ (wellNamed_blank limits)
    fun t p _ _ => ?_).retained env hlimit
  exact ⟨[], tidy_blank limits t p, fun g hg => absurd hg List.not_mem_nil,
    fun g hg => by cases hg⟩

end Steps

/-- The partition holds the end of a log, and its newest message. -/
structure Retained (t : Str) (p : Int) (log : List Message) (s : Storage) : Prop where
  suffix : messagesOf s t p <:+ log
  newest : (messagesOf s t p).getLast? = log.getLast?

def logged (t : Str) (p : Int) (s : Storage) (calls : List Call) : List Message :=
  (history t p s calls).map (fun e => toMessage e.2)

section Logs

variable {limits : Settings} {n : ℕ} {s s' : Storage} {new : Str → Int → List Record} {t : Str}
  {p : Int} {log : List Message}

/-- The partition goes on holding the end of its log. -/
theorem Retained.advance (h : Retained t p log s) (ht : Plain t) (hp : Natural p)
    (hadvances : Advances limits n new s s') :
    Retained t p (log ++ (new t p).map toMessage) s' := by
  obtain ⟨segments, segments', hmirrors, ⟨grown, hgrown, hsuffix, hlast⟩, hheld, -⟩ :=
    hadvances.held t p ht hp
  have hbefore : (entries grown).map toMessage =
      messagesOf s t p ++ (new t p).map toMessage := by
    rw [hgrown.entries, List.map_append, hmirrors.messages]
  have hafter := hheld.tidy.mirrors.messages
  constructor
  · obtain ⟨front, hfront⟩ := h.suffix
    have hleft : messagesOf s' t p <:+ messagesOf s t p ++ (new t p).map toMessage := by
      rw [hafter, ← hbefore]
      exact (entries_suffix hsuffix).map toMessage
    refine hleft.trans ⟨front, ?_⟩
    rw [← List.append_assoc, hfront]
  · have hnewest := entries_getLast (fun g hg => (hheld.topped g hg).1) hsuffix hlast
    calc (messagesOf s' t p).getLast?
        = ((entries grown).map toMessage).getLast? := by
          rw [hafter, List.getLast?_map, List.getLast?_map, hnewest]
      _ = (log ++ (new t p).map toMessage).getLast? := by
          rw [hbefore, List.getLast?_append, List.getLast?_append, h.newest]

theorem retained_run (hlimit : 0 < limits.retentionMaxBytes) (ht : Plain t) (hp : Natural p)
    (hsteady : Steady limits n s) (h : Retained t p log s) (calls : List Call)
    (hvalid : Valid step (Allowed limits) s calls) (hn : n + calls.length < 2 ^ 63) :
    Retained t p (log ++ logged t p s calls) (run step s calls) := by
  induction calls generalizing n s log with
  | nil => simpa [logged, history] using h
  | cons c rest ih =>
    rw [List.length_cons] at hn
    have hadvances := advances_step hlimit (by omega) hsteady c hvalid.1
    have hrest := ih hadvances.steady (h.advance ht hp hadvances) hvalid.2 (by omega)
    have hlog : logged t p s (c :: rest) =
        (appended t p s c).map toMessage ++ logged t p (step s c) rest := by
      simp [logged, history, appended]
    rw [hlog, ← List.append_assoc]
    exact hrest

end Logs

theorem valueOrDefault_pos (v : Int) {fallback : Int} (h : 0 < fallback) :
    0 < valueOrDefault v fallback := by
  unfold valueOrDefault
  split
  · assumption
  · exact h

/-- Under fixed limits, every call leaves segments that fit, all within the retention limit
unless one is left. It takes segments from the front only, so the partition holds the end
of its log and the newest record, and no pass over the sizes takes one more than it must. -/
theorem retention_bounds (env : Env) (cfg : Config) (calls : List Call) (c : Call)
    (hok : Succeeds env)
    (hvalid : Valid step (Allowed (newSettings cfg))
      (newStorage env (newSettings cfg) FMap.empty) (calls ++ [c]))
    (hlength : (calls ++ [c]).length < 2 ^ 63) (t : Str) (p : Int) (ht : Plain t)
    (hp : Natural p) :
    (∃ segments segments', Mirrors (reached env (newSettings cfg) calls) t p segments ∧
      Mirrors (reached env (newSettings cfg) (calls ++ [c])) t p segments' ∧
      Fit (newSettings cfg).segmentMaxBytes segments' ∧
      Within (newSettings cfg).retentionMaxBytes segments' ∧
      Follows segments (appended t p (reached env (newSettings cfg) calls) c) segments') ∧
    Retained t p (logged t p (newStorage env (newSettings cfg) FMap.empty) (calls ++ [c]))
      (reached env (newSettings cfg) (calls ++ [c])) ∧
    ∀ env' s segments, s.settings.retentionMaxBytes = (newSettings cfg).retentionMaxBytes →
      Mirrors s t p segments →
      Leaves t p (Sized (newSettings cfg).retentionMaxBytes segments) segments s
        (applySizeRetention env' s t p) := by
  have hlimit : 0 < (newSettings cfg).retentionMaxBytes := valueOrDefault_pos _ (by decide)
  have hempty := advances_empty hok hlimit
  obtain ⟨hfront, hlast⟩ := (valid_append step _ _ calls [c]).mp hvalid
  rw [List.length_append, List.length_singleton] at hlength
  have hsteady : Steady (newSettings cfg) (0 + calls.length)
      (reached env (newSettings cfg) calls) :=
    run_counted (steady_step hlimit) hempty.steady hfront (by omega)
  have hadvances := advances_step hlimit (by omega) hsteady c hlast.1
  refine ⟨?_, ?_, fun env' s segments hsettings hmirrors => ?_⟩
  · obtain ⟨segments, segments', hmirrors, hfollows, hheld, hwithin⟩ := hadvances.held t p ht hp
    have hstep : reached env (newSettings cfg) (calls ++ [c]) =
        step (reached env (newSettings cfg) calls) c := run_append step _ calls [c]
    rw [hstep]
    exact ⟨segments, segments', hmirrors, hheld.tidy.mirrors, hheld.fit, hwithin, hfollows⟩
  · have hblank : Retained t p [] ⟨newSettings cfg, FMap.empty, FMap.empty, FMap.empty⟩ :=
      ⟨List.suffix_refl [], rfl⟩
    have hstart := hblank.advance ht hp hempty
    exact retained_run hlimit ht hp hempty.steady hstart (calls ++ [c]) hvalid
      (by rw [List.length_append, List.length_singleton]; omega)
  · rw [← hsettings] at hlimit ⊢
    exact applySizeRetention_sized env' (ht.key hp) hlimit hmirrors

section Examples

def tight : Config := { defaults with segmentMaxBytes := 1, retentionMaxBytes := 1 }

def twoCalls : List Call :=
  [.produce (calm 1) (lit "orders") 0 (lit "a"), .produce (calm 2) (lit "orders") 0 (lit "b")]

/-- Each of two records has a segment of its own, and the second call takes the first one. -/
theorem retention_bounds_tight :
    messagesOf (reached (calm 0) (newSettings tight) twoCalls) (lit "orders") 0 =
        [⟨1, lit "b"⟩] ∧
      Retained (lit "orders") 0
        (logged (lit "orders") 0 (newStorage (calm 0) (newSettings tight) FMap.empty) twoCalls)
        (reached (calm 0) (newSettings tight) twoCalls) := by
  refine ⟨by decide, (retention_bounds (calm 0) tight
    [.produce (calm 1) (lit "orders") 0 (lit "a")] (.produce (calm 2) (lit "orders") 0 (lit "b"))
    (calm_succeeds 0) ?_ (by decide) (lit "orders") 0 orders_plain zero_natural).2.1⟩
  refine ⟨⟨⟨calm_succeeds 1, orders_plain, zero_natural, ⟨by decide, by decide⟩, ?_⟩, trivial⟩,
    ⟨⟨calm_succeeds 2, orders_plain, zero_natural, ⟨by decide, by decide⟩, ?_⟩, trivial⟩, trivial⟩
  · unfold Fits
    decide
  · unfold Fits
    decide

end Examples

end Flux.RetentionRuns
