import Flux.IntactRuns

/-!
Appends that fail. A call that fails before a byte of its line is in the file changes
neither the memory nor the next offset nor what the files replay to, and the call that
succeeds at last leaves one copy of its record. A call that fails after the write has
left its line in the file, and the next try writes it once more.
-/
namespace Flux.FailedAppends

open GoRuntime GoStrings LogLines FiniteMap PartitionStorage Runs StorageReplay StorageAppends
open StorageRecovery StorageCalls StorageRuns SegmentMirrors SegmentAppends IntactRuns

/-- Of records at ascending offsets one has the offset of a given one. -/
theorem filter_offset {rs : List Record} (h : rs.Pairwise (fun a b => a.offset < b.offset))
    {r : Record} (hr : r ∈ rs) :
    (rs.map toMessage).filter (fun m => m.offset = r.offset) = [toMessage r] := by
  induction rs with
  | nil => exact absurd hr List.not_mem_nil
  | cons x rest ih =>
    obtain ⟨hfirst, hrest⟩ := List.pairwise_cons.mp h
    rw [List.map_cons]
    rcases List.mem_cons.mp hr with rfl | hmem
    · rw [List.filter_cons_of_pos (by simp [toMessage]), List.filter_eq_nil_iff.mpr]
      intro m hm
      obtain ⟨y, hy, rfl⟩ := List.mem_map.mp hm
      have hne : y.offset ≠ r.offset := (hfirst y hy).ne'
      exact Bool.not_eq_true _ ▸ decide_eq_false hne
    · have hne : x.offset ≠ r.offset := (hfirst r hmem).ne
      rw [List.filter_cons_of_neg (Bool.not_eq_true _ ▸ decide_eq_false hne), ih hrest hmem]

/-- What a replicated append does to the log of its partition, in the memory and in what
a restart with `restart` and `settings` reads. -/
structure Atomic (restart : Env) (settings : Settings) (topic : Str) (partition offset : Int)
    (value : Str) (s : Storage) (result : Storage × Option AppendError) : Prop where
  failed : result.2 ≠ none →
    messagesOf result.1 topic partition = messagesOf s topic partition ∧
      nextOffsetOf result.1 topic partition = nextOffsetOf s topic partition ∧
      messagesOf (loaded restart settings result.1.disk) topic partition =
        messagesOf (loaded restart settings s.disk) topic partition
  applied : result.2 = none → nextOffsetOf s topic partition ≤ offset →
    (messagesOf result.1 topic partition).filter (fun m => m.offset = offset) =
        [⟨offset, value⟩] ∧
      (messagesOf (loaded restart settings result.1.disk) topic partition).filter
        (fun m => m.offset = offset) = [⟨offset, value⟩]

section Results

variable {n : ℕ} {s : Storage} {restart env : Env} {settings : Settings} {topic : Str}
  {partition offset : Int} {value : Str}

/-- A replicated append takes effect as a whole or not at all. -/
theorem atomic_appendReplicated (hrestart : Succeeds restart) (hn : n + 1 < 2 ^ 63)
    (h : Intact n s) (hc : Cautious s (.replicate env topic partition offset value)) :
    Atomic restart settings topic partition offset value s
      (appendReplicated env s topic partition offset value) := by
  have hafter : WellNamed (appendReplicated env s topic partition offset value).1 :=
    (intact_step n s _ hn h hc).named
  obtain ⟨hharm, ht, hp, hsafe, hfits⟩ := hc
  obtain ⟨segments, htidy⟩ := h.tidy topic partition ht hp
  have hread : ∀ s' segments', WellNamed s' → Mirrors s' topic partition segments' →
      messagesOf (loaded restart settings s'.disk) topic partition =
        messagesOf s' topic partition :=
    fun s' segments' hnamed hmirrors =>
      messagesOf_loaded settings hrestart hnamed (ht.key hp) ht.no_slash hmirrors
  rcases replicate_outcome hharm (ht.key hp) htidy.mirrors htidy.below hn
    (htidy.loggable_at hn hsafe hfits) with ⟨hstays, herror, -⟩ |
      ⟨heq, hnone, s', hcall, hgains⟩
  · obtain ⟨segments', hmirrors, hentries⟩ := hstays.mirrors
    refine ⟨fun _ => ?_, fun hdone hle => absurd hdone (herror hle)⟩
    have hmessages : messagesOf (appendReplicated env s topic partition offset value).1 topic
        partition = messagesOf s topic partition := by
      rw [hmirrors.messages, htidy.mirrors.messages, hentries]
    refine ⟨hmessages, ?_, ?_⟩
    · rw [nextOffsetOf_mirrors hmirrors, nextOffsetOf_mirrors htidy.mirrors, hentries]
    · rw [hread _ _ hafter hmirrors, hread _ _ h.named htidy.mirrors, hmessages]
  · obtain ⟨segments', k, htidy', hactive, hput, -⟩ := htidy.gains heq hgains
    have hnamed' := (h.change ht hp hgains.within htidy').named
    obtain ⟨segments'', htidy'', hdropped⟩ := htidy'.retained env hnamed' (ht.key hp)
    obtain ⟨old, hmem⟩ := hput.mem
    have hkept : (k, old ++ [⟨offset, unixMilli env.stamp, value⟩]) ∈ segments'' :=
      hdropped.kept _ hmem hactive
    have hlisted : (⟨offset, unixMilli env.stamp, value⟩ : Record) ∈ entries segments'' :=
      List.mem_flatMap.mpr ⟨_, hkept, by simp⟩
    have hone := filter_offset htidy''.mirrors.ascending hlisted
    refine ⟨fun hfailed => absurd hnone hfailed, fun _ _ => ?_⟩
    rw [hread _ segments'' hafter (by rw [hcall]; exact htidy''.mirrors)]
    rw [hcall, htidy''.mirrors.messages]
    exact ⟨hone, hone⟩

end Results

/-- In a run in which failing calls store no byte of their line, a replicated append that
fails changes nothing, and one that succeeds leaves one copy of its record. -/
theorem failed_appends_atomic {env : Env} (hok : Succeeds env) (settings : Settings)
    (calls : List Call) (hvalid : Valid step Cautious (newStorage env settings FMap.empty) calls)
    (hlength : calls.length + 1 < 2 ^ 63) (call : Env) (topic : Str) (partition offset : Int)
    (value : Str)
    (hcall : Cautious (reached env settings calls) (.replicate call topic partition offset value))
    (restart : Env) (hrestart : Succeeds restart) (settings' : Settings) :
    Atomic restart settings' topic partition offset value (reached env settings calls)
      (appendReplicated call (reached env settings calls) topic partition offset value) :=
  atomic_appendReplicated hrestart (by omega) (intact_reached hok settings hvalid (by omega)) hcall

section Examples

def closed : Env := { calm 1 with openOk := fun _ => false }

theorem cautious_orders (s : Storage) {env : Env} (hharm : Harmless env)
    (hfits : Fits env 0 (lit "a")) :
    Cautious s (.replicate env (lit "orders") 0 0 (lit "a")) :=
  ⟨hharm, ⟨by decide, by decide, by decide, by decide⟩, ⟨by decide, by decide⟩,
    ⟨by decide, by decide⟩, fun _ => hfits⟩

/-- The first try fails, and the second leaves one record. -/
theorem failed_appends_atomic_retry :
    (appendReplicated closed (newStorage (calm 0) defaultSettings FMap.empty) (lit "orders") 0 0
        (lit "a")).2 = some (.file .open) ∧
      Atomic (calm 3) defaultSettings (lit "orders") 0 0 (lit "a")
        (reached (calm 0) defaultSettings [.replicate closed (lit "orders") 0 0 (lit "a")])
        (appendReplicated (calm 2) (reached (calm 0) defaultSettings
          [.replicate closed (lit "orders") 0 0 (lit "a")]) (lit "orders") 0 0 (lit "a")) := by
  have hclosed : Harmless closed := ⟨rfl, fun _ _ _ m hm => by cases hm⟩
  refine ⟨by decide, failed_appends_atomic (calm_succeeds 0) defaultSettings
    [.replicate closed (lit "orders") 0 0 (lit "a")] ⟨?_, trivial⟩ (by decide) (calm 2)
    (lit "orders") 0 0 (lit "a") ?_ (calm 3) (calm_succeeds 3) defaultSettings⟩
  · refine cautious_orders _ hclosed ?_
    unfold Fits
    decide
  · refine cautious_orders _ (harmless_of_succeeds (calm_succeeds 2)) ?_
    unfold Fits
    decide

/-- An `fsync` that fails: the call reports an error and the memory has no record, but a
restart reads it, and after the next try it reads it twice. -/
theorem unsynced_record_kept :
    let unsynced : Env := { calm 1 with syncOk := false }
    let s := newStorage (calm 0) defaultSettings FMap.empty
    let first := appendReplicated unsynced s (lit "orders") 0 0 (lit "a")
    let second := appendReplicated (calm 2) first.1 (lit "orders") 0 0 (lit "a")
    first.2 = some .sync ∧ messagesOf first.1 (lit "orders") 0 = [] ∧
      messagesOf (loaded (calm 3) defaultSettings s.disk) (lit "orders") 0 = [] ∧
      messagesOf (loaded (calm 3) defaultSettings first.1.disk) (lit "orders") 0 = [⟨0, lit "a"⟩] ∧
      second.2 = none ∧
      messagesOf (loaded (calm 3) defaultSettings second.1.disk) (lit "orders") 0 =
        [⟨0, lit "a"⟩, ⟨0, lit "a"⟩] := by
  decide

end Examples

end Flux.FailedAppends
