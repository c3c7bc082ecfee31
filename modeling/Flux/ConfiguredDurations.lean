import Flux.BrokerRuns
import Flux.SparedRuns

/-!
The configuration as `Load` reads it from the environment, and the durations that
are in force in the broker built from it. The checks ask for positive numbers
only. A number of seconds or milliseconds whose nanoseconds do not fit 64 bits
passes them and comes into force as another duration.
-/
namespace Flux.ConfiguredDurations

open GoRuntime GoStrings FiniteMap SegmentNames BrokerConfig PartitionStorage Groups OffsetCommits
open StorageFrames StorageRecovery BrokerNode BrokerRuns

/-- The value of each variable, empty where it is not set. -/
abbrev Getenv := Str → Str

def getEnv (env : Getenv) (key : String) (fallback : Str) : Str :=
  if env (lit key) = [] then fallback else env (lit key)

def parseCSVEnv (env : Getenv) (key : String) : List Str :=
  ((trimSpace (env (lit key))).splitOn 44).map trimSpace |>.filter (fun p => p ≠ [])

def integers : List (String × (Config → Int → Config)) :=
  [("FLUX_NUM_PARTITIONS", fun cfg n => { cfg with numPartitions := n }),
    ("FLUX_ADVERTISED_PORT", fun cfg n => { cfg with advertisedPort := n }),
    ("FLUX_BROKER_ID", fun cfg n => { cfg with brokerID := n }),
    ("FLUX_REPLICATION_FACTOR", fun cfg n => { cfg with replicationFactor := n }),
    ("FLUX_MIN_ISR", fun cfg n => { cfg with minInSyncReplicas := n }),
    ("FLUX_REPLICA_MAX_LAG", fun cfg n => { cfg with replicaMaxLag := n }),
    ("FLUX_REPLICA_LAG_TIMEOUT_MS", fun cfg n => { cfg with replicaLagTimeoutMs := n }),
    ("FLUX_ACK_ALL_TIMEOUT_MS", fun cfg n => { cfg with ackAllTimeoutMs := n }),
    ("FLUX_SEGMENT_MAX_BYTES", fun cfg n => { cfg with segmentMaxBytes := n }),
    ("FLUX_RETENTION_MAX_BYTES", fun cfg n => { cfg with retentionMaxBytes := n }),
    ("FLUX_RETENTION_MAX_AGE_SECONDS", fun cfg n => { cfg with retentionMaxAgeSeconds := n }),
    ("FLUX_FLUSH_INTERVAL_MS", fun cfg n => { cfg with flushIntervalMs := n }),
    ("FLUX_FLUSH_BYTES", fun cfg n => { cfg with flushBytes := n })]

def readInteger (env : Getenv) (cfg : Config) (entry : String × (Config → Int → Config)) :
    Except Str Config :=
  if env (lit entry.1) = [] then .ok cfg
  else
    match atoi (env (lit entry.1)) with
    | none => .error (lit "invalid " ++ lit entry.1)
    | some n => .ok (entry.2 cfg n)

/-- The checks of `Load`, each with its message, in their order. -/
def checks (listenAddr dataDir : Str) (cfg : Config) : List (Bool × String) :=
  [(0 < cfg.numPartitions, "num partitions must be > 0"),
    (0 < cfg.replicationFactor, "replication factor must be > 0"),
    (0 < cfg.minInSyncReplicas, "min isr must be > 0"),
    (cfg.minInSyncReplicas ≤ cfg.replicationFactor, "min isr cannot exceed replication factor"),
    (0 ≤ cfg.replicaMaxLag, "replica max lag must be >= 0"),
    (0 < cfg.replicaLagTimeoutMs, "replica lag timeout must be > 0"),
    (0 < cfg.ackAllTimeoutMs, "ack all timeout must be > 0"),
    (listenAddr ≠ [], "listen addr cannot be empty"),
    (cfg.advertisedHost ≠ [], "advertised host cannot be empty"),
    (0 < cfg.advertisedPort, "advertised port must be > 0"),
    (0 ≤ cfg.brokerID, "broker id must be >= 0"),
    (dataDir ≠ [], "data dir cannot be empty"),
    (0 < cfg.segmentMaxBytes, "segment max bytes must be > 0"),
    (0 < cfg.retentionMaxBytes, "retention max bytes must be > 0"),
    (0 < cfg.retentionMaxAgeSeconds, "retention max age seconds must be > 0"),
    (0 < cfg.flushIntervalMs, "flush interval ms must be > 0"),
    (0 < cfg.flushBytes, "flush bytes must be > 0"),
    (cfg.fsyncMode = lit "always" ∨ cfg.fsyncMode = lit "interval" ∨ cfg.fsyncMode = lit "never",
      "fsync mode must be one of: always, interval, never")]

def validate (listenAddr dataDir : Str) (cfg : Config) : Except Str Config :=
  match (checks listenAddr dataDir cfg).find? (fun check => !check.1) with
  | some check => .error (lit check.2)
  | none => .ok cfg

/-- What `Load` starts from; the addresses are texts. -/
def initial (env : Getenv) : Config :=
  { defaults with
    advertisedHost := getEnv env "FLUX_ADVERTISED_HOST" (lit "127.0.0.1")
    clusterPeers := parseCSVEnv env "FLUX_CLUSTER_PEERS" }

def load (env : Getenv) : Except Str Config := do
  let cfg ← integers.foldlM (readInteger env) (initial env)
  validate (getEnv env "FLUX_LISTEN_ADDR" (lit ":9092")) (getEnv env "FLUX_DATA_DIR" (lit "data"))
    { cfg with fsyncMode := getEnv env "FLUX_FSYNC_MODE" cfg.fsyncMode }

structure Positive (cfg : Config) : Prop where
  retention : 0 < cfg.retentionMaxAgeSeconds
  flush : 0 < cfg.flushIntervalMs
  lag : 0 < cfg.replicaLagTimeoutMs
  ack : 0 < cfg.ackAllTimeoutMs

theorem validate_ok {listenAddr dataDir : Str} {cfg cfg' : Config}
    (h : validate listenAddr dataDir cfg = .ok cfg') :
    cfg' = cfg ∧ ∀ check ∈ checks listenAddr dataDir cfg, check.1 = true := by
  unfold validate at h
  split at h
  · cases h
  · rename_i hnone
    refine ⟨(Except.ok.inj h).symm, fun check hcheck => ?_⟩
    have hpass := List.find?_eq_none.mp hnone check hcheck
    simpa using hpass

theorem positive_of_load {env : Getenv} {cfg : Config} (h : load env = .ok cfg) : Positive cfg := by
  unfold load at h
  cases hread : integers.foldlM (readInteger env) (initial env) with
  | error e =>
    rw [hread] at h
    cases h
  | ok read =>
    rw [hread] at h
    obtain ⟨rfl, hchecks⟩ := validate_ok h
    simp only [checks, List.forall_mem_cons, decide_eq_true_eq] at hchecks
    obtain ⟨-, -, -, -, -, hlag, hack, -, -, -, -, -, -, -, hretention, hflush, -⟩ := hchecks
    exact ⟨hretention, hflush, hlag, hack⟩

/-- The durations in force are the configured ones. -/
structure InForce (cfg : Config) (b : Broker) : Prop where
  retention : b.storage.settings.retentionMaxAge = cfg.retentionMaxAgeSeconds * second
  flush : b.storage.settings.flushInterval = cfg.flushIntervalMs * millisecond
  lag : b.replication.cfg.replicaLagTimeout = cfg.replicaLagTimeoutMs * millisecond
  ack : b.replication.cfg.ackAllTimeout = cfg.ackAllTimeoutMs * millisecond

/-- Age retention leaves alone what was written less than the configured time ago. -/
def SparesYoung (cfg : Config) (settings : Settings) : Prop :=
  ∀ (env : Env) (s : Storage) (topic : Str) (partition : Int) (name : Str) (file : File),
    s.settings = settings → s.disk.get name = some file → ¬ IsIndex name →
    env.retention topic partition - file.modTime < cfg.retentionMaxAgeSeconds * second →
    (applyAgeRetention env s topic partition).disk.get name = some file

/-- The numbers of nanoseconds have 63 bits. -/
structure Expressible (cfg : Config) : Prop where
  retention : cfg.retentionMaxAgeSeconds ≤ 9223372036
  flush : cfg.flushIntervalMs ≤ 9223372036854
  lag : cfg.replicaLagTimeoutMs ≤ 9223372036854
  ack : cfg.ackAllTimeoutMs ≤ 9223372036854

section Products

theorem duration_exact {n unit : Int} (hlow : 0 ≤ n * unit) (hhigh : n * unit < 2 ^ 63) :
    duration n unit = n * unit := by
  unfold duration wrap64
  rw [Int.bmod_eq_of_le]
  · omega
  · omega

/-- A product or its fallback is never as large as a product that does not fit. -/
theorem valueOrDefault_lt {n unit fallback : Int} (hfallback : fallback < 2 ^ 63) :
    valueOrDefault (duration n unit) fallback < 2 ^ 63 := by
  have hbound : duration n unit < 2 ^ 63 := by
    unfold duration wrap64
    have := Int.bmod_lt (x := n * unit) (m := 2 ^ 64) (by omega)
    omega
  unfold valueOrDefault
  split
  · exact hbound
  · exact hfallback

theorem valueOrDefault_exact {n unit fallback : Int} (hlow : 0 < n * unit)
    (hhigh : n * unit < 2 ^ 63) : valueOrDefault (duration n unit) fallback = n * unit := by
  rw [duration_exact (by omega) hhigh, valueOrDefault, if_pos hlow]

end Products

section Retention

/-- The loop deletes files that are old enough, and nothing but segment files. -/
theorem ageLoop_spares_young (env : Env) (topic : Str) (partition : Int) (cutoff : Time)
    (segments : List Int) (s : Storage) {name : Str} {file : File}
    (hfile : s.disk.get name = some file) (hindex : ¬ IsIndex name)
    (hyoung : cutoff < file.modTime) :
    (ageLoop env topic partition cutoff segments s).disk.get name = some file := by
  fun_induction ageLoop env topic partition cutoff segments s with
  | case1 segID next rest s st hnone ih => exact ih hfile
  | case2 => exact hfile
  | case3 segID next rest s st old hold hcutoff ih =>
    have hne : name ≠ segmentName topic partition segID := by
      rintro rfl
      rw [hold] at hfile
      cases hfile
      exact hcutoff hyoung
    refine ih ?_
    have hrebuild := (rebuildPartitionFromSegments_local env
      { s with disk := s.disk.del (segmentName topic partition segID) } topic partition
      { st with segments := st.segments.tail }).disk name hindex
    rw [deleteSegment, hrebuild]
    exact (FMap.get_del_ne _ hne).trans hfile
  | case4 => exact hfile

theorem sparesYoung_of_exact {cfg : Config} {settings : Settings}
    (h : settings.retentionMaxAge = cfg.retentionMaxAgeSeconds * second) :
    SparesYoung cfg settings := by
  intro env s topic partition name file hsettings hfile hindex hyoung
  unfold applyAgeRetention
  split
  · exact hfile
  · refine ageLoop_spares_young _ _ _ _ _ _ hfile hindex ?_
    rw [hsettings, h]
    exact sub_lt_comm.mp hyoung

end Retention

theorem newStorage_settings (env : Env) (settings : Settings) (disk : Disk) :
    (newStorage env settings disk).settings = settings := by
  rw [newStorage, enforceRetention_settings]
  exact loaded_settings env settings disk

section Broker

variable (env : Surroundings) {cfg : Config} (fallbackHost : Str) (fallbackPort : Int)
  (disk : Disk) (file : GroupsFile) (offsets : OffsetManager)

/-- The settings of the storage and of the manager come from the configuration. -/
theorem inForce_iff (h : Positive cfg) :
    InForce cfg (newBroker env cfg fallbackHost fallbackPort disk file offsets) ↔
      Expressible cfg := by
  have hsettings :
      (newBroker env cfg fallbackHost fallbackPort disk file offsets).storage.settings =
      newSettings cfg := newStorage_settings _ _ _
  obtain ⟨hretention, hflush, hlag, hack⟩ := h
  constructor
  · rintro ⟨hr, hf, hl, ha⟩
    rw [hsettings] at hr hf
    have hr' : (newSettings cfg).retentionMaxAge < 2 ^ 63 := valueOrDefault_lt (by decide)
    have hf' : (newSettings cfg).flushInterval < 2 ^ 63 := valueOrDefault_lt (by decide)
    have hl' : (newBroker env cfg fallbackHost fallbackPort disk file
      offsets).replication.cfg.replicaLagTimeout < 2 ^ 63 := valueOrDefault_lt (by decide)
    have ha' : (newBroker env cfg fallbackHost fallbackPort disk file
      offsets).replication.cfg.ackAllTimeout < 2 ^ 63 := valueOrDefault_lt (by decide)
    unfold second at hr
    unfold millisecond at hf hl ha
    exact ⟨by omega, by omega, by omega, by omega⟩
  · rintro ⟨hr, hf, hl, ha⟩
    refine ⟨?_, ?_, ?_, ?_⟩
    · rw [hsettings]
      exact valueOrDefault_exact (by unfold second; omega) (by unfold second; omega)
    · rw [hsettings]
      exact valueOrDefault_exact (by unfold millisecond; omega) (by unfold millisecond; omega)
    · exact valueOrDefault_exact (by unfold millisecond; omega) (by unfold millisecond; omega)
    · exact valueOrDefault_exact (by unfold millisecond; omega) (by unfold millisecond; omega)

/-- The durations are in force, and age retention spares what is young enough, just
if the configured numbers can be expressed. -/
theorem durations_in_force_iff {getenv : Getenv} (h : load getenv = .ok cfg) :
    (InForce cfg (newBroker env cfg fallbackHost fallbackPort disk file offsets) ∧
      SparesYoung cfg
        (newBroker env cfg fallbackHost fallbackPort disk file offsets).storage.settings) ↔
      Expressible cfg := by
  rw [← inForce_iff env fallbackHost fallbackPort disk file offsets (positive_of_load h)]
  constructor
  · exact fun hboth => hboth.1
  · exact fun hforce => ⟨hforce, sparesYoung_of_exact hforce.retention⟩

end Broker

def longest : Getenv := fun name =>
  if name = lit "FLUX_RETENTION_MAX_AGE_SECONDS" then lit "9223372036" else []

def longestConfig : Config := { defaults with retentionMaxAgeSeconds := 9223372036 }

theorem durations_in_force_iff_longest :
    let b := newBroker quiet longestConfig [] 0 FMap.empty (.holds FMap.empty) ⟨FMap.empty⟩
    load longest = .ok longestConfig ∧ InForce longestConfig b ∧
      SparesYoung longestConfig b.storage.settings := by
  have hload : load longest = .ok longestConfig := by decide
  have hexpressible : Expressible longestConfig :=
    ⟨by decide, by decide, by decide, by decide⟩
  exact ⟨hload, (durations_in_force_iff quiet [] 0 FMap.empty (.holds FMap.empty) ⟨FMap.empty⟩
    hload).mpr hexpressible⟩

section Forever

def keepForever : Getenv := fun name =>
  if name = lit "FLUX_RETENTION_MAX_AGE_SECONDS" then lit "18446744074" else []

def foreverConfig : Config := { defaults with retentionMaxAgeSeconds := 18446744074 }

def twoSegments : Storage where
  settings := newSettings foreverConfig
  data := FMap.empty
  partitionState := set2 FMap.empty (lit "t") 0
    ⟨2, 1, [0, 1], 0, 0⟩
  disk := (FMap.empty.set (segmentName (lit "t") 0 0) ⟨lit "x", 0⟩).set
    (segmentName (lit "t") 0 1) ⟨lit "y", 0⟩

/-- A second after it was written, the older segment is deleted. -/
theorem forever_forgets :
    load keepForever = .ok foreverConfig ∧
    (newSettings foreverConfig).retentionMaxAge = 290448384 ∧
    (applyAgeRetention (StorageAppends.calm 1000000000) twoSegments (lit "t") 0).disk.get
      (segmentName (lit "t") 0 0) = none := by
  refine ⟨by decide, by decide, by decide⟩

end Forever

end Flux.ConfiguredDurations
