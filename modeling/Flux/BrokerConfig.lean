import Flux.GoStrings

/-!
The configuration the broker's components are built from, and the fallbacks
they apply to values that were left out.
-/
namespace Flux.BrokerConfig

open GoRuntime GoStrings

structure Config where
  advertisedHost : Str
  advertisedPort : Int
  brokerID : Int
  clusterPeers : List Str
  numPartitions : Int
  replicationFactor : Int
  minInSyncReplicas : Int
  replicaMaxLag : Int
  replicaLagTimeoutMs : Int
  ackAllTimeoutMs : Int
  segmentMaxBytes : Int
  retentionMaxBytes : Int
  retentionMaxAgeSeconds : Int
  flushIntervalMs : Int
  flushBytes : Int
  fsyncMode : Str
  deriving DecidableEq, Repr

/-- The values `Load` starts from. -/
def defaults : Config where
  advertisedHost := lit "127.0.0.1"
  advertisedPort := 9092
  brokerID := 0
  clusterPeers := []
  numPartitions := 3
  replicationFactor := 3
  minInSyncReplicas := 2
  replicaMaxLag := 0
  replicaLagTimeoutMs := 10000
  ackAllTimeoutMs := 2000
  segmentMaxBytes := 1024 * 1024
  retentionMaxBytes := 50 * 1024 * 1024
  retentionMaxAgeSeconds := 86400
  flushIntervalMs := 1000
  flushBytes := 64 * 1024
  fsyncMode := lit "always"

/-- `time.Second` in nanoseconds. -/
def second : Int := 1000000000

/-- `time.Millisecond` in nanoseconds. -/
def millisecond : Int := 1000000

/-- `time.Duration(n) * unit`: the product is taken in 64 bits. -/
def duration (n unit : Int) : Int := wrap64 (n * unit)

/-- `valueOrDefaultInt64` and `valueOrDefaultDuration` -/
def valueOrDefault (v fallback : Int) : Int := if 0 < v then v else fallback

def valueOrDefaultString (v fallback : Str) : Str :=
  if trimSpace v = [] then fallback else v

end Flux.BrokerConfig
