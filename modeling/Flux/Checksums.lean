import Flux.GoStrings

/-!
The two hash functions of the broker: CRC-32 with the IEEE polynomial guards
each log line, and 32-bit FNV-1a routes a producer key to a partition.
-/
namespace Flux.Checksums

open GoStrings

def crcBit (crc : UInt32) : UInt32 :=
  if crc &&& 1 = 1 then (crc >>> 1) ^^^ 0xEDB88320 else crc >>> 1

def crcByte (crc : UInt32) (b : UInt8) : UInt32 :=
  (List.range 8).foldl (fun c _ => crcBit c) (crc ^^^ b.toUInt32)

/-- `crc32.ChecksumIEEE` -/
def checksumIEEE (s : Str) : ℕ := ((s.foldl crcByte 0xFFFFFFFF) ^^^ 0xFFFFFFFF).toNat

/-- `fnv.New32a` after one `Write` -/
def fnv32a (s : Str) : ℕ :=
  (s.foldl (fun h b => (h ^^^ b.toUInt32) * 16777619) (2166136261 : UInt32)).toNat

example : checksumIEEE (lit "123456789") = 0xCBF43926 := by decide +kernel

example : fnv32a (lit "a") = 0xE40C292C := by decide

end Flux.Checksums
