import Flux.GroupAllocations
import Flux.Protocol
import Flux.StorageReads

/-!
Which requests can crash the broker. A request that asks for a negative offset or
for a slice that the run time refuses to make panics; a careful one does not. What
it reads from the storage is then there to be sliced.
-/
namespace Flux.RequestSafety

open GoRuntime GoStrings PartitionStorage RecordReads GroupAllocations Protocol

def intAt (req : Request) (k : ℕ) : Option Int := (req.args[k]?).bind atoi

/-- The integers that the handlers pass on to slices without a check. -/
structure Careful (req : Request) : Prop where
  consumeOffset : req.command = lit "CONSUME" → ∀ n, intAt req 2 = some n → 0 ≤ n
  fetchOffset : req.command = lit "BROKER_FETCH" → ∀ n, intAt req 3 = some n → 0 ≤ n
  fetchMax : req.command = lit "BROKER_FETCH" → ∀ n, intAt req 4 = some n →
    stringSize * n ≤ maxAlloc
  factor : req.command = lit "ADMIN_CREATE_TOPIC" → ∀ n, intAt req 2 = some n →
    intSize * n ≤ maxAlloc

theorem careful_iff (req : Request) : Careful req ↔
    (req.command = lit "CONSUME" → ∀ n ∈ intAt req 2, 0 ≤ n) ∧
      (req.command = lit "BROKER_FETCH" → ∀ n ∈ intAt req 3, 0 ≤ n) ∧
      (req.command = lit "BROKER_FETCH" → ∀ n ∈ intAt req 4, stringSize * n ≤ maxAlloc) ∧
      (req.command = lit "ADMIN_CREATE_TOPIC" → ∀ n ∈ intAt req 2, intSize * n ≤ maxAlloc) :=
  ⟨fun h => ⟨h.consumeOffset, h.fetchOffset, h.fetchMax, h.factor⟩,
    fun h => ⟨h.1, h.2.1, h.2.2.1, h.2.2.2⟩⟩

instance (req : Request) : Decidable (Careful req) := decidable_of_iff _ (careful_iff req).symm

section Reads

variable (s : Storage) (topic : Str) (partition : Int) {offset : Int} (hoffset : 0 ≤ offset)

include hoffset

theorem consumeRecords_ok (hw : Int) :
    ∃ records, consumeRecords s topic partition offset hw = .ok records := by
  unfold consumeRecords
  split
  · exact ⟨_, rfl⟩
  · rw [StorageReads.consume_eq_drop s topic partition offset hoffset]
    exact ⟨_, rfl⟩

theorem fetchRecords_ok (leaderOffset : Int) {maxMessages : Int} (hpos : 0 ≤ maxMessages)
    (hmax : stringSize * maxMessages ≤ maxAlloc) :
    ∃ records, fetchRecords s topic partition offset leaderOffset maxMessages = .ok records := by
  unfold fetchRecords
  split
  · exact ⟨_, rfl⟩
  · rw [StorageReads.consume_eq_drop s topic partition offset hoffset, Except.bind,
      makeCap_ok hpos hmax]
    exact ⟨_, rfl⟩

end Reads

end Flux.RequestSafety
