import Flux.PartitionStorage

/-!
The records that a CONSUME or a BROKER_FETCH request reads from the storage,
and their text in the responses. Both handlers look at a watermark first and
then walk over what the storage returns.
-/
namespace Flux.RecordReads

open GoRuntime GoStrings PartitionStorage

/-- The loop of `handleConsume` stops at the first record above the watermark. -/
def consumeRecords (s : Storage) (topic : Str) (partition offset highWatermark : Int) :
    Except Panic (List Message) :=
  if highWatermark < 0 ∨ highWatermark < offset then .ok []
  else (consume s topic partition offset).map
    (fun messages => messages.takeWhile (fun m => m.offset ≤ highWatermark))

/-- The size of a Go string header. -/
def stringSize : Int := 16

/-- The loop of `handleBrokerFetch` stops when `maxMessages` records are taken.
It fills a slice that was made with that capacity. -/
def fetchRecords (s : Storage) (topic : Str) (partition offset leaderOffset maxMessages : Int) :
    Except Panic (List Message) :=
  if leaderOffset < 0 ∨ leaderOffset < offset then .ok []
  else (consume s topic partition offset).bind (fun messages =>
    (makeCap stringSize maxMessages).map (fun _ => messages.take maxMessages.toNat))

/-- `fmt.Sprintf("%d:%s", msg.Offset, msg.Value)` -/
def renderRecord (m : Message) : Str := itoa m.offset ++ 58 :: m.value

def renderRecords (records : List Message) : Str := join [44] (records.map renderRecord)

/-- The payload of a CONSUME response. -/
def consumePayload (records : List Message) (highWatermark : Int) : Str :=
  lit "messages=" ++ (renderRecords records ++ (lit " hw=" ++ itoa highWatermark))

/-- The payload of a BROKER_FETCH response. -/
def fetchPayload (topic : Str) (partition followerID highWatermark : Int)
    (records : List Message) : Str :=
  lit "topic=" ++ (topic ++ (lit " partition=" ++ (itoa partition ++ (lit " follower=" ++
    (itoa followerID ++ (lit " hw=" ++ (itoa highWatermark ++ (lit " records=" ++
      renderRecords records))))))))

end Flux.RecordReads
