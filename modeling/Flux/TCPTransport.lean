import Flux.GoStrings

/-!
The follower's end of the inter-broker requests: a response line is read,
checked for its status and searched for the fields of its payload.
-/
namespace Flux.TCPTransport

open Cuts GoStrings

structure ReplicationRecord where
  offset : Int
  value : Str
  deriving DecidableEq, Repr

structure FetchResult where
  highWatermark : Int
  records : List ReplicationRecord
  deriving DecidableEq, Repr

inductive TransportError
  | connectionClosed
  | invalidResponseLine
  | response (code message : Str)
  | unknownStatus (status : Str)
  | missingField (key : Str)
  | invalidNumber (raw : Str)
  | malformedRecord
  | invalidRecordOffset (raw : Str)
  deriving DecidableEq, Repr

/-- The end of `send`: one line is read and trimmed. -/
def receive (response : Str) : Except TransportError Str :=
  match cut [10] response with
  | none => .error .connectionClosed
  | some (line, _) => .ok (trimSpace (line ++ [10]))

def parseOKPayload (line : Str) : Except TransportError Str :=
  match line.splitOn 124 with
  | _ :: _ :: status :: rest =>
      if status = lit "ERR" then
        let code := rest.headD (lit "UNKNOWN_ERROR")
        let msg := if rest.length ≤ 1 then lit "unknown error" else join [124] rest.tail
        .error (.response code msg)
      else if status ≠ lit "OK" then .error (.unknownStatus status)
      else .ok (join [124] rest)
  | _ => .error .invalidResponseLine

def extractStringField (payload key : Str) : Str :=
  match cut (key ++ [61]) payload with
  | none => []
  | some (_, rest) =>
      match cut [32] rest with
      | none => rest
      | some (field, _) => field

def extractIntField (payload key : Str) : Except TransportError Int :=
  let raw := extractStringField payload key
  if raw = [] then .error (.missingField key)
  else
    match atoi raw with
    | none => .error (.invalidNumber raw)
    | some n => .ok n

def parseRecord (item : Str) : Except TransportError ReplicationRecord :=
  match splitN [58] 2 item with
  | [offsetText, value] =>
      match atoi offsetText with
      | none => .error (.invalidRecordOffset offsetText)
      | some offset => .ok ⟨offset, value⟩
  | _ => .error .malformedRecord

/-- The loop of `Fetch` over the items of the records field. -/
def parseRecords (field : Str) : Except TransportError (List ReplicationRecord) :=
  ((field.splitOn 44).filter (fun item => item ≠ [])).mapM parseRecord

/-- What `Fetch` returns for a response. -/
def fetchResult (response : Str) : Except TransportError FetchResult := do
  let line ← receive response
  let payload ← parseOKPayload line
  let highWatermark ← extractIntField payload (lit "hw")
  let records ← parseRecords (extractStringField payload (lit "records"))
  return ⟨highWatermark, records⟩

end Flux.TCPTransport
