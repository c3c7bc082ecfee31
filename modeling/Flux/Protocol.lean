import Flux.GoStrings

/-!
The line protocol: a request line is split into its four parts, and a response
is one line that repeats the correlation id.
-/
namespace Flux.Protocol

open Cuts GoStrings

structure Request where
  version : Str
  correlationID : Str
  command : Str
  args : List Str
  deriving DecidableEq, Repr

def version : Str := lit "V1"

def parseRequest (line : Str) : Except Str Request :=
  match splitN [124] 4 (trimSpace line) with
  | [versionText, correlationText, commandText, argText] =>
      let correlationID := trimSpace correlationText
      let command := toUpper (trimSpace commandText)
      let argLine := trimSpace argText
      if trimSpace versionText ≠ version then .error (lit "unsupported version")
      else if correlationID = [] then .error (lit "correlation id required")
      else if command = [] then .error (lit "command required")
      else .ok ⟨trimSpace versionText, correlationID, command,
        if argLine = [] then [] else fields argLine⟩
  | _ => .error (lit "expected format V1|<correlation_id>|<command>|<args>")

def ok (correlationID payload : Str) : Str :=
  if payload = [] then version ++ (124 :: (correlationID ++ lit "|OK\n"))
  else version ++ (124 :: (correlationID ++ (lit "|OK|" ++ (payload ++ [10]))))

def err (correlationID code message : Str) : Str :=
  let correlationID := if correlationID = [] then lit "0" else correlationID
  version ++ (124 :: (correlationID ++ (lit "|ERR|" ++ (code ++ (124 :: (message ++ [10]))))))

def parseInt (value field : Str) : Except Str Int :=
  match atoi value with
  | none => .error (lit "invalid " ++ field)
  | some parsed => .ok parsed

theorem ok_ne_err (correlationID payload code message : Str) :
    ok correlationID payload ≠ err correlationID code message := by
  have hok : lit "|OK\n" = 124 :: 79 :: [75, 10] := by decide
  have hok' : lit "|OK|" = 124 :: 79 :: [75, 124] := by decide
  have herr : lit "|ERR|" = 124 :: 69 :: [82, 82, 124] := by decide
  have hzero : lit "0" = [48] := by decide
  intro h
  unfold ok err at h
  by_cases hid : correlationID = []
  · rw [hid, hok, hok', hzero] at h
    split at h
    · simp at h
    · simp at h
  · simp only [if_neg hid, hok, hok', herr] at h
    split at h
    · simp at h
    · simp at h

theorem ok_payload_injective {correlationID payload payload' : Str}
    (h : ok correlationID payload = ok correlationID payload') : payload = payload' := by
  have hbare : lit "|OK\n" = [124, 79, 75, 10] := by decide
  have hfull : lit "|OK|" = [124, 79, 75, 124] := by decide
  unfold ok at h
  rw [hbare, hfull] at h
  split at h
  · rename_i hnil
    split at h
    · rename_i hnil'
      rw [hnil, hnil']
    · simp at h
  · split at h
    · simp at h
    · simpa using h

end Flux.Protocol
