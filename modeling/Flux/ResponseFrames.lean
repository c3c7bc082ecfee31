import Flux.ClientText
import Flux.ResponseLines
import Flux.WhiteSpace

/-!
The frame of a response. A response is one line: version, correlation id and
status, then whatever the handler has to say. Neither the correlation id of a
request nor the rest of a response can break the line, and neither can forge a
field in front of the status.
-/
namespace Flux.ResponseFrames

open Cuts GoStrings Protocol TCPTransport WhiteSpace

def OneLine (s : Str) : Prop := (10 : UInt8) ∉ s

instance (s : Str) : Decidable (OneLine s) := inferInstanceAs (Decidable ((10 : UInt8) ∉ s))

section Texts

variable {a b : Str}

@[simp] theorem oneLine_nil : OneLine [] := List.not_mem_nil

@[simp] theorem oneLine_append : OneLine (a ++ b) ↔ OneLine a ∧ OneLine b := by
  simp [OneLine]

@[simp] theorem oneLine_cons {c : UInt8} : OneLine (c :: a) ↔ 10 ≠ c ∧ OneLine a := by
  simp [OneLine]

@[simp] theorem oneLine_itoa (n : Int) : OneLine (itoa n) :=
  itoa_not_mem n 10 (by decide) (by decide)

theorem OneLine.subset (hb : OneLine b) (h : a ⊆ b) : OneLine a := fun hmem => hb (h hmem)

theorem OneLine.spaceFree (h : SpaceFree a) : OneLine a := ResponseLines.newline_not_mem h

theorem lit_ofList (cs : List Char) : lit (String.ofList cs) = ClientText.utf8 cs := by
  unfold lit ClientText.utf8
  simp [String.toUTF8, String.ofList, List.utf8Encode]

def plain (cs : List Char) : Bool := cs.all (fun c => c.toNat != 10)

theorem oneLine_literal {cs : List Char} (h : plain cs = true) :
    OneLine (lit (String.ofList cs)) := by
  intro hmem
  rw [lit_ofList] at hmem
  obtain ⟨c, hc, hbyte⟩ := List.mem_flatMap.mp hmem
  obtain ⟨rfl, -⟩ := ClientText.encodeChar_ascii hbyte (by decide)
  have := List.all_eq_true.mp h _ hc
  simp at this

theorem oneLine_join {sep : Str} (hsep : OneLine sep) {parts : List Str}
    (h : ∀ part ∈ parts, OneLine part) : OneLine (join sep parts) := by
  induction parts with
  | nil => exact oneLine_nil
  | cons first rest ih =>
    have hfirst := h first (List.mem_cons_self ..)
    have hrest := ih (fun part hpart => h part (List.mem_cons_of_mem _ hpart))
    cases rest with
    | nil => simpa [join] using hfirst
    | cons second others =>
      rw [join, List.intercalate_cons_cons]
      exact oneLine_append.mpr ⟨oneLine_append.mpr ⟨hfirst, hsep⟩, hrest⟩

theorem oneLine_bracketed {parts : List Str} (h : ∀ part ∈ parts, OneLine part) :
    OneLine (bracketed parts) := by
  have hopen : OneLine (lit "[") := by decide
  have hclose : OneLine (lit "]") := by decide
  exact oneLine_append.mpr ⟨oneLine_append.mpr ⟨hopen, oneLine_join (by decide) h⟩, hclose⟩

end Texts

section Requests

theorem dropRunes_suffix (runes : List Str) (skip : ℕ) (s : Str) :
    dropRunes runes skip s <:+ s := by
  induction s generalizing skip with
  | nil =>
    cases skip with
    | zero => exact List.suffix_rfl
    | succ n => exact List.suffix_rfl
  | cons c rest ih =>
    cases skip with
    | zero =>
      rw [dropRunes]
      split
      · exact (ih _).trans (List.suffix_cons ..)
      · exact List.suffix_rfl
    | succ n => exact (ih n).trans (List.suffix_cons ..)

theorem trimRight_subset (s : Str) : trimRight s ⊆ s := by
  intro c hc
  rw [trimRight, List.mem_reverse] at hc
  exact List.mem_reverse.mp ((dropRunes_suffix _ _ _).subset hc)

theorem trimSpace_subset (s : Str) : trimSpace s ⊆ s :=
  fun _ hc => (dropRunes_suffix _ _ _).subset (trimRight_subset _ hc)

structure Repeatable (req : Request) : Prop where
  correlated : req.correlationID ≠ []
  no_bar : (124 : UInt8) ∉ req.correlationID
  id_line : OneLine req.correlationID
  args_line : ∀ arg ∈ req.args, OneLine arg

/-- The words of a parsed request can be repeated in an answer. -/
theorem repeatable_of_parse {line : Str} {req : Request} (hline : OneLine line)
    (h : parseRequest line = .ok req) : Repeatable req := by
  unfold parseRequest at h
  split at h
  · rename_i versionText correlationText commandText argText hsplit
    dsimp only at h
    obtain ⟨-, rest, hword, hrest⟩ := splitN_letter_cons hsplit
    obtain ⟨hbar, more, hmore, -⟩ := splitN_letter_cons hrest
    have htrimmed : OneLine (trimSpace line) := hline.subset (trimSpace_subset line)
    rw [hword, hmore] at htrimmed
    simp only [oneLine_append, oneLine_cons] at htrimmed
    split at h
    · cases h
    · split at h
      · cases h
      · split at h
        · cases h
        · cases h
          refine ⟨‹_›, fun hmem => hbar (trimSpace_subset _ hmem), ?_, fun arg harg => ?_⟩
          · exact htrimmed.2.2.1.subset (trimSpace_subset _)
          · dsimp only at harg
            split at harg
            · cases harg
            · exact OneLine.spaceFree (mem_fields harg).2
  · cases h

end Requests

inductive Verdict
  | ok
  | err
  deriving DecidableEq, Repr

def Verdict.text : Verdict → Str
  | .ok => lit "OK"
  | .err => lit "ERR"

/-- What a handler answers, with `Ok` or with `Err`. -/
inductive Reply
  | ok (payload : Str)
  | err (code message : Str)

namespace Reply

def status : Reply → Verdict
  | .ok _ => .ok
  | .err _ _ => .err

def line (correlationID : Str) : Reply → Str
  | .ok payload => Protocol.ok correlationID payload
  | .err code message => Protocol.err correlationID code message

def Fits : Reply → Prop
  | .ok payload => OneLine payload
  | .err code message => OneLine code ∧ OneLine message

def rest : Reply → Str
  | .ok payload => if payload = [] then [] else 124 :: payload
  | .err code message => 124 :: (code ++ 124 :: message)

end Reply

def frame (correlationID : Str) (status : Verdict) (rest : Str) : Str :=
  version ++ 124 :: (correlationID ++ 124 :: (status.text ++ rest))

section Lines

variable {correlationID : Str}

theorem line_eq_frame (hid : correlationID ≠ []) (reply : Reply) :
    reply.line correlationID = frame correlationID reply.status reply.rest ++ [10] := by
  cases reply with
  | ok payload =>
    have hbare : lit "|OK\n" = 124 :: (lit "OK" ++ [10]) := by decide
    have hbar : lit "|OK|" = 124 :: (lit "OK" ++ [124]) := by decide
    by_cases hpayload : payload = []
    · simp [Reply.line, Reply.status, Reply.rest, Verdict.text, frame, ok, hpayload, hbare]
    · simp [Reply.line, Reply.status, Reply.rest, Verdict.text, frame, ok, hpayload, hbar]
  | err code message =>
    have hbar : lit "|ERR|" = 124 :: (lit "ERR" ++ [124]) := by decide
    simp [Reply.line, Reply.status, Reply.rest, Verdict.text, frame, err, hid, hbar]

theorem Reply.Fits.rest {reply : Reply} (h : reply.Fits) : OneLine reply.rest := by
  cases reply with
  | ok payload =>
    rw [Reply.rest]
    split
    · exact oneLine_nil
    · exact oneLine_cons.mpr ⟨by decide, h⟩
  | err code message =>
    have hbar : (10 : UInt8) ≠ 124 := by decide
    simp only [Reply.rest, oneLine_cons, oneLine_append]
    exact ⟨hbar, h.1, hbar, h.2⟩

theorem oneLine_frame (hid : OneLine correlationID) {reply : Reply} (h : reply.Fits) :
    OneLine (frame correlationID reply.status reply.rest) := by
  have hversion : OneLine version := by decide
  have htext : OneLine reply.status.text := by
    cases reply.status with
    | ok => decide
    | err => decide
  have hbar : (10 : UInt8) ≠ 124 := by decide
  simp only [frame, oneLine_append, oneLine_cons]
  exact ⟨hversion, hbar, hid, hbar, htext, h.rest⟩

end Lines

section Fields

variable {α : Type} [DecidableEq α]

def Closed (bar : α) (rest : List α) : Prop := rest = [] ∨ ∃ more, rest = bar :: more

theorem Reply.closed (reply : Reply) : Closed 124 reply.rest := by
  cases reply with
  | ok payload =>
    rw [Reply.rest]
    split
    · exact .inl rfl
    · exact .inr ⟨payload, rfl⟩
  | err code message => exact .inr ⟨_, rfl⟩

/-- The first three fields of a line are those that were written. -/
theorem splitOn_fields {bar : α} {first second third rest : List α} (hfirst : bar ∉ first)
    (hsecond : bar ∉ second) (hthird : bar ∉ third) (hrest : Closed bar rest) :
    ∃ others, (first ++ bar :: (second ++ bar :: (third ++ rest))).splitOn bar =
      first :: second :: third :: others := by
  rw [List.splitOn_append_cons_self_of_not_mem hfirst,
    List.splitOn_append_cons_self_of_not_mem hsecond]
  rcases hrest with rfl | ⟨more, rfl⟩
  · rw [List.append_nil, List.splitOn_eq_singleton hthird]
    exact ⟨[], rfl⟩
  · rw [List.splitOn_append_cons_self_of_not_mem hthird]
    exact ⟨_, rfl⟩

end Fields

section Transport

def transportStatus (response : Str) : Option Verdict :=
  match receive response with
  | .error _ => none
  | .ok line =>
      match parseOKPayload line with
      | .ok _ => some .ok
      | .error (.response _ _) => some .err
      | .error _ => none

theorem parseOKPayload_frame {correlationID rest : Str} (hid : (124 : UInt8) ∉ correlationID)
    (status : Verdict) (hrest : Closed 124 rest) :
    match status with
    | .ok => ∃ payload, parseOKPayload (frame correlationID status rest) = .ok payload
    | .err => ∃ code message,
        parseOKPayload (frame correlationID status rest) = .error (.response code message) := by
  have htext : (124 : UInt8) ∉ status.text := by
    cases status with
    | ok => decide
    | err => decide
  have hversion : (124 : UInt8) ∉ version := by decide
  obtain ⟨others, hsplit⟩ := splitOn_fields hversion hid htext hrest
  rw [frame, parseOKPayload, hsplit]
  cases status with
  | ok =>
    have hne : lit "OK" ≠ lit "ERR" := by decide
    simp [Verdict.text, hne]
  | err => simp [Verdict.text]

/-- Trimming a line leaves its fields. -/
theorem trimSpace_frame (correlationID : Str) (status : Verdict) {rest : Str}
    (hrest : Closed 124 rest) :
    ∃ rest', Closed 124 rest' ∧
      trimSpace (frame correlationID status rest ++ [10]) = frame correlationID status rest' := by
  have hend : ∃ front letter, status.text = front ++ [letter] ∧
      ∀ space ∈ spaces, letter ∉ space := by
    cases status with
    | ok => exact ⟨[79], 75, by decide, by decide⟩
    | err => exact ⟨[69, 82], 82, by decide, by decide⟩
  obtain ⟨front, letter, htext, hletter⟩ := hend
  have hversion : version = 86 :: [49] := by decide
  have hstart : ∀ space ∈ spaces, (86 : UInt8) ∉ space := by decide
  have hline : ∀ tail, frame correlationID status tail =
      86 :: 49 :: 124 :: (correlationID ++ 124 :: front) ++ letter :: tail := by
    intro tail
    simp [frame, hversion, htext]
  refine ⟨trimRight (rest ++ [10]), ?_, ?_⟩
  · rcases hrest with rfl | ⟨more, rfl⟩
    · exact .inl (by decide)
    · have hbar : ∀ space ∈ spaces, (124 : UInt8) ∉ space := by decide
      have hright := trimRight_append hbar [] (more ++ [10])
      simp only [List.nil_append] at hright
      exact .inr ⟨trimRight (more ++ [10]), by simpa only [List.cons_append] using hright⟩
  · rw [hline, hline, trimSpace, List.append_assoc]
    have hleft := trimLeft_letter hstart
      (49 :: 124 :: (correlationID ++ 124 :: front) ++ (letter :: rest ++ [10]))
    simp only [List.cons_append] at hleft ⊢
    rw [hleft]
    exact trimRight_append hletter (86 :: 49 :: 124 :: (correlationID ++ 124 :: front))
      (rest ++ [10])

theorem transportStatus_frame {correlationID rest : Str} (hid : (124 : UInt8) ∉ correlationID)
    {status : Verdict} (hrest : Closed 124 rest)
    (hline : OneLine (frame correlationID status rest)) :
    transportStatus (frame correlationID status rest ++ [10]) = some status := by
  obtain ⟨rest', hclosed, htrim⟩ := trimSpace_frame correlationID status hrest
  have hparse := parseOKPayload_frame hid status hclosed
  rw [transportStatus, receive, cut_letter_append 10 _ [] hline]
  dsimp only
  rw [htrim]
  cases status with
  | ok =>
    obtain ⟨payload, hok⟩ := hparse
    rw [hok]
  | err =>
    obtain ⟨code, message, herr⟩ := hparse
    rw [herr]

end Transport

end Flux.ResponseFrames
