import Flux.BrokerRuns
import Flux.ClientText
import Flux.WhiteSpace

/-!
The request line of a producer. The clients write topic, key and value into one
line as they are, and the broker takes the words of the line apart again. This
module gives the bytes that the clients send, the lines that reach the broker, and
what the broker reads from the first of them.
-/
namespace Flux.ProduceRequests

open GoStrings Cuts Protocol BrokerNode RequestHandlers BrokerRuns ClientText LogLines WhiteSpace
open Interleavings

inductive WideChar
  | scalar (c : Char)
  | surrogate (half : Fin 2048)
  deriving DecidableEq

abbrev WideText := List WideChar

def WideChar.isScalar : WideChar → Bool
  | .scalar _ => true
  | .surrogate _ => false

def WideChar.bytes : WideChar → Str
  | .scalar c => String.utf8EncodeChar c
  | .surrogate _ => [0xEF, 0xBF, 0xBD]

def lossy (t : WideText) : Str := t.flatMap WideChar.bytes

def WellFormed (t : WideText) : Prop := ∀ c ∈ t, c.isScalar = true

instance (t : WideText) : Decidable (WellFormed t) :=
  inferInstanceAs (Decidable (∀ c ∈ t, c.isScalar = true))

def strict (t : WideText) : Option Str := if WellFormed t then some (lossy t) else none

/-- Node replaces what UTF-8 cannot hold, Python raises an exception. -/
def encode : Sdk → WideText → Option Str
  | .typescript, t => some (lossy t)
  | .python, t => strict t

def ackText : AckMode → Str
  | .none => lit "0"
  | .leader => lit "1"
  | .all => lit "all"

/-- `buildCommandLine` -/
def commandLine (correlationID command args : Str) : Str :=
  version ++ 124 :: (correlationID ++ 124 :: (command ++ 124 :: args))

def produceArgs (topic key value : Str) (mode : AckMode) : Str :=
  topic ++ 32 :: (key ++ 58 :: (value ++ 32 :: (lit "acks=" ++ ackText mode)))

/-- What `produce` writes to the socket with its `seq`-th command. -/
def produceBytes (sdk : Sdk) (seq : ℕ) (topic key value : WideText) (mode : AckMode) :
    Option Str :=
  match encode sdk topic, encode sdk key, encode sdk value with
  | some topic, some key, some value =>
      some (commandLine (itoa seq) (lit "PRODUCE") (produceArgs topic key value mode) ++ [10])
  | _, _, _ => none

/-- A record as a `PRODUCE` request describes it. -/
structure Produced where
  topic : Str
  key : Str
  value : Str
  mode : AckMode
  deriving DecidableEq

/-- The arguments as `handleProduce` reads them. -/
def readProduce : List Str → Option Produced
  | topic :: message :: rest =>
      if 1 < rest.length then none
      else
        match splitN [58] 2 message with
        | [key, value] => (readAckMode rest).map (fun mode => ⟨topic, key, value, mode⟩)
        | _ => none
  | _ => none

def reading (line : Str) : Option Produced :=
  match parseRequest line with
  | .error _ => none
  | .ok req => if req.command = lit "PRODUCE" then readProduce req.args else none

def carryOut (env : Surroundings) (req : Request) (p : Produced) : Handler Str := do
  match ← ensureTopicMetadata env p.topic with
  | .error e => pure (badRequest req e)
  | .ok md =>
      if md.partitions.keys = [] then pure (badRequest req (lit "topic has no partitions"))
      else produceTo env req p.mode p.topic p.key p.value md

theorem readProduce_eq_some {args : List Str} {p : Produced} (h : readProduce args = some p) :
    ∃ message rest, args = p.topic :: message :: rest ∧ rest.length ≤ 1 ∧
      splitN [58] 2 message = [p.key, p.value] ∧ readAckMode rest = some p.mode := by
  unfold readProduce at h
  split at h
  · rename_i topic message rest
    split at h
    · cases h
    · rename_i hrest
      split at h
      · rename_i key value hsplit
        obtain ⟨mode, hmode, rfl⟩ := Option.map_eq_some_iff.mp h
        exact ⟨message, rest, rfl, by omega, hsplit, hmode⟩
      · cases h
  · cases h

/-- The handler does what it has read. -/
theorem handleProduce_read (env : Surroundings) {req : Request} {p : Produced}
    (h : readProduce req.args = some p) : handleProduce env req = carryOut env req p := by
  obtain ⟨message, rest, hargs, hrest, hsplit, hmode⟩ := readProduce_eq_some h
  have hshort : ¬ 1 < rest.length := by omega
  simp only [handleProduce, hargs, hshort, if_false, hsplit, hmode]
  rfl

/-- Arguments that cannot be read are answered as a bad request. -/
theorem handleProduce_refused {env : Surroundings} {req : Request}
    (h : readProduce req.args = none) {b b' : Broker} {response : Str}
    (hrun : (handleProduce env req).run b = .ok (b', response)) :
    ∃ message, response = badRequest req message := by
  have hpure : ∀ message : Str, (pure (badRequest req message) : Handler Str).run b =
      .ok (b', response) → ∃ message, response = badRequest req message := by
    intro message hdone
    cases hdone
    exact ⟨message, rfl⟩
  unfold handleProduce at hrun
  unfold readProduce at h
  split at h
  · rename_i topic message rest hargs
    simp only [hargs] at hrun
    split at hrun
    · exact hpure _ hrun
    · rename_i hrest
      rw [if_neg hrest] at h
      split at h
      · rename_i key value hsplit
        simp only [hsplit] at hrun
        have hmode := Option.map_eq_none_iff.mp h
        obtain ⟨b₁, result, -, hnext⟩ := Program.run_bind_ok hrun
        cases result with
        | error e =>
          cases hnext
          exact ⟨e, rfl⟩
        | ok md =>
          dsimp only at hnext
          split at hnext
          · cases hnext
            exact ⟨_, rfl⟩
          · rw [hmode] at hnext
            cases hnext
            exact ⟨_, rfl⟩
      · rename_i hother
        split at hrun
        · rename_i key value hsplit
          exact absurd hsplit (hother key value)
        · exact hpure _ hrun
  · rename_i hother
    split at hrun
    · rename_i topic message rest hargs
      exact absurd hargs (hother topic message rest)
    · exact hpure _ hrun

theorem bar_clear : ∀ w ∈ spaces, (124 : UInt8) ∉ w := by decide

/-- `ParseRequest` for any case mapping of the command. -/
def parseWith (upper : Str → Str) (line : Str) : Except Str Request :=
  match splitN [124] 4 (trimSpace line) with
  | [versionText, correlationText, commandText, argText] =>
      let correlationID := trimSpace correlationText
      let command := upper (trimSpace commandText)
      let argLine := trimSpace argText
      if trimSpace versionText ≠ version then .error (lit "unsupported version")
      else if correlationID = [] then .error (lit "correlation id required")
      else if command = [] then .error (lit "command required")
      else .ok ⟨trimSpace versionText, correlationID, command,
        if argLine = [] then [] else fields argLine⟩
  | _ => .error (lit "expected format V1|<correlation_id>|<command>|<args>")

structure Heads (upper : Str → Str) (correlationID command : Str) : Prop where
  id_ne : correlationID ≠ []
  id_trimmed : trimSpace correlationID = correlationID
  id_bar : (124 : UInt8) ∉ correlationID
  command_ne : command ≠ []
  command_trimmed : trimSpace command = command
  command_upper : upper command = command
  command_bar : (124 : UInt8) ∉ command

theorem trimSpace_commandLine (correlationID command args : Str) :
    trimSpace (commandLine correlationID command args) =
      commandLine correlationID command (trimRight args) := by
  have hversion : version = 86 :: [49] := by decide
  have hleft : trimLeft (commandLine correlationID command args) =
      commandLine correlationID command args := by
    rw [commandLine, hversion, List.cons_append]
    exact trimLeft_letter (by decide) _
  rw [trimSpace, hleft, commandLine, commandLine]
  have hright := trimRight_append bar_clear
    (version ++ 124 :: (correlationID ++ 124 :: command)) args
  simpa only [List.append_assoc, List.cons_append] using hright

/-- The arguments of a line are its words, and an empty argument line has none. -/
theorem words_trimSpace (args : Str) :
    (if trimSpace args = [] then [] else fields (trimSpace args)) = fields args := by
  split
  · rename_i hnil
    rw [← fields_trimSpace, hnil]
    rfl
  · exact fields_trimSpace args

/-- A request line with three plain parts is read as its words. -/
theorem parseWith_commandLine {upper : Str → Str} {correlationID command : Str}
    (h : Heads upper correlationID command) (args : Str) :
    parseWith upper (commandLine correlationID command args) =
      .ok ⟨version, correlationID, command, fields args⟩ := by
  have htrimVersion : trimSpace version = version := by decide
  have hsplit : splitN [124] 4 (commandLine correlationID command (trimRight args)) =
      [version, correlationID, command, trimRight args] := by
    rw [commandLine, splitN_cons 124 2 _ _ (by decide), splitN_cons 124 1 _ _ h.id_bar,
      splitN_cons 124 0 _ _ h.command_bar]
    rfl
  simp only [parseWith, trimSpace_commandLine, hsplit, htrimVersion, h.id_trimmed,
    h.command_trimmed, h.command_upper, words_trimSpace, fields_trimRight, h.id_ne, h.command_ne,
    ne_eq, not_true_eq_false, if_false]

theorem parseRequest_commandLine (seq : ℕ) (args : Str) :
    parseRequest (commandLine (itoa seq) (lit "PRODUCE") args) =
      .ok ⟨version, itoa seq, lit "PRODUCE", fields args⟩ := by
  have hheads : Heads toUpper (itoa seq) (lit "PRODUCE") :=
    { id_ne := itoa_ne_nil seq
      id_trimmed := trimSpace_spaceFree (spaceFree_itoa seq)
      id_bar := itoa_not_mem seq 124 (by decide) (by decide)
      command_ne := by decide
      command_trimmed := by decide
      command_upper := by decide
      command_bar := by decide }
  exact parseWith_commandLine hheads args

def firstLine (s : Str) : Str := s.takeWhile (fun c => c ≠ 10)

theorem firstLine_no_newline (s : Str) : (10 : UInt8) ∉ firstLine s := by
  intro hmem
  have := List.mem_takeWhile_imp hmem
  simp at this

theorem exists_after_firstLine (s : Str) : ∃ rest, s ++ [10] = firstLine s ++ 10 :: rest := by
  have hsplit := List.takeWhile_append_dropWhile (p := fun c : UInt8 => decide (c ≠ 10)) (l := s)
  cases hdrop : s.dropWhile (fun c => decide (c ≠ 10)) with
  | nil =>
    rw [hdrop, List.append_nil] at hsplit
    exact ⟨[], by rw [firstLine, hsplit]⟩
  | cons c rest =>
    have hc : c = 10 := by
      have hhead := List.head?_dropWhile_not (fun c : UInt8 => decide (c ≠ 10)) s
      rw [hdrop] at hhead
      simpa using hhead
    refine ⟨rest ++ [10], ?_⟩
    rw [← List.cons_append, ← hc, ← List.append_assoc, firstLine, ← hdrop, hsplit]

theorem firstLine_eq_self {s : Str} (h : (10 : UInt8) ∉ s) : firstLine s = s := by
  rw [firstLine, List.takeWhile_eq_self_iff]
  intro c hc
  have hne : c ≠ 10 := fun heq => h (heq ▸ hc)
  simpa using hne

theorem commandLine_append (correlationID command a b : Str) :
    commandLine correlationID command (a ++ b) = commandLine correlationID command a ++ b := by
  simp [commandLine]

theorem newline_not_mem_commandLine (seq : ℕ) {args : Str} (h : (10 : UInt8) ∉ args) :
    (10 : UInt8) ∉ commandLine (itoa seq) (lit "PRODUCE") args := by
  have hversion : (10 : UInt8) ∉ version := by decide
  have hcommand : (10 : UInt8) ∉ lit "PRODUCE" := by decide
  have hid := itoa_not_mem seq 10 (by decide) (by decide)
  simp [commandLine, hversion, hcommand, hid, h]

theorem dropCR_commandLine (correlationID command args : Str) :
    dropCR (commandLine correlationID command args) =
      commandLine correlationID command (dropCR args) := by
  rcases List.eq_nil_or_concat args with rfl | ⟨init, last, rfl⟩
  · have hlast : commandLine correlationID command [] =
        version ++ 124 :: (correlationID ++ 124 :: command) ++ [124] := by
      simp [commandLine]
    rw [hlast, dropCR, List.getLast?_concat]
    exact hlast.symm
  · rw [List.concat_eq_append, commandLine_append, dropCR, dropCR, List.getLast?_concat,
      List.getLast?_concat, List.dropLast_concat, List.dropLast_concat]
    split
    · rfl
    · rw [commandLine_append]

theorem fields_dropCR (s : Str) : fields (dropCR s) = fields s := by
  unfold dropCR
  split
  · rename_i hlast
    obtain ⟨init, rfl⟩ : ∃ init, s = init ++ [13] := by
      rcases List.eq_nil_or_concat s with rfl | ⟨init, last, rfl⟩
      · simp at hlast
      · rw [List.concat_eq_append, List.getLast?_concat] at hlast
        exact ⟨init, by rw [List.concat_eq_append, Option.some.inj hlast]⟩
    rw [List.dropLast_concat, fields_concat_space (by decide)]
  · rfl

/-- What the broker reads from the first line of a request. -/
theorem reading_firstLine (seq : ℕ) (args : Str) :
    reading (dropCR (commandLine (itoa seq) (lit "PRODUCE") args)) = readProduce (fields args) := by
  rw [dropCR_commandLine, reading, parseRequest_commandLine]
  simp only [if_true, fields_dropCR]

def produceRequest (seq : ℕ) (args : Str) : Request :=
  ⟨version, itoa seq, lit "PRODUCE", fields args⟩

theorem handleLine_command (env : Surroundings) (seq : ℕ) (args : Str) :
    handleLine env (dropCR (commandLine (itoa seq) (lit "PRODUCE") args)) =
      handleProduce env (produceRequest seq args) := by
  rw [dropCR_commandLine, handleLine, parseRequest_commandLine, fields_dropCR]
  simp only [handleRequest, if_true, produceRequest]

/-- The lines that reach the broker, with the first of them in front. -/
theorem scanLines_command (seq : ℕ) (args : Str) :
    ∃ rest, (args ++ [10] = firstLine args ++ 10 :: rest) ∧
      scanLines (commandLine (itoa seq) (lit "PRODUCE") args ++ [10]) =
        if fits (commandLine (itoa seq) (lit "PRODUCE") (firstLine args)) then
          dropCR (commandLine (itoa seq) (lit "PRODUCE") (firstLine args)) :: scanLines rest
        else [] := by
  obtain ⟨rest, hrest⟩ := exists_after_firstLine args
  refine ⟨rest, hrest, ?_⟩
  rw [← commandLine_append, hrest, commandLine_append]
  exact scanLines_append (newline_not_mem_commandLine seq (firstLine_no_newline args)) rest

def AckOption (option : Str) : Prop :=
  ∃ name mode, option = name ++ 61 :: mode ∧ 61 ∉ name ∧ toLower name = lit "acks" ∧
    (toLower mode = lit "0" ∨ toLower mode = lit "1" ∨ toLower mode = lit "all")

/-- Words that the broker takes for a record: two, the second with a colon, and
perhaps an option. -/
def LooksProduced (words : List Str) : Prop :=
  ∃ topic message options, words = topic :: message :: options ∧ 58 ∈ message ∧
    (options = [] ∨ ∃ option, options = [option] ∧ AckOption option)

/-- The options that name an acknowledgement mode. -/
theorem readAckMode_isSome_iff (option : Str) (rest : List Str) :
    (readAckMode (option :: rest)).isSome ↔ AckOption option := by
  unfold readAckMode AckOption
  dsimp only
  by_cases hmem : (61 : UInt8) ∈ option
  · obtain ⟨name, mode, rfl, hname⟩ := List.eq_append_cons_of_mem hmem
    have hsplit : splitN [61] 2 (name ++ 61 :: mode) = [name, mode] :=
      splitN_two_iff.mpr ⟨hname, rfl⟩
    have hunique : ∀ name' mode', name ++ 61 :: mode = name' ++ 61 :: mode' → 61 ∉ name' →
        name' = name ∧ mode' = mode := by
      intro name' mode' heq hname'
      have hagain := splitN_two_iff.mpr ⟨hname', heq⟩
      rw [hsplit] at hagain
      simpa [eq_comm] using hagain
    rw [hsplit]
    dsimp only
    constructor
    · intro hsome
      refine ⟨name, mode, rfl, hname, ?_⟩
      split at hsome
      · simp at hsome
      · rename_i hacks
        refine ⟨not_not.mp hacks, ?_⟩
        split at hsome
        · exact Or.inl ‹_›
        · split at hsome
          · exact Or.inr (Or.inl ‹_›)
          · split at hsome
            · exact Or.inr (Or.inr ‹_›)
            · simp at hsome
    · rintro ⟨name', mode', heq, hname', hacks, hmode⟩
      obtain ⟨rfl, rfl⟩ := hunique name' mode' heq hname'
      rw [if_neg (not_not.mpr hacks)]
      split
      · rfl
      · split
        · rfl
        · split
          · rfl
          · rename_i h0 h1 hall
            rcases hmode with h | h | h
            · exact absurd h h0
            · exact absurd h h1
            · exact absurd h hall
  · have hnone : splitN [61] 2 option = [option] := by
      refine splitN_none [61] 1 option ?_
      intro hinside
      exact hmem (hinside.subset (List.mem_singleton_self 61))
    rw [hnone]
    refine iff_of_false (by simp) ?_
    rintro ⟨name, mode, rfl, -⟩
    exact hmem (by simp)

/-- The words that are taken for a record. -/
theorem readProduce_isSome_iff (words : List Str) :
    (readProduce words).isSome ↔ LooksProduced words := by
  constructor
  · intro hsome
    obtain ⟨p, hp⟩ := Option.isSome_iff_exists.mp hsome
    obtain ⟨message, rest, rfl, hrest, hsplit, hmode⟩ := readProduce_eq_some hp
    obtain ⟨-, hmessage⟩ := splitN_two_iff.mp hsplit
    refine ⟨p.topic, message, rest, rfl, by simp [hmessage], ?_⟩
    cases rest with
    | nil => exact Or.inl rfl
    | cons option more =>
      obtain rfl : more = [] := List.eq_nil_of_length_eq_zero (by simpa using hrest)
      exact Or.inr ⟨option, rfl, (readAckMode_isSome_iff option []).mp (by rw [hmode]; rfl)⟩
  · rintro ⟨topic, message, options, rfl, hcolon, hoptions⟩
    obtain ⟨key, value, rfl, hkey⟩ := List.eq_append_cons_of_mem hcolon
    have hsplit : splitN [58] 2 (key ++ 58 :: value) = [key, value] :=
      splitN_two_iff.mpr ⟨hkey, rfl⟩
    rcases hoptions with rfl | ⟨option, rfl, hoption⟩
    · simp [readProduce, hsplit, readAckMode]
    · have hmode := (readAckMode_isSome_iff option []).mpr hoption
      simpa [readProduce, hsplit] using hmode

end Flux.ProduceRequests
