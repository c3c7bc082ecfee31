import Flux.CaseMapping
import Flux.ProduceRequests

/-!
Request lines written and read back. A line whose correlation id and command
stand as the broker keeps them is read as exactly those and the words of its
arguments, and a request that was read from any line is written so that it is
read back as itself.
-/
namespace Flux.RequestLines

open GoStrings Cuts Protocol WhiteSpace CaseMapping ProduceRequests

def render (req : Request) : Str :=
  commandLine req.correlationID req.command (join (lit " ") req.args)

def Words (args : List Str) : Prop := ∀ a ∈ args, a ≠ [] ∧ SpaceFree a

theorem fields_join {args : List Str} (h : Words args) : fields (join (lit " ") args) = args := by
  have hblank : lit " " ∈ spaces := by decide
  induction args with
  | nil => rfl
  | cons a args ih =>
    have ha := h a (List.mem_cons_self ..)
    have hrest : Words args := fun b hb => h b (List.mem_cons_of_mem _ hb)
    cases args with
    | nil =>
      rw [join, List.intercalate_singleton]
      exact fields_spaceFree ha.2 ha.1
    | cons b args =>
      have hjoin : join (lit " ") (a :: b :: args) =
          a ++ (lit " " ++ join (lit " ") (b :: args)) := by
        simp [join, List.intercalate, List.intersperse]
      rw [hjoin, fields_append_space hblank, fields_spaceFree ha.2 ha.1, ih hrest]
      rfl

theorem parseWith_render {upper : Str → Str} {req : Request} (hversion : req.version = version)
    (hheads : Heads upper req.correlationID req.command) (hargs : Words req.args) :
    parseWith upper (render req) = .ok req := by
  rw [render, parseWith_commandLine hheads, fields_join hargs, ← hversion]

theorem not_mem_trimSpace {s : Str} {b : UInt8} (h : b ∉ s) : b ∉ trimSpace s :=
  fun hmem => h ((trimSpace_spec s).1.subset hmem)

/-- What the parser has made sure of when it accepts a line. -/
theorem parseWith_accepts {upper : Str → Str} (h : UpperCase upper) {line : Str} {req : Request}
    (hparse : parseWith upper line = .ok req) :
    req.version = version ∧ Heads upper req.correlationID req.command ∧ Words req.args := by
  unfold parseWith at hparse
  split at hparse
  · rename_i versionText correlationText commandText argText hsplit
    dsimp only at hparse
    split at hparse
    · cases hparse
    split at hparse
    · cases hparse
    split at hparse
    · cases hparse
    rename_i hversion hid hcommand
    cases hparse
    obtain ⟨-, rest, -, hrest⟩ := splitN_letter_cons hsplit
    obtain ⟨hidBar, rest', -, hrest'⟩ := splitN_letter_cons hrest
    obtain ⟨hcommandBar, -⟩ := splitN_letter_cons hrest'
    refine ⟨not_not.mp hversion, ?_, ?_⟩
    · exact
        { id_ne := hid
          id_trimmed := trimSpace_trimSpace correlationText
          id_bar := not_mem_trimSpace hidBar
          command_ne := hcommand
          command_trimmed := h.trimmed _ (trimSpace_trimSpace commandText)
          command_upper := h.again _
          command_bar := h.bar _ (not_mem_trimSpace hcommandBar) }
    · intro a ha
      dsimp only at ha
      rw [words_trimSpace] at ha
      exact mem_fields ha
  · cases hparse

/-- The broker's parser and the encoders are inverse to each other on the requests that
the parser gives, whatever the case mapping does to letters outside ASCII. -/
theorem request_lines_round_trip (upper : Str → Str) (h : UpperCase upper) :
    (∀ (correlationID command : Str) (args : List Str), correlationID ≠ [] →
      trimSpace correlationID = correlationID → (124 : UInt8) ∉ correlationID → command ≠ [] →
      upper command = command → trimSpace command = command → (124 : UInt8) ∉ command →
      (∀ a ∈ args, a ≠ [] ∧ SpaceFree a) →
      parseWith upper (render ⟨version, correlationID, command, args⟩) =
        .ok ⟨version, correlationID, command, args⟩) ∧
    ∀ (line : Str) (req : Request), parseWith upper line = .ok req →
      parseWith upper (render req) = .ok req := by
  constructor
  · intro correlationID command args hid hidTrimmed hidBar hcommand hupper htrimmed hbar hargs
    have hheads : Heads upper correlationID command :=
      { id_ne := hid
        id_trimmed := hidTrimmed
        id_bar := hidBar
        command_ne := hcommand
        command_trimmed := htrimmed
        command_upper := hupper
        command_bar := hbar }
    exact parseWith_render rfl hheads hargs
  · intro line req hparse
    obtain ⟨hversion, hheads, hargs⟩ := parseWith_accepts h hparse
    exact parseWith_render hversion hheads hargs

theorem request_lines_round_trip_broker :
    (∀ (correlationID command : Str) (args : List Str), correlationID ≠ [] →
      trimSpace correlationID = correlationID → (124 : UInt8) ∉ correlationID → command ≠ [] →
      toUpper command = command → trimSpace command = command → (124 : UInt8) ∉ command →
      (∀ a ∈ args, a ≠ [] ∧ SpaceFree a) →
      parseRequest (render ⟨version, correlationID, command, args⟩) =
        .ok ⟨version, correlationID, command, args⟩) ∧
    ∀ (line : Str) (req : Request), parseRequest line = .ok req →
      parseRequest (render req) = .ok req :=
  request_lines_round_trip toUpper upperCase_toUpper

example : parseRequest (lit " V1| 7 | produce |t  k:a|b ") =
    .ok ⟨version, lit "7", lit "PRODUCE", [lit "t", lit "k:a|b"]⟩ := by decide

end Flux.RequestLines
