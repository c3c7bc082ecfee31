import Flux.Checksums
import Mathlib.Data.List.TakeWhile

/-!
The text format of a segment file: one record a line, written with its offset,
its timestamp and the checksum of its value, and replayed by a line scanner
that skips what it cannot parse and gives up at a line beyond its buffer.
-/
namespace Flux.LogLines

open GoRuntime GoStrings Checksums Cuts

structure Record where
  offset : Int
  timestamp : Int
  value : Str
  deriving DecidableEq, Repr

variable {blocks : List Str} {tail : Str} {r : Record} {records : List Record}

/-- `fmt.Sprintf("%d|%d|%08x|%s\n", offset, timestamp, checksum, value)` without its newline. -/
def formatRecord (r : Record) : Str :=
  itoa r.offset ++ 124 :: (itoa r.timestamp ++ 124 :: (hexPad8 (checksumIEEE r.value) ++
    124 :: r.value))

def formatLine (r : Record) : Str := formatRecord r ++ [10]

def parseLogLine (line : Str) : Option Record :=
  match splitN [124] 4 line with
  | [offsetText, timestampText, providedChecksum, value] =>
      match atoi offsetText, atoi timestampText with
      | some offset, some timestamp =>
          if equalFold (hexPad8 (checksumIEEE value)) providedChecksum
          then some ⟨offset, timestamp, value⟩ else none
      | _, _ => none
  | _ => none

/-- `bufio.MaxScanTokenSize` -/
def maxScanTokenSize : ℕ := 64 * 1024

def dropCR (line : Str) : Str := if line.getLast? = some 13 then line.dropLast else line

/-- The tokens of a `bufio.Scanner` splitting lines: the scan ends at a line
whose bytes fill the buffer before its newline, or at the end of the text. -/
def scanLines (text : Str) : List Str :=
  let pieces := text.splitOn 10
  let lines := if pieces.getLast? = some [] then pieces.dropLast else pieces
  (lines.takeWhile (fun line => line.length < maxScanTokenSize)).map dropCR

/-- The records that `loadSegment` replays from the text of one segment file. -/
def replay (text : Str) : List Record := (scanLines text).filterMap parseLogLine

def fits (line : Str) : Bool := decide (line.length < maxScanTokenSize)

/-- The scan of a text goes on after its first line, if that fits the buffer. -/
theorem scanLines_append {line : Str} (h : (10 : UInt8) ∉ line) (rest : Str) :
    scanLines (line ++ 10 :: rest) = if fits line then dropCR line :: scanLines rest else [] := by
  have hne : rest.splitOn 10 ≠ [] := List.splitOn_ne_nil 10 rest
  obtain ⟨piece, pieces, hpieces⟩ := List.exists_cons_of_ne_nil hne
  unfold scanLines
  rw [List.splitOn_append_cons_self_of_not_mem h, hpieces]
  dsimp only
  rw [List.getLast?_cons_cons, List.dropLast_cons_cons]
  split
  · rw [List.takeWhile_cons]
    unfold fits
    split
    · rfl
    · rfl
  · rw [List.takeWhile_cons]
    unfold fits
    split
    · rfl
    · rfl

def torn (blocks : List Str) (tail : Str) : Str :=
  blocks.flatMap (fun line => line ++ [10]) ++ tail

theorem splitOn_torn (hblocks : ∀ line ∈ blocks, (10 : UInt8) ∉ line)
    (htail : (10 : UInt8) ∉ tail) : (torn blocks tail).splitOn 10 = blocks ++ [tail] := by
  induction blocks with
  | nil => exact List.splitOn_eq_singleton htail
  | cons line rest ih =>
    have hline : (10 : UInt8) ∉ line := hblocks line (List.mem_cons_self ..)
    have hrest := ih (fun l hl => hblocks l (List.mem_cons_of_mem _ hl))
    rw [torn] at hrest
    rw [torn, List.flatMap_cons, List.append_assoc, List.append_assoc, List.singleton_append,
      List.splitOn_append_cons_self_of_not_mem hline, hrest, List.cons_append]

/-- The lines of the text that the scanner reaches; an empty last one is none. -/
theorem scanLines_torn (hblocks : ∀ line ∈ blocks, (10 : UInt8) ∉ line)
    (htail : (10 : UInt8) ∉ tail) :
    scanLines (torn blocks tail) =
      ((blocks ++ if tail = [] then [] else [tail]).takeWhile fits).map dropCR := by
  unfold scanLines
  rw [splitOn_torn hblocks htail]
  dsimp only
  rw [List.getLast?_concat]
  by_cases hnil : tail = []
  · rw [if_pos (by rw [hnil]), if_pos hnil, List.dropLast_concat, List.append_nil]
    rfl
  · rw [if_neg (fun h => hnil (Option.some.inj h)), if_neg hnil]
    rfl

/-- A text of complete lines that fit the buffer is read line by line. -/
theorem replay_complete (hblocks : ∀ line ∈ blocks, (10 : UInt8) ∉ line)
    (hfits : ∀ line ∈ blocks, fits line = true) :
    replay (torn blocks []) = (blocks.map dropCR).filterMap parseLogLine := by
  rw [replay, scanLines_torn hblocks List.not_mem_nil, if_pos rfl, List.append_nil,
    List.takeWhile_eq_self_iff.mpr hfits]

theorem dropCR_eq_self (line : Str) (h : line.getLast? ≠ some 13) : dropCR line = line := by
  simp [dropCR, h]

structure Loggable (r : Record) : Prop where
  offset_range : InInt64 r.offset
  timestamp_range : InInt64 r.timestamp
  no_newline : (10 : UInt8) ∉ r.value
  no_return : r.value.getLast? ≠ some 13
  fits : (formatLine r).length ≤ maxScanTokenSize

theorem hexPad8_not_mem (n : ℕ) (c : UInt8) (hlow : c.toNat < 48 ∨ 102 < c.toNat) :
    c ∉ hexPad8 n := by
  intro hc
  rcases mem_hexPad8 n c hc with h | h <;> omega

/-- The line of a record is at most 52 bytes longer than its value. -/
theorem length_formatLine_le (hoff : InInt64 r.offset) (hts : InInt64 r.timestamp) :
    (formatLine r).length ≤ r.value.length + 52 := by
  have hoffset := length_itoa_le hoff
  have htimestamp := length_itoa_le hts
  have hchecksum : (hexPad8 (checksumIEEE r.value)).length = 8 :=
    length_hexPad8 (UInt32.toNat_lt _)
  simp only [formatLine, formatRecord, List.length_append, List.length_cons, List.length_nil]
  omega

theorem splitN_formatRecord (r : Record) :
    splitN [124] 4 (formatRecord r) =
      [itoa r.offset, itoa r.timestamp, hexPad8 (checksumIEEE r.value), r.value] := by
  have hoff := itoa_not_mem r.offset 124 (by decide) (by decide)
  have hts := itoa_not_mem r.timestamp 124 (by decide) (by decide)
  have hhex := hexPad8_not_mem (checksumIEEE r.value) 124 (by decide)
  rw [formatRecord, splitN_cons 124 2 _ _ hoff, splitN_cons 124 1 _ _ hts,
    splitN_cons 124 0 _ _ hhex]
  rfl

/-- A line that was written is parsed back into its record. -/
theorem parseLogLine_formatRecord (r : Record) (hoff : InInt64 r.offset)
    (hts : InInt64 r.timestamp) : parseLogLine (formatRecord r) = some r := by
  simp [parseLogLine, splitN_formatRecord, atoi_itoa, hoff, hts, equalFold]

theorem formatRecord_no_newline (r : Record) (h : (10 : UInt8) ∉ r.value) :
    (10 : UInt8) ∉ formatRecord r := by
  have hoff := itoa_not_mem r.offset 10 (by decide) (by decide)
  have hts := itoa_not_mem r.timestamp 10 (by decide) (by decide)
  have hhex := hexPad8_not_mem (checksumIEEE r.value) 10 (by decide)
  simp [formatRecord, hoff, hts, hhex, h]

theorem formatRecord_getLast (r : Record) (h : r.value.getLast? ≠ some 13) :
    (formatRecord r).getLast? ≠ some 13 := by
  have hshape : formatRecord r = (itoa r.offset ++ 124 :: (itoa r.timestamp ++
      124 :: hexPad8 (checksumIEEE r.value))) ++ 124 :: r.value := by
    simp [formatRecord]
  rw [hshape, List.getLast?_append]
  cases hv : r.value.getLast? with
  | none =>
    have hnil : r.value = [] := by simpa using hv
    simp [hnil]
  | some c =>
    rw [hv] at h
    rw [List.getLast?_cons, hv]
    simpa using h

theorem torn_formatLine (records : List Record) (tail : Str) :
    records.flatMap formatLine ++ tail = torn (records.map formatRecord) tail := by
  rw [torn, List.flatMap_map]
  rfl

theorem formatted (h : ∀ r ∈ records, Loggable r) :
    (∀ line ∈ records.map formatRecord, (10 : UInt8) ∉ line) ∧
      (∀ line ∈ records.map formatRecord, fits line = true) := by
  constructor
  · intro line hline
    obtain ⟨r, hr, rfl⟩ := List.mem_map.mp hline
    exact formatRecord_no_newline r (h r hr).no_newline
  · intro line hline
    obtain ⟨r, hr, rfl⟩ := List.mem_map.mp hline
    have hfits := (h r hr).fits
    simp only [formatLine, List.length_append, List.length_singleton] at hfits
    simp only [fits, decide_eq_true_eq]
    omega

theorem parse_formatted (h : Loggable r) : parseLogLine (dropCR (formatRecord r)) = some r := by
  rw [dropCR_eq_self _ (formatRecord_getLast r h.no_return)]
  exact parseLogLine_formatRecord r h.offset_range h.timestamp_range

theorem read_formatted (h : ∀ r ∈ records, Loggable r) :
    ((records.map formatRecord).map dropCR).filterMap parseLogLine = records := by
  rw [List.map_map, List.filterMap_map]
  exact (List.filterMap_congr (fun r hr => parse_formatted (h r hr))).trans List.filterMap_some

/-- Replaying the lines of loggable records gives back exactly those records. -/
theorem replay_flatMap_formatLine (records : List Record) (h : ∀ r ∈ records, Loggable r) :
    replay (records.flatMap formatLine) = records := by
  obtain ⟨hlines, hfits⟩ := formatted h
  rw [← List.append_nil (records.flatMap formatLine), torn_formatLine,
    replay_complete hlines hfits, read_formatted h]

end Flux.LogLines
