import Flux.RecordReads
import Flux.ResponseLines

/-!
The broker-to-broker fetch response against its decoder. The payload puts a
free-form topic before its fields and joins free-form values with commas, and
the decoder takes the first occurrence of a field name and splits at commas. So
a response is read back exactly if the topic hides no field and no value holds a
comma, up to topics that happen to spell out the fields they hide.
-/
namespace Flux.FetchCodec

open GoRuntime GoStrings Cuts Protocol TCPTransport PartitionStorage RecordReads ResponseLines

variable {records : List Message}

def toRecord (m : Message) : ReplicationRecord := ⟨m.offset, m.value⟩

def ItemSpells (item : Str) (r : ReplicationRecord) : Prop :=
  ∃ offsetText, (58 : UInt8) ∉ offsetText ∧ item = offsetText ++ 58 :: r.value ∧
    atoi offsetText = some r.offset

def Spells (text : Str) (records : List ReplicationRecord) : Prop :=
  List.Forall₂ ItemSpells ((text.splitOn 44).filter (fun item => item ≠ [])) records

theorem parseRecord_eq_ok_iff (item : Str) (r : ReplicationRecord) :
    parseRecord item = .ok r ↔ ItemSpells item r := by
  constructor
  · intro h
    cases hcut : cut [58] item with
    | none => simp [parseRecord, splitN, hcut] at h
    | some c =>
      obtain ⟨hcolon, hitem⟩ := (cut_letter_eq_some_iff 58 item c).mp hcut
      simp only [parseRecord, splitN, hcut] at h
      split at h
      · contradiction
      · rename_i offset hoffset
        cases h
        exact ⟨c.1, hcolon, hitem, hoffset⟩
  · rintro ⟨offsetText, hcolon, rfl, hoffset⟩
    have hsplit : splitN [58] 2 (offsetText ++ 58 :: r.value) = [offsetText, r.value] := by
      rw [splitN_cons 58 0 _ _ hcolon]
      rfl
    simp only [parseRecord, hsplit, hoffset]

theorem parseRecords_eq_ok_iff (text : Str) (records : List ReplicationRecord) :
    parseRecords text = .ok records ↔ Spells text records := by
  unfold parseRecords Spells
  rw [mapM_eq_ok_iff]
  simp only [parseRecord_eq_ok_iff]

section Fields

variable {key word rest : Str} {c : Str × Str}

theorem extract_here (hspace : (32 : UInt8) ∉ word) (hkey : (32 : UInt8) ∉ key)
    (hcut : cut (key ++ [61]) word = some c) :
    extractStringField (word ++ 32 :: rest) key = c.2 := by
  have hfield : (32 : UInt8) ∉ c.2 := by
    rw [cut_eq_some _ _ _ hcut] at hspace
    simp only [List.mem_append, not_or] at hspace
    exact hspace.2
  unfold extractStringField
  rw [cut_append_sep _ _ _ 32 (by simp) (by simp [hkey]), hcut]
  dsimp only
  rw [cut_letter_append 32 c.2 rest hfield]

theorem extract_later (hkey : (32 : UInt8) ∉ key) (hcut : cut (key ++ [61]) word = none) :
    extractStringField (word ++ 32 :: rest) key = extractStringField rest key := by
  unfold extractStringField
  rw [cut_append_sep _ _ _ 32 (by simp) (by simp [hkey]), hcut]
  cases cut (key ++ [61]) rest with
  | none => rfl
  | some c => rfl

theorem extract_last (hspace : (32 : UInt8) ∉ word) :
    extractStringField (key ++ 61 :: word) key = word := by
  have hcut : cut (key ++ [61]) (key ++ 61 :: word) = some ([], word) := by
    have := cut_self_append (key ++ [61]) word (by simp)
    simpa using this
  unfold extractStringField
  rw [hcut]
  dsimp only
  rw [cut_letter_none 32 word hspace]

end Fields

/-- The payload as words between spaces. -/
theorem fetchPayload_words (topic : Str) (partition followerID highWatermark : Int)
    (records : List Message) :
    fetchPayload topic partition followerID highWatermark records =
      (lit "topic=" ++ topic) ++ 32 :: ((lit "partition=" ++ itoa partition) ++ 32 ::
        ((lit "follower=" ++ itoa followerID) ++ 32 :: ((lit "hw" ++ 61 :: itoa highWatermark) ++
          32 :: (lit "records" ++ 61 :: renderRecords records)))) := by
  have hpartition : lit " partition=" = 32 :: lit "partition=" := by decide
  have hfollower : lit " follower=" = 32 :: lit "follower=" := by decide
  have hhw : lit " hw=" = 32 :: (lit "hw" ++ [61]) := by decide
  have hrecords : lit " records=" = 32 :: (lit "records" ++ [61]) := by decide
  simp [fetchPayload, hpartition, hfollower, hhw, hrecords]

section Payload

variable {topic : Str} (htopic : SpaceFree topic) (partition followerID highWatermark : Int)
  (records : List Message)

include htopic

theorem topicWord_space : (32 : UInt8) ∉ lit "topic=" ++ topic := by
  have hlit : (32 : UInt8) ∉ lit "topic=" := by decide
  simp [hlit, space_not_mem htopic]

/-- A field that the topic hides is read from the topic. -/
theorem extract_hidden {key : Str} (hkey : (32 : UInt8) ∉ key) {c : Str × Str} (rest : Str)
    (hcut : cut (key ++ [61]) (lit "topic=" ++ topic) = some (lit "topic=" ++ c.1, c.2)) :
    extractStringField ((lit "topic=" ++ topic) ++ 32 :: rest) key = c.2 := by
  show _ = (lit "topic=" ++ c.1, c.2).2
  exact extract_here (topicWord_space htopic) hkey hcut

theorem extract_hw :
    extractStringField (fetchPayload topic partition followerID highWatermark records)
        (lit "hw") =
      match cut (lit "hw=") topic with
      | some c => c.2
      | none => itoa highWatermark := by
  have hword : cut (lit "hw" ++ [61]) (lit "topic=" ++ topic) =
      (cut (lit "hw=") topic).map (fun c => (lit "topic=" ++ c.1, c.2)) :=
    cut_skip 104 (lit "w=") (lit "topic=") topic (by decide)
  rw [fetchPayload_words]
  cases hcut : cut (lit "hw=") topic with
  | some c =>
    rw [hcut] at hword
    exact extract_hidden htopic (by decide) _ hword
  | none =>
    rw [hcut] at hword
    have hpartition := itoa_not_mem partition 104 (by decide) (by decide)
    have hfollower := itoa_not_mem followerID 104 (by decide) (by decide)
    have hlits : (104 : UInt8) ∉ lit "partition=" ∧ (104 : UInt8) ∉ lit "follower=" := by decide
    have hspace := itoa_not_mem highWatermark 32 (by decide) (by decide)
    have hself := cut_self_append (lit "hw" ++ [61]) (itoa highWatermark) (by simp)
    rw [List.append_assoc, List.singleton_append] at hself
    rw [extract_later (by decide) hword,
      extract_later (by decide)
        (cut_of_letter_not_mem _ _ 104 (by decide) (by simp [hpartition, hlits])),
      extract_later (by decide)
        (cut_of_letter_not_mem _ _ 104 (by decide) (by simp [hfollower, hlits])),
      extract_here (by simp [hspace, show (32 : UInt8) ∉ lit "hw" by decide]) (by decide) hself]

theorem extract_records (hspace : (32 : UInt8) ∉ renderRecords records) :
    extractStringField (fetchPayload topic partition followerID highWatermark records)
        (lit "records") =
      match cut (lit "records=") topic with
      | some c => c.2
      | none => renderRecords records := by
  have hword : cut (lit "records" ++ [61]) (lit "topic=" ++ topic) =
      (cut (lit "records=") topic).map (fun c => (lit "topic=" ++ c.1, c.2)) :=
    cut_skip 114 (lit "ecords=") (lit "topic=") topic (by decide)
  rw [fetchPayload_words]
  cases hcut : cut (lit "records=") topic with
  | some c =>
    rw [hcut] at hword
    exact extract_hidden htopic (by decide) _ hword
  | none =>
    rw [hcut] at hword
    have hpartition := itoa_not_mem partition 99 (by decide) (by decide)
    have hfollower := itoa_not_mem followerID 99 (by decide) (by decide)
    have hhw := itoa_not_mem highWatermark 99 (by decide) (by decide)
    have hlits : (99 : UInt8) ∉ lit "partition=" ∧ (99 : UInt8) ∉ lit "follower=" ∧
      (99 : UInt8) ∉ lit "hw" := by decide
    rw [extract_later (by decide) hword,
      extract_later (by decide)
        (cut_of_letter_not_mem _ _ 99 (by decide) (by simp [hpartition, hlits])),
      extract_later (by decide)
        (cut_of_letter_not_mem _ _ 99 (by decide) (by simp [hfollower, hlits])),
      extract_later (by decide)
        (cut_of_letter_not_mem _ _ 99 (by decide) (by simp [hhw, hlits])),
      extract_last hspace]

end Payload

/-- What a value of a stored record and its offset can be. -/
structure Storable (m : Message) : Prop where
  offset : InInt64 m.offset
  value : SpaceFree m.value

theorem renderRecords_cons_cons (m m' : Message) (rest : List Message) :
    renderRecords (m :: m' :: rest) = renderRecord m ++ 44 :: renderRecords (m' :: rest) := by
  simp [renderRecords, join]

theorem not_mem_renderRecords (h : ∀ m ∈ records, Storable m) (x : UInt8)
    (hx : ∀ s, SpaceFree s → x ∉ s) (h45 : x ≠ 45) (hdigit : x.toNat < 48 ∨ 57 < x.toNat)
    (hcolon : x ≠ 58) (hcomma : x ≠ 44) : x ∉ renderRecords records := by
  have hitem : ∀ m, Storable m → x ∉ renderRecord m := by
    intro m hm
    simp [renderRecord, itoa_not_mem m.offset x h45 hdigit, hcolon, hx _ hm.value]
  induction records with
  | nil => simp [renderRecords, join]
  | cons m rest ih =>
    have hhead := hitem m (h m (List.mem_cons_self ..))
    have hrest := ih (fun m' hm' => h m' (List.mem_cons_of_mem _ hm'))
    cases rest with
    | nil => simpa [renderRecords, join] using hhead
    | cons m' rest =>
      rw [renderRecords_cons_cons]
      simp [hhead, hcomma, hrest]

theorem endsClear_renderRecords (h : ∀ m ∈ records, Storable m) (hne : records ≠ []) :
    EndsClear (renderRecords records) := by
  induction records with
  | nil => contradiction
  | cons m rest ih =>
    have hm := (h m (List.mem_cons_self ..)).value
    cases rest with
    | nil => exact ⟨itoa m.offset, 58, m.value, by simp [renderRecords, join, renderRecord],
        by decide, hm⟩
    | cons m' rest =>
      have hrest := ih (fun m'' hm'' => h m'' (List.mem_cons_of_mem _ hm'')) (by simp)
      rw [renderRecords_cons_cons]
      have := hrest.append (renderRecord m ++ [44])
      simpa using this

theorem itemSpells_renderRecord {m : Message} (h : Storable m) :
    ItemSpells (renderRecord m) (toRecord m) :=
  ⟨itoa m.offset, itoa_not_mem m.offset 58 (by decide) (by decide), rfl,
    atoi_itoa m.offset h.offset⟩

/-- Values without commas, and only those, can be told apart again. -/
theorem spells_renderRecords_iff (h : ∀ m ∈ records, Storable m) :
    Spells (renderRecords records) (records.map toRecord) ↔
      ∀ m ∈ records, (44 : UInt8) ∉ m.value := by
  constructor
  · intro hspells m hm
    obtain ⟨item, hitem, offsetText, -, rfl, -⟩ :=
      exists_piece hspells (List.mem_map_of_mem hm)
    have hcomma := not_mem_of_mem_splitOn 44 _ _ (List.mem_of_mem_filter hitem)
    simp only [List.mem_append, List.mem_cons, not_or] at hcomma
    exact hcomma.2.2
  · intro hcomma
    have hitems : ((renderRecords records).splitOn 44).filter (fun item => item ≠ []) =
        records.map renderRecord := by
      by_cases hnil : records = []
      · rw [hnil]
        decide
      · have hsplit : (renderRecords records).splitOn 44 = records.map renderRecord := by
          refine List.splitOn_intercalate 44 ?_ (by simpa using hnil)
          intro item hitem
          obtain ⟨m, hm, rfl⟩ := List.mem_map.mp hitem
          simp [renderRecord, hcomma m hm, itoa_not_mem m.offset 44 (by decide) (by decide)]
        rw [hsplit, List.filter_eq_self]
        intro item hitem
        obtain ⟨m, hm, rfl⟩ := List.mem_map.mp hitem
        simp [renderRecord]
    unfold Spells
    rw [hitems, List.forall₂_map_left_iff, List.forall₂_map_right_iff, List.forall₂_same]
    exact fun m hm => itemSpells_renderRecord (h m hm)

theorem endsClear_fetchPayload (topic : Str) (partition followerID highWatermark : Int)
    (h : ∀ m ∈ records, Storable m) :
    EndsClear (fetchPayload topic partition followerID highWatermark records) := by
  have hlast : EndsClear (lit " records=" ++ renderRecords records) := by
    by_cases hnil : records = []
    · rw [hnil]
      exact ⟨lit " records", 61, [], by decide, by decide, by decide⟩
    · exact (endsClear_renderRecords h hnil).append _
  unfold fetchPayload
  exact (((((((hlast.append _).append _).append _).append _).append _).append _).append _).append _

theorem newline_not_mem_fetchPayload {topic : Str} (htopic : SpaceFree topic)
    (partition followerID highWatermark : Int) (h : ∀ m ∈ records, Storable m) :
    (10 : UInt8) ∉ fetchPayload topic partition followerID highWatermark records := by
  have hrecords := not_mem_renderRecords h 10 (fun _ hs => newline_not_mem hs) (by decide)
    (by decide) (by decide) (by decide)
  have hdigits : ∀ n, (10 : UInt8) ∉ itoa n := fun n => itoa_not_mem n 10 (by decide) (by decide)
  have hlits : (10 : UInt8) ∉ lit "topic=" ++ lit " partition=" ++ lit " follower=" ++
    lit " hw=" ++ lit " records=" := by decide
  simp only [List.mem_append, not_or] at hlits
  simp [fetchPayload, newline_not_mem htopic, hdigits, hrecords, hlits]

/-- The topic hides no watermark, or one that reads the same. -/
def HwReadable (topic : Str) (highWatermark : Int) : Prop :=
  match cut (lit "hw=") topic with
  | none => True
  | some c => atoi c.2 = some highWatermark

/-- The topic hides no records and no value holds a comma, or the topic spells
out the records itself. -/
def RecordsReadable (topic : Str) (records : List Message) : Prop :=
  match cut (lit "records=") topic with
  | none => ∀ m ∈ records, (44 : UInt8) ∉ m.value
  | some c => Spells c.2 (records.map toRecord)

theorem extractIntField_eq_ok_iff (payload key : Str) (n : Int) :
    extractIntField payload key = .ok n ↔ atoi (extractStringField payload key) = some n := by
  unfold extractIntField
  dsimp only
  split
  · rename_i hnil
    rw [hnil]
    constructor
    · intro h
      contradiction
    · intro h
      exact absurd h (by decide +revert)
  · split
    · rename_i hnone
      simp [hnone]
    · rename_i m hsome
      simp [hsome]

theorem fetchResult_ok_iff (seq : ℕ) {payload : Str} (hclear : EndsClear payload)
    (hnewline : (10 : UInt8) ∉ payload) (result : FetchResult) :
    fetchResult (ok (itoa seq) payload) = .ok result ↔
      atoi (extractStringField payload (lit "hw")) = some result.highWatermark ∧
        Spells (extractStringField payload (lit "records")) result.records := by
  rw [← extractIntField_eq_ok_iff, ← parseRecords_eq_ok_iff]
  simp only [fetchResult, receive_ok seq hclear hnewline, parseOKPayload_okLine, bind,
    Except.bind, pure, Except.pure]
  cases extractIntField payload (lit "hw") with
  | error e => simp
  | ok n =>
    cases parseRecords (extractStringField payload (lit "records")) with
    | error e => simp
    | ok records =>
      obtain ⟨highWatermark, expected⟩ := result
      simp

/-- A fetch response gives back the watermark and the records it was built from
if and only if the topic hides no field and no value holds a comma, a topic that
spells out what it hides aside. -/
theorem fetch_roundTrip_iff (seq : ℕ) {topic : Str} (htopic : SpaceFree topic)
    (partition followerID : Int) {highWatermark : Int} (hhw : InInt64 highWatermark)
    {records : List Message} (hrecords : ∀ m ∈ records, Storable m) :
    fetchResult (ok (itoa seq)
        (fetchPayload topic partition followerID highWatermark records)) =
      .ok ⟨highWatermark, records.map toRecord⟩ ↔
    HwReadable topic highWatermark ∧ RecordsReadable topic records := by
  have hspace := not_mem_renderRecords hrecords 32 (fun _ hs => space_not_mem hs) (by decide)
    (by decide) (by decide) (by decide)
  rw [fetchResult_ok_iff seq (endsClear_fetchPayload topic partition followerID highWatermark
    hrecords) (newline_not_mem_fetchPayload htopic partition followerID highWatermark hrecords),
    extract_hw htopic, extract_records htopic _ _ _ _ hspace, HwReadable, RecordsReadable]
  refine and_congr ?_ ?_
  · cases cut (lit "hw=") topic with
    | none => simp [atoi_itoa highWatermark hhw]
    | some c => rfl
  · cases cut (lit "records=") topic with
    | none => exact spells_renderRecords_iff hrecords
    | some c => rfl

/-- Values with bars and colons under an ordinary topic come back. -/
theorem fetch_roundTrip_orders :
    fetchResult (ok (itoa 7) (fetchPayload (lit "orders") 0 1 3 [⟨0, lit "a:b|c"⟩, ⟨1, []⟩])) =
      .ok ⟨3, [⟨0, lit "a:b|c"⟩, ⟨1, []⟩]⟩ := by
  have hrecords : ∀ m ∈ [(⟨0, lit "a:b|c"⟩ : Message), ⟨1, []⟩], Storable m := by
    intro m hm
    simp only [List.mem_cons, List.not_mem_nil, or_false] at hm
    rcases hm with rfl | rfl
    · exact ⟨by decide, by decide⟩
    · exact ⟨by decide, by decide⟩
  have hreadable : RecordsReadable (lit "orders") [⟨0, lit "a:b|c"⟩, ⟨1, []⟩] := by
    have hcut : cut (lit "records=") (lit "orders") = none := by decide
    simp only [RecordsReadable, hcut]
    decide
  exact (fetch_roundTrip_iff 7 (by decide) 0 1 (by decide) hrecords).mpr ⟨trivial, hreadable⟩

/-- A comma in a value forges a record, and the topic can replace the watermark. -/
theorem fetch_forged :
    fetchResult (ok (itoa 7) (fetchPayload (lit "orders") 0 1 3 [⟨0, lit "a,7:b"⟩])) =
      .ok ⟨3, [⟨0, lit "a"⟩, ⟨7, lit "b"⟩]⟩ ∧
    fetchResult (ok (itoa 7) (fetchPayload (lit "hw=9") 0 1 3 [⟨0, lit "a"⟩])) =
      .ok ⟨9, [⟨0, lit "a"⟩]⟩ := by
  decide

end Flux.FetchCodec
