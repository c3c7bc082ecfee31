import Flux.ConsumeDecoders

/-!
The payload of a CONSUME response against the decoders of the two client
libraries. The TypeScript client looks no further than a second field name in
the payload and trims byte order marks; the Python client trims separator
characters. A list of records comes back from both if and only if its values
are texts that neither of them takes for structure.
-/
namespace Flux.ConsumeCodec

open GoStrings Cuts ClientText PartitionStorage RecordReads ConsumeDecoders

variable {front : Text} {messages : List ConsumedMessage}

theorem before_hw (hspace : ' ' ∉ front) (rest : Text) :
    before (text " hw=") (front ++ (text " hw=" ++ rest)) = front := by
  have hskip := cut_skip ' ' (text "hw=") front (text " hw=" ++ rest) hspace
  have hself := cut_self_append (text " hw=") rest (by decide)
  have hfield : ' ' :: text "hw=" = text " hw=" := by decide
  rw [hfield, hself] at hskip
  simp [before, hskip]

theorem before_hw_self (hspace : ' ' ∉ front) : before (text " hw=") front = front :=
  before_of_not_infix _ _
    ((cut_eq_none_iff _ _).mp (cut_of_letter_not_mem _ _ ' ' (by decide) hspace))

/-- The second field name is looked for in the list only. -/
theorem before_messages (hspace : ' ' ∉ front) (highWatermark : Int) :
    before (text " hw=")
        (before (text "messages=") (front ++ (text " hw=" ++ decimalText highWatermark))) =
      before (text "messages=") front := by
  have hfield : text " hw=" ++ decimalText highWatermark =
      ' ' :: (text "hw=" ++ decimalText highWatermark) := by
    have : text " hw=" = ' ' :: text "hw=" := by decide
    rw [this, List.cons_append]
  have hcut := cut_append_sep (text "messages=") front
    (text "hw=" ++ decimalText highWatermark) ' ' (by decide) (by decide)
  rw [← hfield] at hcut
  cases hfront : cut (text "messages=") front with
  | some c =>
    have hfirst := before_prefix (text "messages=") front
    simp only [before, hfront] at hcut hfirst ⊢
    rw [hcut]
    exact before_hw_self (fun h => hspace (hfirst.subset h))
  | none =>
    have hlater : cut (text "messages=") (text "hw=" ++ decimalText highWatermark) = none := by
      have hdigits := not_mem_decimalText highWatermark 'm' (by decide) (by decide)
      refine cut_of_letter_not_mem _ _ 'm' (by decide) ?_
      simp [hdigits, show 'm' ∉ text "hw=" by decide]
    rw [hfront, hlater] at hcut
    have hwhole : before (text "messages=") (front ++ (text " hw=" ++ decimalText highWatermark)) =
        front ++ (text " hw=" ++ decimalText highWatermark) := by
      simp only [before, hcut, Option.map_none]
    rw [hwhole, before_hw hspace]
    simp only [before, hfront]

/-- A pattern that fits between the separators is found in a value. -/
theorem not_infix_renderMessages {pat : Text} {x : Char} (hx : x ∈ pat) (h45 : x.toNat ≠ 45)
    (hdigit : x.toNat < 48 ∨ 57 < x.toNat) (hcolon : ':' ∉ pat) (hcomma : ',' ∉ pat)
    (h : ∀ m ∈ messages, ¬ pat <:+: m.value) : ¬ pat <:+: renderMessages messages := by
  have hpat : pat ≠ [] := List.ne_nil_of_mem hx
  have hitem : ∀ m ∈ messages, ¬ pat <:+: renderMessage m := by
    intro m hm
    have hdigits : ¬ pat <:+: decimalText m.offset := fun hin =>
      not_mem_decimalText m.offset x h45 hdigit (hin.subset hx)
    rw [renderMessage, infix_append_sep_iff _ _ _ ':' hpat hcolon, not_or]
    exact ⟨hdigits, h m hm⟩
  clear h
  induction messages with
  | nil => simpa [renderMessages] using hpat
  | cons m rest ih =>
    have hhead := hitem m (List.mem_cons_self ..)
    have hrest := ih (fun m' hm' => hitem m' (List.mem_cons_of_mem _ hm'))
    cases rest with
    | nil => simpa [renderMessages] using hhead
    | cons m' rest =>
      rw [renderMessages_cons_cons, infix_append_sep_iff _ _ _ ',' hpat hcomma, not_or]
      exact ⟨hhead, hrest⟩

section Payload

variable {messages : List ConsumedMessage}
  (hspace : ∀ m ∈ messages, SpaceFree (utf8 m.value)) (highWatermark : Int)

include hspace

theorem space_not_mem_renderMessages : ' ' ∉ renderMessages messages := by
  rw [← List.singleton_infix_iff]
  refine not_infix_renderMessages (x := ' ') (by decide) (by decide) (by decide) (by decide)
    (by decide) (fun m hm hin => ?_)
  have hinside := encodeChar_infix_of_mem ((List.singleton_infix_iff ..).mp hin)
  exact hspace m hm [32] (by decide) hinside

/-- The Python client decodes the whole list. -/
theorem consumeMessages_payloadText (decimal : Char → Option ℕ) :
    consumeMessages decimal (payloadText messages highWatermark) =
      decodeItems pySpace (pyItem decimal) (renderMessages messages) := by
  have hcut := cut_self_append (text "messages=")
    (renderMessages messages ++ (text " hw=" ++ decimalText highWatermark)) (by decide)
  unfold consumeMessages payloadText
  rw [splitN_cut _ _ _ _ hcut]
  simp only [splitN, List.length_cons, List.length_nil, List.getElem?_cons_succ,
    List.getElem?_cons_zero, Option.getD_some, ↓reduceIte]
  have hfirst := splitN_getElem_zero (text " hw=") 1
    (renderMessages messages ++ (text " hw=" ++ decimalText highWatermark)) (by decide)
    (Or.inl (by omega))
  rw [before_hw (space_not_mem_renderMessages hspace)] at hfirst
  simp only [splitN] at hfirst
  rw [hfirst, Option.getD_some]

/-- The TypeScript client decodes the list up to a second field name. -/
theorem parseConsumedMessages_payloadText :
    parseConsumedMessages (payloadText messages highWatermark) =
      decodeItems jsSpace jsItem (before (text "messages=") (renderMessages messages)) := by
  unfold parseConsumedMessages payloadText
  dsimp only
  rw [split_getElem_one _ _ (by decide), Option.getD_some, split_getElem_zero _ _ (by decide),
    Option.getD_some, before_messages (space_not_mem_renderMessages hspace)]

/-- When the TypeScript decoder gives the records back. -/
theorem parseConsumedMessages_eq_ok_iff :
    parseConsumedMessages (payloadText messages highWatermark) = .ok messages ↔
      (∀ m ∈ messages, ¬ text "messages=" <:+: m.value) ∧ (∀ m ∈ messages, ',' ∉ m.value) ∧
        (∀ m ∈ messages, nearestDouble m.offset = m.offset) ∧
          ∀ m, messages.getLast? = some m → m.value.rdropWhile jsSpace = m.value := by
  rw [parseConsumedMessages_payloadText hspace]
  have hwhole : (∀ m ∈ messages, ¬ text "messages=" <:+: m.value) →
      before (text "messages=") (renderMessages messages) = renderMessages messages := fun h =>
    before_of_not_infix _ _ (not_infix_renderMessages (x := 'm') (by decide) (by decide)
      (by decide) (by decide) (by decide) h)
  constructor
  · intro h
    have hmarks : ∀ m ∈ messages, ¬ text "messages=" <:+: m.value := by
      intro m hm hmark
      have hvalue := (decoded_value js_reads h hm).2
      exact not_infix_before _ _ (by decide) (hmark.trans hvalue)
    rw [hwhole hmarks, decodeItems_eq_ok_iff js_reads] at h
    exact ⟨hmarks, h⟩
  · rintro ⟨hmarks, h⟩
    rw [hwhole hmarks, decodeItems_eq_ok_iff js_reads]
    exact h

end Payload

/-- The values hold nothing that a client takes for structure, and the offsets
are doubles. -/
structure Legible (messages : List ConsumedMessage) : Prop where
  commas : ∀ m ∈ messages, ',' ∉ m.value
  fieldNames : ∀ m ∈ messages, ¬ text "messages=" <:+: m.value
  offsets : ∀ m ∈ messages, nearestDouble m.offset = m.offset
  ending : ∀ m, messages.getLast? = some m → ∀ c, m.value.getLast? = some c →
    c.toNat ∉ [0xFEFF, 0x1C, 0x1D, 0x1E, 0x1F]

/-- The records that the TypeScript client makes of a payload. `nodeDecode` is
the decoder of its runtime. -/
def tsRecords (nodeDecode : Str → Text) (payload : Str) : Except ClientError (List Message) :=
  (parseConsumedMessages (nodeDecode payload)).map (List.map ConsumedMessage.stored)

/-- The records that the Python client makes of a payload. -/
def pyRecords (decimal : Char → Option ℕ) (payload : Str) : Except ClientError (List Message) :=
  match decodeStrict payload with
  | none => .error .undecodable
  | some t => (consumeMessages decimal t).map (List.map ConsumedMessage.stored)

theorem rdropWhile_eq_self_iff_getLast (space : Char → Bool) (t : Text) :
    t.rdropWhile space = t ↔ ∀ c, t.getLast? = some c → space c = false := by
  rw [List.rdropWhile_eq_self_iff]
  cases t with
  | nil => simp
  | cons c rest => simp [List.getLast?_eq_some_getLast]

theorem stored_injective {a b : List ConsumedMessage}
    (h : a.map ConsumedMessage.stored = b.map ConsumedMessage.stored) : a = b := by
  refine List.map_injective_iff.mpr (fun m m' heq => ?_) h
  simp only [ConsumedMessage.stored, Message.mk.injEq] at heq
  have hvalue := utf8_injective heq.2
  obtain ⟨offset, value⟩ := m
  obtain ⟨offset', value'⟩ := m'
  exact congrArg₂ ConsumedMessage.mk heq.1 hvalue

theorem exists_of_map_stored {x : Except ClientError (List ConsumedMessage)}
    {records : List Message} (h : x.map (List.map ConsumedMessage.stored) = .ok records) :
    ∃ messages : List ConsumedMessage, messages.map ConsumedMessage.stored = records := by
  cases x with
  | error e => contradiction
  | ok messages => exact ⟨messages, Except.ok.inj h⟩

theorem map_stored_eq_ok_iff (x : Except ClientError (List ConsumedMessage))
    (messages : List ConsumedMessage) :
    x.map (List.map ConsumedMessage.stored) = .ok (messages.map ConsumedMessage.stored) ↔
      x = .ok messages := by
  constructor
  · intro h
    cases x with
    | error e => contradiction
    | ok decoded => rw [stored_injective (Except.ok.inj h)]
  · rintro rfl
    rfl

/-- Both endings at once are those that some client trims. -/
theorem ending_iff {t : Text} (h : SpaceFree (utf8 t)) :
    (t.rdropWhile jsSpace = t ∧ t.rdropWhile pySpace = t) ↔
      ∀ c, t.getLast? = some c → c.toNat ∉ [0xFEFF, 0x1C, 0x1D, 0x1E, 0x1F] := by
  rw [rdropWhile_eq_self_iff_getLast, rdropWhile_eq_self_iff_getLast, ← forall_and]
  refine forall_congr' (fun c => ?_)
  rw [← imp_and]
  refine imp_congr_right (fun hc => ?_)
  have hmem : c ∈ t := List.mem_of_getLast? hc
  rw [← Bool.not_eq_true, ← Bool.not_eq_true, jsSpace_of_spaceFree h hmem,
    pySpace_of_spaceFree h hmem, ← not_or, ← List.mem_cons]

/-- A decoder that is right on UTF-8 text. -/
def Faithful (nodeDecode : Str → Text) : Prop := ∀ t, nodeDecode (utf8 t) = t

def ReadsDigits (decimal : Char → Option ℕ) : Prop :=
  ∀ d < 10, decimal (Char.ofNat (48 + d)) = some d

theorem tsRecords_stored {nodeDecode : Str → Text} (hnode : Faithful nodeDecode)
    (messages : List ConsumedMessage) (highWatermark : Int) :
    tsRecords nodeDecode (consumePayload (messages.map ConsumedMessage.stored) highWatermark) =
      (parseConsumedMessages (payloadText messages highWatermark)).map
        (List.map ConsumedMessage.stored) := by
  rw [← utf8_payloadText, tsRecords, hnode]

theorem pyRecords_stored (decimal : Char → Option ℕ) (messages : List ConsumedMessage)
    (highWatermark : Int) :
    pyRecords decimal (consumePayload (messages.map ConsumedMessage.stored) highWatermark) =
      (consumeMessages decimal (payloadText messages highWatermark)).map
        (List.map ConsumedMessage.stored) := by
  rw [← utf8_payloadText, pyRecords, decodeStrict_utf8]

section RoundTrip

variable {nodeDecode : Str → Text} (hnode : Faithful nodeDecode)
  {decimal : Char → Option ℕ} (hdecimal : ReadsDigits decimal) (highWatermark : Int)

include hnode hdecimal

/-- Both decoders give back the legible records and no others. -/
theorem records_iff_legible (hspace : ∀ m ∈ messages, SpaceFree (utf8 m.value)) :
    (tsRecords nodeDecode
        (consumePayload (messages.map ConsumedMessage.stored) highWatermark) =
          .ok (messages.map ConsumedMessage.stored) ∧
      pyRecords decimal
        (consumePayload (messages.map ConsumedMessage.stored) highWatermark) =
          .ok (messages.map ConsumedMessage.stored)) ↔ Legible messages := by
  rw [tsRecords_stored hnode, pyRecords_stored, map_stored_eq_ok_iff, map_stored_eq_ok_iff,
    parseConsumedMessages_eq_ok_iff hspace, consumeMessages_payloadText hspace,
    decodeItems_eq_ok_iff (py_reads hdecimal)]
  have hending := fun m hm => ending_iff (hspace m (List.mem_of_getLast? hm))
  constructor
  · rintro ⟨⟨hnames, hcommas, hoffsets, hjs⟩, -, -, hpy⟩
    exact ⟨hcommas, hnames, hoffsets, fun m hm => (hending m hm).mp ⟨hjs m hm, hpy m hm⟩⟩
  · intro h
    have hboth := fun m hm => (hending m hm).mpr (h.ending m hm)
    exact ⟨⟨h.fieldNames, h.commas, h.offsets, fun m hm => (hboth m hm).1⟩,
      h.commas, fun m hm => rfl, fun m hm => (hboth m hm).2⟩

/-- Both clients give back the records of a payload if and only if the values
are legible texts. -/
theorem consume_roundTrip_iff {records : List Message}
    (hrecords : ∀ m ∈ records, SpaceFree m.value) :
    (tsRecords nodeDecode (consumePayload records highWatermark) = .ok records ∧
      pyRecords decimal (consumePayload records highWatermark) = .ok records) ↔
    ∃ messages : List ConsumedMessage,
      messages.map ConsumedMessage.stored = records ∧ Legible messages := by
  have hspace : ∀ messages : List ConsumedMessage, messages.map ConsumedMessage.stored = records →
      ∀ m ∈ messages, SpaceFree (utf8 m.value) := by
    rintro messages rfl m hm
    exact hrecords m.stored (List.mem_map_of_mem hm)
  constructor
  · intro h
    obtain ⟨messages, hmessages⟩ := exists_of_map_stored h.1
    refine ⟨messages, hmessages, ?_⟩
    rw [← hmessages] at h
    exact (records_iff_legible hnode hdecimal highWatermark (hspace messages hmessages)).mp h
  · rintro ⟨messages, hmessages, hlegible⟩
    have h := (records_iff_legible hnode hdecimal highWatermark (hspace messages hmessages)).mpr
      hlegible
    rwa [hmessages] at h

end RoundTrip

def decodeOrEmpty (s : Str) : Text := (decodeStrict s).getD []

theorem decodeOrEmpty_faithful : Faithful decodeOrEmpty := by
  intro t
  rw [decodeOrEmpty, decodeStrict_utf8, Option.getD_some]

/-- Values with bars, colons and equals signs come back. -/
theorem consume_roundTrip_plain :
    tsRecords decodeOrEmpty (consumePayload [⟨0, lit "a:b|c"⟩, ⟨1, lit "k=v"⟩] 1) =
      .ok [⟨0, lit "a:b|c"⟩, ⟨1, lit "k=v"⟩] ∧
    pyRecords digitOf (consumePayload [⟨0, lit "a:b|c"⟩, ⟨1, lit "k=v"⟩] 1) =
      .ok [⟨0, lit "a:b|c"⟩, ⟨1, lit "k=v"⟩] := by
  have hdigits : ReadsDigits digitOf := by
    unfold ReadsDigits
    decide
  refine (consume_roundTrip_iff decodeOrEmpty_faithful hdigits 1 (by decide)).mpr
    ⟨[⟨0, text "a:b|c"⟩, ⟨1, text "k=v"⟩], by decide, by decide, by decide, by decide,
      fun m hm c hc => ?_⟩
  cases hm
  cases hc
  decide

/-- A comma in a value forges a message for both clients, and a field name in a
value makes them disagree. -/
theorem consume_forged :
    tsRecords decodeOrEmpty (consumePayload [⟨0, lit "a,7:b"⟩] 0) =
      .ok [⟨0, lit "a"⟩, ⟨7, lit "b"⟩] ∧
    pyRecords digitOf (consumePayload [⟨0, lit "a,7:b"⟩] 0) =
      .ok [⟨0, lit "a"⟩, ⟨7, lit "b"⟩] ∧
    tsRecords decodeOrEmpty (consumePayload [⟨0, lit "messages=x"⟩] 0) = .ok [⟨0, []⟩] ∧
    pyRecords digitOf (consumePayload [⟨0, lit "messages=x"⟩] 0) =
      .ok [⟨0, lit "messages=x"⟩] := by
  have hcomma : [(⟨0, lit "a,7:b"⟩ : Message)] =
      [(⟨0, text "a,7:b"⟩ : ConsumedMessage)].map ConsumedMessage.stored := by decide
  have hname : [(⟨0, lit "messages=x"⟩ : Message)] =
      [(⟨0, text "messages=x"⟩ : ConsumedMessage)].map ConsumedMessage.stored := by decide
  rw [hcomma, hname, tsRecords_stored decodeOrEmpty_faithful,
    tsRecords_stored decodeOrEmpty_faithful, pyRecords_stored, pyRecords_stored]
  decide

end Flux.ConsumeCodec
