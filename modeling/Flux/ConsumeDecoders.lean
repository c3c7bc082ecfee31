import Flux.ClientText
import Flux.FetchCodec

/-!
The decoders of the two client libraries for the payload of a CONSUME response.
Both cut the payload at its field names, trim it, split it at commas and every
item at its colons; they differ in how often they cut, in their white space and
in their numbers. The list between the field names is decoded to itself exactly
if none of this touches the inside of a value.
-/
namespace Flux.ConsumeDecoders

open GoStrings Cuts ClientText PartitionStorage RecordReads FetchCodec

structure ConsumedMessage where
  offset : Int
  value : Text
  deriving DecidableEq, Repr

inductive ClientError where
  | thrown (message : Text)
  | invalidLiteral (word : Text)
  | undecodable
  deriving DecidableEq, Repr

variable {messages : List ConsumedMessage} {m : ConsumedMessage} {c : Char} {space : Char → Bool}
  {readItem : Text → Except ClientError ConsumedMessage} {number : Int → Int}

def items (data : Text) : List Text := (data.splitOn ',').filter (fun item => item ≠ [])

def jsItem (item : Text) : Except ClientError ConsumedMessage :=
  match item.splitOn ':' with
  | [] => .error (.thrown (text "Invalid message offset in consume response: " ++ item))
  | rawOffset :: valueParts =>
      match jsParseInt rawOffset with
      | none => .error (.thrown (text "Invalid message offset in consume response: " ++ item))
      | some parsedOffset => .ok ⟨parsedOffset, [':'].intercalate valueParts⟩

def pyItem (decimal : Char → Option ℕ) (item : Text) : Except ClientError ConsumedMessage :=
  match item.splitOn ':' with
  | first :: second :: rest =>
      match pyInt decimal first with
      | none => .error (.invalidLiteral first)
      | some msgOffset => .ok ⟨msgOffset, [':'].intercalate (second :: rest)⟩
  | _ => .error (.thrown (text "Invalid consume message item: " ++ item))

def decodeItems (space : Char → Bool) (readItem : Text → Except ClientError ConsumedMessage)
    (raw : Text) : Except ClientError (List ConsumedMessage) :=
  let data := strip space raw
  if strip space data = [] then .ok [] else (items data).mapM readItem

/-- `parseConsumedMessages` of the TypeScript client. -/
def parseConsumedMessages (payload : Text) : Except ClientError (List ConsumedMessage) :=
  let rawData := ((split (text "messages=") payload)[1]?).getD []
  decodeItems jsSpace jsItem (((split (text " hw=") rawData)[0]?).getD [])

/-- The decoder in `FLUXClient.consume` of the Python client. -/
def consumeMessages (decimal : Char → Option ℕ) (payload : Text) :
    Except ClientError (List ConsumedMessage) :=
  let parts := splitN (text "messages=") 2 payload
  let data := if parts.length = 2 then (parts[1]?).getD [] else []
  decodeItems pySpace (pyItem decimal) (((splitN (text " hw=") 2 data)[0]?).getD [])

def ConsumedMessage.stored (m : ConsumedMessage) : Message := ⟨m.offset, utf8 m.value⟩

def renderMessage (m : ConsumedMessage) : Text := decimalText m.offset ++ ':' :: m.value

def renderMessages (messages : List ConsumedMessage) : Text :=
  [','].intercalate (messages.map renderMessage)

def payloadText (messages : List ConsumedMessage) (highWatermark : Int) : Text :=
  text "messages=" ++
    (renderMessages messages ++ (text " hw=" ++ decimalText highWatermark))

theorem renderMessages_cons_cons (m m' : ConsumedMessage) (rest : List ConsumedMessage) :
    renderMessages (m :: m' :: rest) = renderMessage m ++ ',' :: renderMessages (m' :: rest) := by
  simp [renderMessages]

theorem utf8_renderMessage (m : ConsumedMessage) :
    utf8 (renderMessage m) = renderRecord m.stored := by
  have hcolon : utf8 (':' :: m.value) = 58 :: utf8 m.value := rfl
  rw [renderMessage, utf8_append, utf8_decimalText, hcolon]
  rfl

theorem utf8_renderMessages (messages : List ConsumedMessage) :
    utf8 (renderMessages messages) = renderRecords (messages.map ConsumedMessage.stored) := by
  induction messages with
  | nil => rfl
  | cons m rest ih =>
    cases rest with
    | nil => simpa [renderMessages, renderRecords, join] using utf8_renderMessage m
    | cons m' rest =>
      have hcomma : ∀ t, utf8 (',' :: t) = 44 :: utf8 t := fun _ => rfl
      rw [renderMessages_cons_cons, utf8_append, hcomma, ih, utf8_renderMessage]
      exact (renderRecords_cons_cons m.stored m'.stored (rest.map _)).symm

/-- The payload of the broker is the text that the clients see. -/
theorem utf8_payloadText (messages : List ConsumedMessage) (highWatermark : Int) :
    utf8 (payloadText messages highWatermark) =
      consumePayload (messages.map ConsumedMessage.stored) highWatermark := by
  have hmessages : utf8 (text "messages=") = lit "messages=" := utf8_ascii _ (by decide +kernel)
  have hhw : utf8 (text " hw=") = lit " hw=" := utf8_ascii _ (by decide +kernel)
  simp only [payloadText, utf8_append, hmessages, hhw, utf8_renderMessages, utf8_decimalText,
    consumePayload]

structure Reads (space : Char → Bool) (readItem : Text → Except ClientError ConsumedMessage)
    (number : Int → Int) : Prop where
  plain : ∀ c : Char, 45 ≤ c.toNat → c.toNat ≤ 58 → space c = false
  item : ∀ m : ConsumedMessage, readItem (renderMessage m) = .ok ⟨number m.offset, m.value⟩
  part : ∀ item m, readItem item = .ok m → m.value <:+ item

theorem colon_not_mem_decimalText (n : Int) : ':' ∉ decimalText n :=
  not_mem_decimalText n ':' (by decide) (by decide)

theorem splitOn_renderMessage (m : ConsumedMessage) :
    (renderMessage m).splitOn ':' = decimalText m.offset :: m.value.splitOn ':' :=
  List.splitOn_append_cons_self_of_not_mem (colon_not_mem_decimalText m.offset) m.value

theorem join_suffix {item first : Text} {rest : List Text} (h : item.splitOn ':' = first :: rest) :
    [':'].intercalate rest <:+ item := by
  have hitem : [':'].intercalate (first :: rest) = item := by
    rw [← h]
    exact List.intercalate_splitOn ':'
  cases rest with
  | nil => simp
  | cons second rest =>
    rw [← hitem]
    exact ⟨first ++ [':'], by simp⟩

theorem js_reads : Reads jsSpace jsItem nearestDouble where
  plain := jsSpace_plain
  item := by
    intro m
    simp only [jsItem, splitOn_renderMessage, jsParseInt_decimalText]
    rw [List.intercalate_splitOn]
  part := by
    intro item m h
    unfold jsItem at h
    split at h
    · contradiction
    · rename_i rawOffset valueParts hsplit
      split at h
      · contradiction
      · cases h
        exact join_suffix hsplit

theorem py_reads {decimal : Char → Option ℕ}
    (hdecimal : ∀ d < 10, decimal (Char.ofNat (48 + d)) = some d) :
    Reads pySpace (pyItem decimal) id where
  plain := pySpace_plain
  item := by
    intro m
    have hjoin : [':'].intercalate (m.value.splitOn ':') = m.value := List.intercalate_splitOn ':'
    unfold pyItem
    rw [splitOn_renderMessage]
    cases hparts : m.value.splitOn ':' with
    | nil => exact absurd hparts (List.splitOn_ne_nil ':' m.value)
    | cons second rest =>
      rw [hparts] at hjoin
      simp only [pyInt_decimalText hdecimal, hjoin, id]
  part := by
    intro item m h
    unfold pyItem at h
    split at h
    · rename_i first second rest hsplit
      split at h
      · contradiction
      · cases h
        exact join_suffix hsplit
    · contradiction

theorem infix_strip (space : Char → Bool) (t : Text) : strip space t <:+: t :=
  (List.rdropWhile_prefix _ _).isInfix.trans (List.dropWhile_suffix _).isInfix

section Lists

variable (reads : Reads space readItem number)

include reads

/-- A decoded value is a piece of the text, between commas. -/
theorem decoded_value {raw : Text} (h : decodeItems space readItem raw = .ok messages)
    (hm : m ∈ messages) : ',' ∉ m.value ∧ m.value <:+: raw := by
  unfold decodeItems at h
  dsimp only at h
  split at h
  · cases h
    simp at hm
  · obtain ⟨item, hitem, hread⟩ := exists_piece ((mapM_eq_ok_iff _ _ _).mp h) hm
    have hpiece := List.mem_of_mem_filter hitem
    have hvalue := reads.part item m hread
    refine ⟨fun hcomma => ?_, ?_⟩
    · exact not_mem_of_mem_splitOn ',' _ item hpiece (hvalue.subset hcomma)
    · exact (hvalue.isInfix.trans (infix_of_mem_splitOn ',' _ item hpiece)).trans
        (infix_strip space raw)

end Lists

theorem items_renderMessages (hcomma : ∀ m ∈ messages, ',' ∉ m.value) :
    items (renderMessages messages) = messages.map renderMessage := by
  by_cases hnil : messages = []
  · rw [hnil]
    decide
  · have hsplit : (renderMessages messages).splitOn ',' = messages.map renderMessage := by
      refine List.splitOn_intercalate ',' ?_ (by simpa using hnil)
      intro item hitem
      obtain ⟨m, hm, rfl⟩ := List.mem_map.mp hitem
      have hdigits := not_mem_decimalText m.offset ',' (by decide) (by decide)
      simp [renderMessage, hcomma m hm, hdigits]
    rw [items, hsplit, List.filter_eq_self]
    intro item hitem
    obtain ⟨m, hm, rfl⟩ := List.mem_map.mp hitem
    simp [renderMessage]

def trimLast (space : Char → Bool) : List ConsumedMessage → List ConsumedMessage
  | [] => []
  | [m] => [⟨m.offset, m.value.rdropWhile space⟩]
  | m :: m' :: rest => m :: trimLast space (m' :: rest)

theorem rdropWhile_past (hc : space c = false) (front back : Text) :
    (front ++ c :: back).rdropWhile space = front ++ c :: back.rdropWhile space := by
  unfold List.rdropWhile
  rw [List.reverse_append, List.reverse_cons, List.append_assoc, List.singleton_append,
    List.dropWhile_append]
  split
  · rename_i hempty
    rw [List.isEmpty_iff] at hempty
    simp [hempty, hc]
  · simp

/-- The part up to a character that is no white space stays. -/
theorem rdropWhile_append (hc : space c = false) (front back : Text) (hmem : c ∈ back) :
    (front ++ back).rdropWhile space = front ++ back.rdropWhile space := by
  obtain ⟨left, right, rfl⟩ := List.append_of_mem hmem
  rw [← List.append_assoc, rdropWhile_past hc, rdropWhile_past hc, List.append_assoc]

section Trimming

variable (hplain : ∀ c : Char, 45 ≤ c.toNat → c.toNat ≤ 58 → space c = false)

include hplain

theorem rdropWhile_renderMessages (messages : List ConsumedMessage) :
    (renderMessages messages).rdropWhile space = renderMessages (trimLast space messages) := by
  have hcolon : space ':' = false := hplain ':' (by decide) (by decide)
  induction messages with
  | nil => rfl
  | cons m rest ih =>
    cases rest with
    | nil => simp [renderMessages, renderMessage, trimLast, rdropWhile_past hcolon]
    | cons m' rest =>
      have hmem : ':' ∈ renderMessages (m' :: rest) := by
        cases rest with
        | nil => simp [renderMessages, renderMessage]
        | cons m'' rest => simp [renderMessages_cons_cons, renderMessage]
      have hsplit : ∀ ms, renderMessages (m :: trimLast space (m' :: ms)) =
          (renderMessage m ++ [',']) ++ renderMessages (trimLast space (m' :: ms)) := by
        intro ms
        cases ms with
        | nil => simp [trimLast, renderMessages]
        | cons m'' ms => simp [trimLast, renderMessages]
      rw [trimLast, hsplit, ← ih, ← rdropWhile_append hcolon _ _ hmem, renderMessages_cons_cons]
      simp

theorem strip_renderMessages (messages : List ConsumedMessage) :
    strip space (renderMessages messages) = renderMessages (trimLast space messages) := by
  have hdrop : (renderMessages messages).dropWhile space = renderMessages messages := by
    cases messages with
    | nil => rfl
    | cons m rest =>
      cases rest with
      | nil =>
        simpa [renderMessages, renderMessage] using
          dropWhile_decimalText space hplain m.offset (':' :: m.value)
      | cons m' rest =>
        rw [renderMessages_cons_cons, renderMessage, List.append_assoc]
        exact dropWhile_decimalText space hplain m.offset _
  rw [strip, hdrop, rdropWhile_renderMessages hplain]

end Trimming

theorem trimLast_eq_nil_iff (space : Char → Bool) (messages : List ConsumedMessage) :
    trimLast space messages = [] ↔ messages = [] := by
  fun_cases trimLast space messages <;> simp

theorem renderMessages_eq_nil_iff (messages : List ConsumedMessage) :
    renderMessages messages = [] ↔ messages = [] := by
  fun_cases trimLast (fun _ => false) messages <;>
    simp [renderMessages, renderMessage]

theorem mem_trimLast (h : m ∈ trimLast space messages) : ∃ m' ∈ messages, m.value <+: m'.value := by
  fun_induction trimLast space messages with
  | case1 => simp at h
  | case2 m' =>
    rw [List.mem_singleton] at h
    subst h
    exact ⟨m', List.mem_singleton_self _, List.rdropWhile_prefix _ _⟩
  | case3 first second rest ih =>
    rcases List.mem_cons.mp h with rfl | hrest
    · exact ⟨_, List.mem_cons_self .., List.prefix_rfl⟩
    · obtain ⟨m', hm', hvalue⟩ := ih hrest
      exact ⟨m', List.mem_cons_of_mem _ hm', hvalue⟩

def readBack (space : Char → Bool) (number : Int → Int) (messages : List ConsumedMessage) :
    List ConsumedMessage :=
  (trimLast space messages).map (fun m => ⟨number m.offset, m.value⟩)

theorem readBack_eq_self_iff (space : Char → Bool) (number : Int → Int)
    (messages : List ConsumedMessage) :
    readBack space number messages = messages ↔
      (∀ m ∈ messages, number m.offset = m.offset) ∧
        ∀ m, messages.getLast? = some m → m.value.rdropWhile space = m.value := by
  unfold readBack
  fun_induction trimLast space messages with
  | case1 => simp
  | case2 m =>
    obtain ⟨offset, value⟩ := m
    simp
  | case3 first second rest ih =>
    obtain ⟨offset, value⟩ := first
    rw [List.map_cons, List.cons_eq_cons, ih]
    simp [and_assoc]

/-- Values without a comma are decoded one by one. -/
theorem decodeItems_renderMessages (reads : Reads space readItem number)
    (hcomma : ∀ m ∈ messages, ',' ∉ m.value) :
    decodeItems space readItem (renderMessages messages) =
      .ok (readBack space number messages) := by
  unfold decodeItems
  dsimp only
  rw [strip_renderMessages reads.plain, strip_renderMessages reads.plain]
  split
  · rename_i hempty
    rw [renderMessages_eq_nil_iff, trimLast_eq_nil_iff, trimLast_eq_nil_iff] at hempty
    subst hempty
    rfl
  · have hcommas : ∀ m ∈ trimLast space messages, ',' ∉ m.value := by
      intro m hm hin
      obtain ⟨m', hm', hvalue⟩ := mem_trimLast hm
      exact hcomma m' hm' (hvalue.subset hin)
    rw [items_renderMessages hcommas, mapM_eq_ok_iff, readBack, List.forall₂_map_left_iff,
      List.forall₂_map_right_iff, List.forall₂_same]
    exact fun m _ => reads.item m

/-- A joined list is decoded to itself exactly if no value holds a comma, the
last one does not end in white space and the numbers are exact. -/
theorem decodeItems_eq_ok_iff (reads : Reads space readItem number)
    (messages : List ConsumedMessage) :
    decodeItems space readItem (renderMessages messages) = .ok messages ↔
      (∀ m ∈ messages, ',' ∉ m.value) ∧ (∀ m ∈ messages, number m.offset = m.offset) ∧
        ∀ m, messages.getLast? = some m → m.value.rdropWhile space = m.value := by
  rw [← readBack_eq_self_iff]
  constructor
  · intro h
    have hcomma : ∀ m ∈ messages, ',' ∉ m.value := fun m hm => (decoded_value reads h hm).1
    rw [decodeItems_renderMessages reads hcomma, Except.ok.injEq] at h
    exact ⟨hcomma, h⟩
  · rintro ⟨hcomma, h⟩
    rw [decodeItems_renderMessages reads hcomma, h]

end Flux.ConsumeDecoders
