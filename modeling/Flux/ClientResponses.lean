import Flux.ResponseFrames

/-!
How the client libraries read a response. A response is decoded, cut at its newline,
trimmed and split at its bars. In valid UTF-8 the status and the correlation id come
out as the broker wrote them; a decoder that replaces invalid bytes, as that of
TypeScript does, still gives the status.
-/
namespace Flux.ClientResponses

open GoStrings Protocol ClientText ResponseFrames

variable {rest t : Text} {back front : Str} {b : UInt8}

structure FluxResponse where
  version : Text
  correlationID : Text
  status : Verdict
  payload : Option Text
  code : Option Text
  message : Option Text
  raw : Text
  deriving DecidableEq

def joinBars (parts : List Text) : Text := ['|'].intercalate parts

def readResponse (message : List Text → Text) (line : Text) : Except Text FluxResponse :=
  match line.splitOn '|' with
  | version :: correlationID :: status :: rest =>
      if version ≠ text "V1" then .error (text "Unsupported FLUX response version: " ++ version)
      else if status = text "OK" then
        .ok ⟨version, correlationID, .ok, some (joinBars rest), none, none, line⟩
      else if status = text "ERR" then
        .ok ⟨version, correlationID, .err, none, some (rest.headD (text "UNKNOWN_ERROR")),
          some (message rest), line⟩
      else .error (text "Unknown FLUX response status: " ++ status)
  | _ => .error (text "Invalid FLUX response: " ++ line)

/-- An empty message is replaced in TypeScript, a missing one in both. -/
def errorMessage : Sdk → List Text → Text
  | .typescript, rest =>
      if joinBars rest.tail = [] then text "unknown error" else joinBars rest.tail
  | .python, rest => if rest.length ≤ 1 then text "unknown error" else joinBars rest.tail

/-- `parseResponse` and `_parse_response` -/
def parseResponse (sdk : Sdk) : Text → Except Text FluxResponse := readResponse (errorMessage sdk)

def receivedLine : Sdk → Text → Text
  | .typescript, t => strip jsSpace (t.takeWhile (fun c => c ≠ '\n'))
  | .python, t =>
      strip pySpace (t.takeWhile (fun c => c ≠ '\n') ++ (t.dropWhile (fun c => c ≠ '\n')).take 1)

section Decoding

/-- A text is cut where its bytes hold a letter of ASCII. -/
theorem utf8_eq_append (hb : b.toNat < 128) (h : utf8 t = front ++ b :: back) :
    ∃ before after, t = before ++ Char.ofNat b.toNat :: after ∧ utf8 before = front ∧
      utf8 after = back := by
  induction t generalizing front with
  | nil => simp [utf8] at h
  | cons c rest ih =>
    have hcons : String.utf8EncodeChar c ++ utf8 rest = front ++ b :: back := h
    rcases List.append_eq_append_iff.mp hcons with ⟨more, hfront, hrest⟩ | ⟨more, hchar, hback⟩
    · obtain ⟨before, after, rfl, hbefore, hafter⟩ := ih hrest
      refine ⟨c :: before, after, rfl, ?_, hafter⟩
      rw [hfront, ← hbefore]
      rfl
    · cases more with
      | nil =>
        rw [List.append_nil] at hchar
        rw [List.nil_append] at hback
        have hrest : utf8 rest = [] ++ b :: back := hback.symm
        obtain ⟨before, after, rfl, hbefore, hafter⟩ := ih hrest
        refine ⟨c :: before, after, rfl, ?_, hafter⟩
        rw [← hchar, ← List.append_nil (String.utf8EncodeChar c), ← hbefore]
        rfl
      | cons b' more =>
        rw [List.cons_append, List.cons.injEq] at hback
        obtain ⟨rfl, hback⟩ := hback
        obtain ⟨hc, hsingle⟩ := encodeChar_ascii (c := c) (by rw [hchar]; simp) hb
        rw [hsingle] at hchar
        cases front with
        | nil =>
          have hmore : more = [] := by simpa using hchar.symm
          refine ⟨[], rest, by rw [hc]; rfl, rfl, ?_⟩
          rw [hback, hmore, List.nil_append]
        | cons x front => simp at hchar

theorem not_mem_of_utf8 {c : Char} (hc : String.utf8EncodeChar c = [b]) (h : b ∉ utf8 t) :
    c ∉ t := by
  intro hmem
  have hinside := encodeChar_infix_of_mem hmem
  rw [hc] at hinside
  exact h (hinside.subset (List.mem_singleton_self b))

structure Decoding (D : Str → Text → Prop) : Prop where
  nil : ∀ {t}, D [] t → t = []
  cut : ∀ {t front back b}, b.toNat < 128 → D (front ++ b :: back) t →
    ∃ before after, t = before ++ Char.ofNat b.toNat :: after ∧ D front before ∧ D back after
  free : ∀ {t bytes b}, b.toNat < 128 → b ∉ bytes → D bytes t → Char.ofNat b.toNat ∉ t

theorem decoding_utf8 : Decoding (fun bytes t => utf8 t = bytes) where
  nil h := utf8_injective h
  cut := utf8_eq_append
  free {t bytes b} hb hnot h := by
    subst h
    have hsingle := utf8_ascii [b] (by simpa using hb)
    exact not_mem_of_utf8 (by simpa [ascii, utf8] using hsingle) hnot

/-- What a decoder makes of bytes if it puts letters of its own in the place of bytes
that are no UTF-8. -/
inductive Lossy : Str → Text → Prop
  | nil : Lossy [] []
  | ascii {b : UInt8} {bytes : Str} {t : Text} (hb : b.toNat < 128) (h : Lossy bytes t) :
      Lossy (b :: bytes) (Char.ofNat b.toNat :: t)
  | foreign {front bytes : Str} {letters t : Text} (hne : front ≠ [])
      (hfront : ∀ b ∈ front, 128 ≤ b.toNat) (hletters : ∀ c ∈ letters, 128 ≤ c.toNat)
      (h : Lossy bytes t) : Lossy (front ++ bytes) (letters ++ t)

/-- Replacing bytes leaves every ASCII letter in its place. -/
theorem lossy_cut {bytes : Str} (hb : b.toNat < 128) (h : Lossy bytes t)
    (hbytes : bytes = front ++ b :: back) :
    ∃ before after, t = before ++ Char.ofNat b.toNat :: after ∧ Lossy front before ∧
      Lossy back after := by
  induction h generalizing front with
  | nil => simp at hbytes
  | @ascii b' bytes' t' hb' h ih =>
    cases front with
    | nil =>
      obtain ⟨rfl, rfl⟩ := List.cons.inj hbytes
      exact ⟨[], t', rfl, .nil, h⟩
    | cons x front =>
      obtain ⟨rfl, hrest⟩ := List.cons.inj hbytes
      obtain ⟨before, after, rfl, hbefore, hafter⟩ := ih hrest
      exact ⟨_ :: before, after, rfl, .ascii hb' hbefore, hafter⟩
  | @foreign front' bytes' letters t' hne hfront' hletters h ih =>
    rcases List.append_eq_append_iff.mp hbytes with ⟨more, hfront, hrest⟩ | ⟨more, hfront, hrest⟩
    · obtain ⟨before, after, rfl, hbefore, hafter⟩ := ih hrest
      refine ⟨letters ++ before, after, by rw [List.append_assoc], ?_, hafter⟩
      rw [hfront]
      exact .foreign hne hfront' hletters hbefore
    · cases more with
      | nil =>
        rw [List.append_nil] at hfront
        obtain ⟨before, after, rfl, hbefore, hafter⟩ :=
          ih (show bytes' = [] ++ b :: back from hrest.symm)
        refine ⟨letters ++ before, after, by rw [List.append_assoc], ?_, hafter⟩
        rw [← hfront, ← List.append_nil front']
        exact .foreign hne hfront' hletters hbefore
      | cons x more =>
        obtain ⟨rfl, -⟩ := List.cons.inj hrest
        have hlow := hfront' b (by simp [hfront])
        omega

theorem decoding_lossy : Decoding Lossy where
  nil {t} h := by
    generalize hbytes : ([] : Str) = bytes at h
    cases h with
    | nil => rfl
    | ascii hb h => cases hbytes
    | foreign hne hfront hletters h => exact absurd (List.append_eq_nil_iff.mp hbytes.symm).1 hne
  cut hb h := lossy_cut hb h rfl
  free {t bytes b} hb hnot h := by
    induction h with
    | nil => exact List.not_mem_nil
    | @ascii b' bytes' t' hb' h ih =>
      rw [List.mem_cons, not_or] at hnot ⊢
      refine ⟨fun heq => hnot.1 ?_, ih hnot.2⟩
      have hvalue := congrArg Char.toNat heq
      rw [toNat_ofNat_byte, toNat_ofNat_byte] at hvalue
      exact UInt8.toNat_inj.mp hvalue
    | @foreign front bytes' letters t' hne hfront hletters h ih =>
      rw [List.mem_append, not_or] at hnot ⊢
      refine ⟨fun hmem => ?_, ih hnot.2⟩
      have hhigh := hletters _ hmem
      rw [toNat_ofNat_byte] at hhigh
      omega

variable {D : Str → Text → Prop}

theorem Decoding.ascii_append (hD : Decoding D) (hfront : ∀ b ∈ front, b.toNat < 128)
    (h : D (front ++ back) t) : ∃ more, t = ascii front ++ more ∧ D back more := by
  induction front generalizing t with
  | nil => exact ⟨t, rfl, h⟩
  | cons b front ih =>
    have hb := hfront b (List.mem_cons_self ..)
    obtain ⟨before, after, rfl, hbefore, hafter⟩ :=
      hD.cut hb (show D ([] ++ b :: (front ++ back)) t from h)
    obtain ⟨more, rfl, hmore⟩ := ih (fun x hx => hfront x (List.mem_cons_of_mem _ hx)) hafter
    rw [hD.nil hbefore]
    exact ⟨more, rfl, hmore⟩

theorem status_ascii (status : Verdict) : ∀ b ∈ status.text, b.toNat < 128 := by
  have hall : status.text.all (fun b => decide (b.toNat < 128)) = true := by
    cases status with
    | ok => decide
    | err => decide
  intro b hb
  exact of_decide_eq_true (List.all_eq_true.mp hall b hb)

/-- The three fields of a line that is decoded. -/
theorem Decoding.frame (hD : Decoding D) {correlationID rest : Str} {status : Verdict}
    (h : D (frame correlationID status rest) t) :
    ∃ id more, t = text "V1" ++ '|' :: (id ++ '|' :: (ascii status.text ++ more)) ∧
      D correlationID id ∧ D rest more := by
  obtain ⟨first, tail, rfl, hfirst, htail⟩ := hD.cut (by decide) h
  obtain ⟨id, last, rfl, hid, hlast⟩ := hD.cut (by decide) htail
  obtain ⟨more, rfl, hmore⟩ := hD.ascii_append (status_ascii status) hlast
  rw [← List.append_nil version] at hfirst
  obtain ⟨none, rfl, hnone⟩ := hD.ascii_append (by decide +kernel) hfirst
  rw [hD.nil hnone, List.append_nil]
  exact ⟨id, more, rfl, hid, hmore⟩

end Decoding

section Trimming

variable {space : Char → Bool}

theorem rdropWhile_append {letter : Char} (hletter : space letter = false) (front rest : Text) :
    (front ++ letter :: rest).rdropWhile space = front ++ letter :: rest.rdropWhile space := by
  unfold List.rdropWhile
  rw [List.reverse_append, List.reverse_cons, List.append_assoc, List.dropWhile_append]
  split
  · rename_i hempty
    rw [List.isEmpty_iff.mp hempty, List.singleton_append,
      List.dropWhile_cons_of_neg (by simp [hletter])]
    simp
  · simp

theorem strip_frame {first letter : Char} (hfirst : space first = false)
    (hletter : space letter = false) (front rest : Text) :
    strip space (first :: (front ++ letter :: rest)) =
      first :: (front ++ letter :: rest.rdropWhile space) := by
  rw [strip, List.dropWhile_cons_of_neg (by simp [hfirst])]
  exact rdropWhile_append hletter (first :: front) rest

/-- What is left of the rest of a line when its end is trimmed. -/
theorem closed_rdropWhile (hbar : space '|' = false) {ending : Text}
    (hending : ∀ c ∈ ending, space c = true) (h : Closed '|' rest) :
    Closed '|' ((rest ++ ending).rdropWhile space) := by
  rcases h with rfl | ⟨more, rfl⟩
  · exact .inl (List.rdropWhile_eq_nil_iff.mpr hending)
  · exact .inr ⟨_, rdropWhile_append hbar [] (more ++ ending)⟩

end Trimming

section Reading

theorem Decoding.closed {D : Str → Text → Prop} (hD : Decoding D) {bytes : Str}
    (h : Closed 124 bytes) (hrest : D bytes rest) : Closed '|' rest := by
  rcases h with rfl | ⟨more, rfl⟩
  · exact .inl (hD.nil hrest)
  · obtain ⟨before, after, rfl, hbefore, -⟩ :=
      hD.cut (by decide) (show D ([] ++ 124 :: more) rest from hrest)
    rw [hD.nil hbefore]
    exact .inr ⟨after, rfl⟩

def clientFrame (id : Text) (status : Verdict) (rest : Text) : Text :=
  text "V1" ++ '|' :: (id ++ '|' :: (ascii status.text ++ rest))

/-- Trimming touches the end of a response only. -/
theorem strip_clientFrame {space : Char → Bool} (hstart : space 'V' = false)
    (hok : space 'K' = false) (herr : space 'R' = false) (hbar : space '|' = false) (id : Text)
    (status : Verdict) {ending : Text} (hending : ∀ c ∈ ending, space c = true)
    (hrest : Closed '|' rest) :
    ∃ rest', Closed '|' rest' ∧
      strip space (clientFrame id status rest ++ ending) = clientFrame id status rest' := by
  have hlast : ∃ front letter, ascii status.text = front ++ [letter] ∧ space letter = false := by
    cases status with
    | ok => exact ⟨['O'], 'K', by decide, hok⟩
    | err => exact ⟨['E', 'R'], 'R', by decide, herr⟩
  obtain ⟨front, letter, htext, hletter⟩ := hlast
  have hversion : text "V1" = ['V', '1'] := by decide
  have hshape : ∀ tail, clientFrame id status tail =
      'V' :: (('1' :: '|' :: (id ++ '|' :: front)) ++ letter :: tail) := by
    intro tail
    simp [clientFrame, hversion, htext]
  refine ⟨(rest ++ ending).rdropWhile space,
    closed_rdropWhile hbar hending hrest, ?_⟩
  rw [hshape, hshape, ← strip_frame hstart hletter]
  simp

/-- A client finds the status and the id in the frame. -/
theorem readResponse_clientFrame (message : List Text → Text) {id : Text} (hid : '|' ∉ id)
    (status : Verdict) (hrest : Closed '|' rest) :
    ∃ r, readResponse message (clientFrame id status rest) = .ok r ∧ r.status = status ∧
      r.correlationID = id := by
  have hversion : '|' ∉ text "V1" := by decide
  have htext : '|' ∉ ascii status.text := by
    cases status with
    | ok => decide
    | err => decide
  obtain ⟨others, hsplit⟩ := splitOn_fields hversion hid htext hrest
  have hok : ascii Verdict.ok.text = text "OK" := rfl
  have herr : ascii Verdict.err.text = text "ERR" := rfl
  have hne : text "ERR" ≠ text "OK" := by decide
  rw [readResponse, clientFrame, hsplit]
  cases status with
  | ok =>
    simp only [hok, ne_eq, not_true_eq_false, if_false, if_true]
    exact ⟨_, rfl, rfl, rfl⟩
  | err =>
    simp only [herr, hne, ne_eq, not_true_eq_false, if_false, if_true]
    exact ⟨_, rfl, rfl, rfl⟩

variable {D : Str → Text → Prop} (hD : Decoding D) {t : Text} {correlationID rest : Str}
  {status : Verdict}

include hD

/-- Cut at its newline and trimmed, a response is a line of the same fields. -/
theorem receivedLine_frame (sdk : Sdk) (hrest : Closed 124 rest)
    (hline : OneLine (frame correlationID status rest))
    (h : D (frame correlationID status rest ++ [10]) t) :
    ∃ id rest', Closed '|' rest' ∧ D correlationID id ∧
      receivedLine sdk t = clientFrame id status rest' := by
  obtain ⟨body, after, rfl, hbody, hafter⟩ := hD.cut (by decide) h
  have hfree : '\n' ∉ body := hD.free (show (10 : UInt8).toNat < 128 by decide) hline hbody
  obtain ⟨id, more, rfl, hid, hmore⟩ := hD.frame hbody
  have hnewline : '\n' ∉ clientFrame id status more := hfree
  have hkeep : ∀ c ∈ clientFrame id status more, decide (c ≠ '\n') = true := by
    intro c hc
    exact decide_eq_true (fun heq => hnewline (heq ▸ hc))
  have hchar : Char.ofNat (10 : UInt8).toNat = '\n' := rfl
  have htake : (clientFrame id status more ++ '\n' :: after).takeWhile (fun c => c ≠ '\n') =
      clientFrame id status more := by
    rw [List.takeWhile_append_of_pos hkeep, List.takeWhile_cons_of_neg (by simp), List.append_nil]
  have hdrop : (clientFrame id status more ++ '\n' :: after).dropWhile (fun c => c ≠ '\n') =
      '\n' :: after := by
    rw [List.dropWhile_append_of_pos hkeep, List.dropWhile_cons_of_neg (by simp)]
  have hclosed := hD.closed hrest hmore
  rw [hchar]
  cases sdk with
  | typescript =>
    have hending : ∀ c ∈ ([] : Text), jsSpace c = true := by simp
    obtain ⟨rest', hrest', hstrip⟩ :=
      strip_clientFrame rfl rfl rfl rfl id status hending hclosed
    refine ⟨id, rest', hrest', hid, ?_⟩
    rw [receivedLine]
    exact (congrArg _ htake).trans (by simpa using hstrip)
  | python =>
    have hending : ∀ c ∈ ['\n'], pySpace c = true := List.forall_mem_singleton.mpr rfl
    obtain ⟨rest', hrest', hstrip⟩ :=
      strip_clientFrame rfl rfl rfl rfl id status hending hclosed
    refine ⟨id, rest', hrest', hid, ?_⟩
    rw [receivedLine, ← clientFrame, htake, hdrop]
    exact hstrip

/-- Both clients read the status and the correlation id that were written. -/
theorem parseResponse_frame (sdk : Sdk) (hid : (124 : UInt8) ∉ correlationID)
    (hrest : Closed 124 rest) (hline : OneLine (frame correlationID status rest))
    (h : D (frame correlationID status rest ++ [10]) t) :
    ∃ r, parseResponse sdk (receivedLine sdk t) = .ok r ∧ r.status = status ∧
      D correlationID r.correlationID := by
  obtain ⟨id, rest', hrest', hread', hreceived⟩ := receivedLine_frame hD sdk hrest hline h
  have hbar : '|' ∉ id := hD.free (show (124 : UInt8).toNat < 128 by decide) hid hread'
  obtain ⟨r, hread, hstatus, rfl⟩ :=
    readResponse_clientFrame (errorMessage sdk) hbar status hrest'
  exact ⟨r, hreceived ▸ hread, hstatus, hread'⟩

end Reading

end Flux.ClientResponses
