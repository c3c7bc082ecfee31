import Flux.ClientConnections

/-!
Responses of a TypeScript client whose connections come one after the other. When
no connection is closed inside a line, each complete line settles the pending
request with its correlation id, no line holds letters of an earlier connection,
and the chunks do not matter. The receive buffer is not emptied between
connections, so a line that was cut off is continued by the next connection.
-/
namespace Flux.ResponseStreams

open GoStrings ClientText ClientResponses ChunkedLines ClientConnections Runs

variable {id l part : Text} {lines : List Text} {past : List Session} {now : Session} {k : ℕ}

section Letters

def letterStep (c : Client) : Char ⊕ Action → Except Text Client
  | .inl x => feedOne '\n' receive c x
  | .inr action => .ok (act c.1 action, c.2)

theorem foldlM_letters (chunk : Text) (c : Client) :
    (chunk.map Sum.inl).foldlM letterStep c = feedAll '\n' receive c chunk := by
  induction chunk generalizing c with
  | nil => rfl
  | cons x chunk ih =>
    rw [List.map_cons, List.foldlM_cons, feedAll_cons]
    exact congrArg _ (funext ih)

/-- Serving the events of a session is taking in its letters. -/
theorem foldlM_serve (s : Session) {c : Client} (h : '\n' ∉ c.2) :
    s.foldlM serve c = (letters s).foldlM letterStep c := by
  induction s generalizing c with
  | nil => rfl
  | cons e s ih =>
    cases e with
    | data chunk =>
      rw [List.foldlM_cons, letters, List.foldlM_append, foldlM_letters]
      show (feed '\n' receive c chunk).bind _ = _
      rw [feed_eq_feedAll h]
      cases hfeed : feedAll '\n' receive c chunk with
      | error e => rfl
      | ok c' => exact ih (feedAll_unfinished h hfeed)
    | act action => exact ih h

end Letters

section Lines

def linesOf : List Happening → List Text
  | [] => []
  | .line l :: rest => l :: linesOf rest
  | .opened :: rest => linesOf rest
  | .act _ :: rest => linesOf rest
  | .hungUp :: rest => linesOf rest

theorem linesOf_append (front back : List Happening) :
    linesOf (front ++ back) = linesOf front ++ linesOf back := by
  induction front with
  | nil => rfl
  | cons x front ih =>
    cases x with
    | line l => exact congrArg (List.cons l) ih
    | opened => exact ih
    | act action => exact ih
    | hungUp => exact ih

theorem mem_linesOf {hs : List Happening} (h : .line l ∈ hs) : l ∈ linesOf hs := by
  obtain ⟨front, back, rfl⟩ := List.append_of_mem h
  rw [linesOf_append]
  exact List.mem_append_right _ (List.mem_cons_self ..)

def unfinished : Text → List (Char ⊕ Action) → Text
  | part, [] => part
  | part, .inl x :: rest => if x = '\n' then unfinished [] rest else unfinished (part ++ [x]) rest
  | part, .inr _ :: rest => unfinished part rest

def textOf : List (Char ⊕ Action) → Text
  | [] => []
  | .inl x :: rest => x :: textOf rest
  | .inr _ :: rest => textOf rest

theorem textOf_append (front : Text) (rest : List (Char ⊕ Action)) :
    textOf (front.map Sum.inl ++ rest) = front ++ textOf rest := by
  induction front with
  | nil => rfl
  | cons x front ih => exact congrArg (List.cons x) ih

theorem textOf_letters (s : Session) : textOf (letters s) = stream s := by
  induction s with
  | nil => rfl
  | cons e s ih =>
    cases e with
    | data chunk => rw [letters, textOf_append, ih, stream]
    | act action => exact ih

def lastPart (t : Text) : Text := (t.splitOn '\n').getLastD []

theorem completeLines_cons {line : Text} (h : '\n' ∉ line) (rest : Text) :
    completeLines (line ++ '\n' :: rest) = line :: completeLines rest := by
  rw [completeLines, List.splitOn_append_cons_self_of_not_mem h, completeLines,
    List.dropLast_cons_of_ne_nil (List.splitOn_ne_nil _ _)]

theorem lastPart_cons {line : Text} (h : '\n' ∉ line) (rest : Text) :
    lastPart (line ++ '\n' :: rest) = lastPart rest := by
  rw [lastPart, List.splitOn_append_cons_self_of_not_mem h, lastPart]
  obtain ⟨first, others, hsplit⟩ := List.exists_cons_of_ne_nil (List.splitOn_ne_nil '\n' rest)
  rw [hsplit]
  rfl

theorem completeLines_open (h : '\n' ∉ part) : completeLines part = [] := by
  rw [completeLines, List.splitOn_eq_singleton h]
  rfl

theorem lastPart_open (h : '\n' ∉ part) : lastPart part = part := by
  rw [lastPart, List.splitOn_eq_singleton h]
  rfl

/-- The script of a session has the complete lines of its stream. -/
theorem script_lines (h : '\n' ∉ part) (xs : List (Char ⊕ Action)) :
    linesOf (script part xs) = completeLines (part ++ textOf xs) ∧
      unfinished part xs = lastPart (part ++ textOf xs) := by
  induction xs generalizing part with
  | nil =>
    rw [textOf, List.append_nil, completeLines_open h, lastPart_open h]
    exact ⟨rfl, rfl⟩
  | cons x xs ih =>
    cases x with
    | inl x =>
      rw [textOf, script, unfinished]
      by_cases hx : x = '\n'
      · have hfresh : '\n' ∉ ([] : Text) := List.not_mem_nil
        obtain ⟨hlines, hlast⟩ := ih hfresh
        rw [if_pos hx, if_pos hx, hx, completeLines_cons h, lastPart_cons h]
        exact ⟨congrArg (List.cons part) hlines, hlast⟩
      · have hopen : '\n' ∉ part ++ [x] := by simp [h, Ne.symm hx]
        have hnext := ih hopen
        rw [List.append_assoc, List.singleton_append] at hnext
        rw [if_neg hx, if_neg hx]
        exact hnext
    | inr action => exact ih h

theorem completeLines_flatMap (h : ∀ line ∈ lines, '\n' ∉ line) (hpart : '\n' ∉ part) :
    completeLines (lines.flatMap (fun line => line ++ ['\n']) ++ part) = lines ∧
      lastPart (lines.flatMap (fun line => line ++ ['\n']) ++ part) = part := by
  induction lines with
  | nil => exact ⟨completeLines_open hpart, lastPart_open hpart⟩
  | cons line lines ih =>
    have hline := h line (List.mem_cons_self ..)
    obtain ⟨hlines, hlast⟩ := ih (fun l hl => h l (List.mem_cons_of_mem _ hl))
    simp only [List.flatMap_cons, List.append_assoc, List.cons_append, List.nil_append]
    rw [completeLines_cons hline, lastPart_cons hline, hlines, hlast]
    exact ⟨rfl, rfl⟩

theorem script_sends {s : Session} (h : Sends s lines part) :
    linesOf (script [] (letters s)) = lines ∧ completeLines (stream s) = lines ∧
      unfinished [] (letters s) = part := by
  have hfresh : '\n' ∉ ([] : Text) := List.not_mem_nil
  obtain ⟨hlines, hlast⟩ := script_lines hfresh (letters s)
  obtain ⟨hcomplete, hpart⟩ :=
    completeLines_flatMap (fun l hl => (h.wellFormed l hl).1) h.part_open
  rw [List.nil_append, textOf_letters, h.stream_eq] at hlines hlast
  rw [h.stream_eq]
  exact ⟨hlines.trans hcomplete, hcomplete, hlast.trans hpart⟩

end Lines

section Sessions

/-- What the client reads from a well-formed line. -/
theorem parseResponse_wellFormed (h : WellFormed l) :
    ∃ r, parseResponse .typescript (strip jsSpace l) = .ok r ∧ strip jsSpace l ≠ [] := by
  obtain ⟨-, id, status, rest, hid, hrest, rfl⟩ := h
  have hnone : ∀ c ∈ ([] : Text), jsSpace c = true := by simp
  obtain ⟨rest', hrest', hstrip⟩ := strip_clientFrame rfl rfl rfl rfl id status hnone hrest
  obtain ⟨r, hread, -, -⟩ :=
    readResponse_clientFrame (errorMessage .typescript) hid status hrest'
  rw [List.append_nil] at hstrip
  refine ⟨r, by rw [hstrip]; exact hread, ?_⟩
  rw [hstrip, clientFrame]
  simp

theorem receive_wellFormed (h : WellFormed l) (a : Account) : receive a l = .ok (answered a l) := by
  obtain ⟨r, hparse, hne⟩ := parseResponse_wellFormed h
  simp only [receive, hne, if_false, handleLine, answered, hparse]
  split
  · rfl
  · rfl

/-- Letters that complete well-formed lines only are taken in as the script says. -/
theorem foldlM_letterStep (xs : List (Char ⊕ Action)) (c : Client)
    (h : ∀ l ∈ linesOf (script c.2 xs), WellFormed l) :
    xs.foldlM letterStep c = .ok (run happen c.1 (script c.2 xs), unfinished c.2 xs) := by
  induction xs generalizing c with
  | nil => rfl
  | cons x xs ih =>
    rw [List.foldlM_cons]
    cases x with
    | inl x =>
      rw [script] at h ⊢
      rw [unfinished]
      by_cases hx : x = '\n'
      · rw [if_pos hx] at h
        have hline : feedOne '\n' receive c x = .ok (answered c.1 c.2, []) := by
          rw [feedOne, if_pos hx, receive_wellFormed (h c.2 (List.mem_cons_self ..))]
          rfl
        rw [if_pos hx, if_pos hx, letterStep, hline]
        exact ih (answered c.1 c.2, []) (fun l hl => h l (List.mem_cons_of_mem _ hl))
      · rw [if_neg hx] at h
        have hletter : feedOne '\n' receive c x = .ok (c.1, c.2 ++ [x]) := if_neg hx
        rw [if_neg hx, if_neg hx, letterStep, hletter]
        exact ih (c.1, c.2 ++ [x]) h
    | inr action => exact ih (act c.1 action, c.2) h

variable {s : Session} {lines : List Text} {part : Text}

theorem converse_sends (h : Sends s lines part) (a : Account) :
    converse (a, []) s = .ok (run happen a (.opened :: script [] (letters s)), part) := by
  obtain ⟨hlines, -, hpart⟩ := script_sends h
  rw [converse, foldlM_serve s (c := (opened a, [])) List.not_mem_nil,
    foldlM_letterStep _ _ (by rw [hlines]; exact h.wellFormed), hpart]
  rfl

theorem visit_sends (h : Sends s lines []) (a : Account) :
    visit (a, []) s =
      .ok (run happen a (.opened :: (script [] (letters s) ++ [.hungUp])), []) := by
  rw [visit, converse_sends h, ← List.cons_append, run_append]
  rfl

theorem play_sends (hpast : ∀ s ∈ past, ∃ lines, Sends s lines []) (hnow : Sends now lines part) :
    play past now = .ok (run happen newClient.1 (history past now), part) := by
  have hall : ∀ a, past.foldlM visit (a, []) = .ok (run happen a
      (past.flatMap (fun s => .opened :: (script [] (letters s) ++ [.hungUp]))), []) := by
    induction past with
    | nil => exact fun _ => rfl
    | cons s past ih =>
      intro a
      obtain ⟨first, hfirst⟩ := hpast s (List.mem_cons_self ..)
      rw [List.foldlM_cons, visit_sends hfirst, List.flatMap_cons, run_append]
      exact ih (fun s' hs' => hpast s' (List.mem_cons_of_mem _ hs')) _
  rw [play]
  show (past.foldlM visit (newClient.1, [])).bind _ = _
  rw [hall, history, run_append]
  exact converse_sends hnow _

end Sessions

section Accounts

structure Accounted (a : Account) : Prop where
  seq : a.correlationSeq = a.sent.length + 1
  sent : ∀ (k : ℕ) id, a.sent[k]? = some id → id = correlationID (k + 1)
  pending : ∀ e ∈ a.pending, a.sent[e.2]? = some e.1
  timers : ∀ k ∈ a.timers, k ∈ a.pending.map Prod.snd
  nodup : (a.settled.map Prod.fst ++ a.pending.map Prod.snd).Nodup
  given : ∀ k ∈ a.settled.map Prod.fst, k < a.sent.length

theorem correlationID_injective {m n : Int} (h : correlationID m = correlationID n) : m = n := by
  have hascii : ∀ k : Int, utf8 (ascii (itoa k)) = itoa k := by
    intro k
    refine utf8_ascii _ (fun b hb => ?_)
    rcases mem_itoa k b hb with rfl | hdigit
    · decide
    · omega
  have hbytes := congrArg utf8 h
  rw [correlationID, correlationID, hascii, hascii] at hbytes
  exact itoa_injective _ _ hbytes

theorem mem_of_mapGet {m : List (Text × ℕ)} (h : mapGet m id = some k) : (id, k) ∈ m := by
  obtain ⟨e, he, rfl⟩ := Option.map_eq_some_iff.mp h
  have hkey : e.1 = id := by simpa using List.find?_some he
  exact hkey ▸ List.mem_of_find?_eq_some he

theorem mapSet_new {m : List (Text × ℕ)} (h : ∀ e ∈ m, e.1 ≠ id) (k : ℕ) :
    mapSet m id k = m ++ [(id, k)] := by
  have hnone : mapGet m id = none := by
    rw [mapGet, Option.map_eq_none_iff, List.find?_eq_none]
    simpa using h
  rw [mapSet, hnone]
  rfl

namespace Accounted

variable {a : Account} (h : Accounted a)

include h

/-- No two requests have the same correlation id. -/
theorem same_request {k' : ℕ} (hk : a.sent[k]? = some id) (hk' : a.sent[k']? = some id) :
    k = k' := by
  have hseq := correlationID_injective ((h.sent k id hk).symm.trans (h.sent k' id hk'))
  omega

theorem mapDelete_eq (hmem : (id, k) ∈ a.pending) :
    mapDelete a.pending id = a.pending.erase (id, k) := by
  have hnodup : a.pending.Nodup := (List.nodup_append.mp h.nodup).2.1.of_map _
  rw [hnodup.erase_eq_filter, mapDelete]
  refine List.filter_congr (fun e he => ?_)
  by_cases hkey : e.1 = id
  · have hsame := h.same_request (h.pending _ hmem) (hkey ▸ h.pending e he)
    have heq : e = (id, k) := Prod.ext hkey hsame.symm
    simp [heq]
  · have hne : e ≠ (id, k) := fun heq => hkey (congrArg Prod.fst heq)
    simp [hkey, hne]

theorem settle (hmem : (id, k) ∈ a.pending) (outcome : Outcome) :
    Accounted (settle a id k k outcome) := by
  have hdelete := h.mapDelete_eq hmem
  have hpending : ∀ e ∈ mapDelete a.pending id, e ∈ a.pending :=
    fun e he => List.mem_of_mem_filter he
  refine ⟨h.seq, h.sent, fun e he => h.pending e (hpending e he), ?_, ?_, ?_⟩
  · intro k' hk'
    obtain ⟨hruns, hother⟩ := List.mem_filter.mp hk'
    obtain ⟨e, he, rfl⟩ := List.mem_map.mp (h.timers k' hruns)
    refine List.mem_map_of_mem (List.mem_filter.mpr ⟨he, ?_⟩)
    have hkey : e.1 ≠ id := by
      intro hkey
      have hsame := h.same_request (h.pending _ hmem) (hkey ▸ h.pending e he)
      exact absurd hsame.symm (by simpa using hother)
    simpa using hkey
  · have hperm : ((a.settled ++ [(k, outcome)]).map Prod.fst ++
        (mapDelete a.pending id).map Prod.snd).Perm
          (a.settled.map Prod.fst ++ a.pending.map Prod.snd) := by
      rw [hdelete, List.map_append, List.append_assoc]
      exact ((List.perm_cons_erase hmem).map Prod.snd).symm.append_left _
    exact hperm.nodup_iff.mpr h.nodup
  · intro k' hk'
    rw [ClientConnections.settle, List.map_append] at hk'
    rcases List.mem_append.mp hk' with hold | hnew
    · exact h.given k' hold
    · rw [List.mem_singleton.mp hnew]
      exact (List.getElem?_eq_some_iff.mp (h.pending _ hmem)).1

theorem rejectAllPending (message : Text) : Accounted (rejectAllPending a message) := by
  refine ⟨h.seq, h.sent, nofun, ?_, ?_, ?_⟩
  · intro k hk
    obtain ⟨hruns, hother⟩ := List.mem_filter.mp hk
    exact absurd (h.timers k hruns) (by simpa using hother)
  · simpa [ClientConnections.rejectAllPending, Function.comp_def] using h.nodup
  · intro k hk
    rw [ClientConnections.rejectAllPending, List.map_append] at hk
    rcases List.mem_append.mp hk with hold | hnew
    · exact h.given k hold
    · rw [List.map_map] at hnew
      obtain ⟨e, he, rfl⟩ := List.mem_map.mp hnew
      exact (List.getElem?_eq_some_iff.mp (h.pending e he)).1

theorem send (hexact : a.sent.length + 2 < 2 ^ 53) : Accounted (send a) := by
  have hnew : ∀ e ∈ a.pending, e.1 ≠ correlationID a.correlationSeq := by
    intro e he heq
    obtain ⟨hlt, -⟩ := List.getElem?_eq_some_iff.mp (h.pending e he)
    have hid := correlationID_injective ((h.sent e.2 e.1 (h.pending e he)).symm.trans heq)
    rw [h.seq] at hid
    omega
  have hpending : mapSet a.pending (correlationID a.correlationSeq) a.sent.length =
      a.pending ++ [(correlationID a.correlationSeq, a.sent.length)] := mapSet_new hnew _
  have hkept : ∀ (k : ℕ) id, a.sent[k]? = some id →
      (a.sent ++ [correlationID a.correlationSeq])[k]? = some id := by
    intro k id hk
    rw [List.getElem?_append_left (List.getElem?_eq_some_iff.mp hk).1]
    exact hk
  refine ⟨?_, ?_, ?_, ?_, ?_, ?_⟩
  · show nearestDouble (a.correlationSeq + 1) = _
    rw [h.seq, nearestDouble_of_small _ (by omega)]
    simp [ClientConnections.send]
  · intro k id hk
    rcases Nat.lt_or_ge k a.sent.length with hlt | hge
    · refine h.sent k id ?_
      rwa [ClientConnections.send, List.getElem?_append_left hlt] at hk
    · rw [ClientConnections.send, List.getElem?_append_right hge,
        List.getElem?_singleton] at hk
      split at hk
      · rename_i hzero
        rw [← Option.some.inj hk, h.seq, show a.sent.length = k by omega]
      · cases hk
  · intro e he
    rw [ClientConnections.send, hpending] at he
    rcases List.mem_append.mp he with hold | hlast
    · exact hkept _ _ (h.pending e hold)
    · rw [List.mem_singleton.mp hlast]
      exact List.getElem?_concat_length
  · intro k hk
    rw [ClientConnections.send] at hk ⊢
    rw [hpending, List.map_append]
    rcases List.mem_append.mp hk with hold | hlast
    · exact List.mem_append_left _ (h.timers k hold)
    · exact List.mem_append_right _ hlast
  · have hfresh : a.sent.length ∉ a.settled.map Prod.fst ++ a.pending.map Prod.snd := by
      intro hmem
      rcases List.mem_append.mp hmem with hold | hnow
      · exact absurd (h.given _ hold) (by omega)
      · obtain ⟨e, he, heq⟩ := List.mem_map.mp hnow
        obtain ⟨hlt, -⟩ := List.getElem?_eq_some_iff.mp (h.pending e he)
        omega
    rw [ClientConnections.send, hpending, List.map_append, ← List.append_assoc]
    exact h.nodup.append (List.nodup_singleton _) (by simpa using hfresh)
  · intro k hk
    have hlt := h.given k hk
    rw [ClientConnections.send, List.length_append, List.length_singleton]
    omega

theorem act (action : Action) (hexact : (act a action).sent.length + 1 < 2 ^ 53) :
    Accounted (act a action) := by
  cases action with
  | send =>
    unfold ClientConnections.act at hexact ⊢
    dsimp only at hexact ⊢
    split at hexact
    · rename_i hconnected
      rw [if_pos hconnected]
      rw [ClientConnections.send, List.length_append, List.length_singleton] at hexact
      exact h.send (by omega)
    · rename_i hconnected
      rw [if_neg hconnected]
      exact h
  | timeout request =>
    unfold ClientConnections.act
    dsimp only
    split
    · exact h
    · rename_i id hid
      split
      · rename_i hruns
        obtain ⟨e, he, heq⟩ := List.mem_map.mp (h.timers request hruns)
        have hkey : e.1 = id := Option.some.inj ((h.pending e he).symm.trans (heq ▸ hid))
        exact h.settle (hkey ▸ heq ▸ he) _
      · exact h
  | writeFailed request message =>
    unfold ClientConnections.act
    dsimp only
    split
    · exact h
    · rename_i id hid
      split
      · exact h
      · rename_i entry hget
        have hmem := mem_of_mapGet hget
        rw [h.same_request hid (h.pending _ hmem)]
        exact h.settle hmem _
  | error message => exact h.rejectAllPending message
  | close => exact ⟨h.seq, h.sent, h.pending, h.timers, h.nodup, h.given⟩

theorem answered (l : Text) : Accounted (answered a l) := by
  have hsame : ∀ handled, Accounted { a with handled := handled } :=
    fun handled => ⟨h.seq, h.sent, h.pending, h.timers, h.nodup, h.given⟩
  unfold ClientConnections.answered
  split
  · exact h
  · dsimp only
    split
    · exact hsame _
    · exact (hsame _).settle (mem_of_mapGet ‹_›) _

end Accounted

def isSend : Happening → Bool
  | .act .send => true
  | _ => false

theorem act_sent (a : Account) (action : Action) : (act a action).sent = a.sent ∨
    (action = .send ∧ (act a action).sent.length = a.sent.length + 1) := by
  cases action with
  | send =>
    unfold act
    dsimp only
    split
    · exact .inr ⟨rfl, by simp [send]⟩
    · exact .inl rfl
  | timeout request =>
    unfold act
    dsimp only
    split
    · exact .inl rfl
    · split
      · exact .inl rfl
      · exact .inl rfl
  | writeFailed request message =>
    unfold act
    dsimp only
    split
    · exact .inl rfl
    · split
      · exact .inl rfl
      · exact .inl rfl
  | error message => exact .inl rfl
  | close => exact .inl rfl

/-- Only sending makes requests. -/
theorem happen_sent (a : Account) (x : Happening) : (happen a x).sent = a.sent ∨
    (isSend x = true ∧ (happen a x).sent.length = a.sent.length + 1) := by
  cases x with
  | opened => exact .inl rfl
  | line l =>
    left
    unfold happen answered
    dsimp only
    split
    · rfl
    · split
      · rfl
      · rfl
  | act action =>
    rcases act_sent a action with hsame | ⟨rfl, hlength⟩
    · exact .inl hsame
    · exact .inr ⟨rfl, hlength⟩
  | hungUp => exact .inl rfl

theorem run_sent (hs : List Happening) (a : Account) :
    (run happen a hs).sent.length ≤ a.sent.length + hs.countP isSend := by
  induction hs generalizing a with
  | nil => simp
  | cons x hs ih =>
    have hrest := ih (happen a x)
    rw [run_cons, List.countP_cons]
    rcases happen_sent a x with hsame | ⟨hsend, hlength⟩
    · rw [hsame] at hrest
      omega
    · rw [if_pos hsend]
      omega

theorem accounted_step (a : Account) (x : Happening)
    (h : a.sent.length + 1 < 2 ^ 53 → Accounted a)
    (hexact : (happen a x).sent.length + 1 < 2 ^ 53) :
    Accounted (happen a x) := by
  have hnow : Accounted a := by
    refine h ?_
    rcases happen_sent a x with hsame | ⟨-, hlength⟩
    · rwa [hsame] at hexact
    · omega
  cases x with
  | opened => exact ⟨hnow.seq, hnow.sent, hnow.pending, hnow.timers, hnow.nodup, hnow.given⟩
  | line l => exact hnow.answered l
  | act action => exact hnow.act action hexact
  | hungUp =>
    have hdown : Accounted { a with connected := false } :=
      ⟨hnow.seq, hnow.sent, hnow.pending, hnow.timers, hnow.nodup, hnow.given⟩
    exact hdown.rejectAllPending _

theorem accounted_run (hs : List Happening) (hexact : hs.countP isSend + 1 < 2 ^ 53) :
    Accounted (run happen newClient.1 hs) := by
  have hstart : Accounted newClient.1 :=
    ⟨rfl, by simp [newClient], nofun, nofun, List.nodup_nil, nofun⟩
  have hvalid : Valid happen (fun _ _ => True) newClient.1 hs :=
    valid_of_forall (fun _ _ _ => trivial)
  have hlength := run_sent hs newClient.1
  have hrun := run_invariant (I := fun a => a.sent.length + 1 < 2 ^ 53 → Accounted a)
    (fun a x h _ => accounted_step a x h) (fun _ => hstart) hvalid
  have hnone : newClient.1.sent.length = 0 := rfl
  exact hrun (by omega)

theorem script_sends_count (part : Text) (xs : List (Char ⊕ Action)) :
    (script part xs).countP isSend = xs.countP sendsOne := by
  induction xs generalizing part with
  | nil => rfl
  | cons x xs ih =>
    cases x with
    | inl x =>
      rw [script, List.countP_cons_of_neg (by simp [sendsOne])]
      split
      · rw [List.countP_cons_of_neg (by simp [isSend]), ih]
      · exact ih _
    | inr action =>
      rw [script, List.countP_cons, List.countP_cons, ih]
      cases action <;> rfl

theorem history_sends (past : List Session) (now : Session) :
    (history past now).countP isSend = sends past now := by
  have hone : ∀ s, (script [] (letters s)).countP isSend = (letters s).countP sendsOne :=
    fun s => script_sends_count [] (letters s)
  induction past with
  | nil => simp [history, sends, hone, isSend]
  | cons s past ih =>
    have hhead : (Happening.opened :: (script [] (letters s) ++ [.hungUp])).countP isSend =
        (letters s).countP sendsOne := by
      rw [List.countP_cons_of_neg (by simp [isSend]), List.countP_append, hone]
      rfl
    rw [history, sends] at ih ⊢
    rw [List.flatMap_cons, List.append_assoc, List.countP_append, hhead, ih, List.cons_append,
      List.flatMap_cons, List.countP_append]

theorem happen_handled (a : Account) (x : Happening) (h : ∀ l, x = .line l → WellFormed l) :
    (happen a x).handled = a.handled ++ (linesOf [x]).map (strip jsSpace) := by
  cases x with
  | line l =>
    obtain ⟨r, hparse, -⟩ := parseResponse_wellFormed (h l rfl)
    simp only [happen, answered, hparse]
    split
    · rfl
    · rfl
  | opened => exact (List.append_nil _).symm
  | hungUp => exact (List.append_nil _).symm
  | act action =>
    refine Eq.trans ?_ (List.append_nil _).symm
    unfold happen act
    cases action with
    | send => dsimp only; split <;> rfl
    | timeout request =>
      dsimp only
      split
      · rfl
      · split <;> rfl
    | writeFailed request message =>
      dsimp only
      split
      · rfl
      · split <;> rfl
    | error message => rfl
    | close => rfl

/-- The client handles the lines of its history in their order. -/
theorem run_handled (hs : List Happening) (h : ∀ l ∈ linesOf hs, WellFormed l) (a : Account) :
    (run happen a hs).handled = a.handled ++ (linesOf hs).map (strip jsSpace) := by
  induction hs generalizing a with
  | nil => exact (List.append_nil _).symm
  | cons x hs ih =>
    have hsplit : linesOf (x :: hs) = linesOf [x] ++ linesOf hs := linesOf_append [x] hs
    rw [hsplit] at h ⊢
    have hfirst := happen_handled a x (fun l hl => by
      subst hl
      exact h l (List.mem_append_left _ (List.mem_cons_self ..)))
    rw [run_cons, ih (fun l hl => h l (List.mem_append_right _ hl)), hfirst, List.map_append,
      List.append_assoc]

/-- The lines of a history are those of its connections. -/
theorem linesOf_history (hpast : ∀ s ∈ past, ∃ lines, Sends s lines [])
    (hnow : Sends now lines part) :
    linesOf (history past now) = (past ++ [now]).flatMap (fun s => completeLines (stream s)) ∧
      ∀ l ∈ linesOf (history past now), WellFormed l := by
  obtain ⟨hscript, hcomplete, -⟩ := script_sends hnow
  induction past with
  | nil =>
    have hlines : linesOf (history [] now) = lines := hscript
    rw [hlines]
    exact ⟨by simp [hcomplete], hnow.wellFormed⟩
  | cons s past ih =>
    obtain ⟨first, hfirst⟩ := hpast s (List.mem_cons_self ..)
    obtain ⟨hscript', hcomplete', -⟩ := script_sends hfirst
    obtain ⟨hrest, hall⟩ := ih (fun s' hs' => hpast s' (List.mem_cons_of_mem _ hs'))
    have hsplit : linesOf (history (s :: past) now) = first ++ linesOf (history past now) := by
      have hshape : history (s :: past) now =
          .opened :: (script [] (letters s) ++ [.hungUp]) ++ history past now := by
        rw [history, history, List.flatMap_cons, List.append_assoc]
      have hown : linesOf (.opened :: (script [] (letters s) ++ [.hungUp])) = first := by
        rw [linesOf, linesOf_append, hscript']
        exact List.append_nil _
      rw [hshape, linesOf_append, hown]
    rw [hsplit, List.cons_append, List.flatMap_cons, hcomplete', hrest]
    refine ⟨rfl, fun l hl => ?_⟩
    rcases List.mem_append.mp hl with hmem | hmem
    · exact hfirst.wellFormed l hmem
    · exact hall l (hrest ▸ hmem)

end Accounts

section Demultiplexing

def Settles (a : Account) (l : Text) (a' : Account) : Prop :=
  ∃ r, parseResponse .typescript (strip jsSpace l) = .ok r ∧
    (∀ request, (r.correlationID, request) ∈ a.pending →
      a.sent[request]? = some r.correlationID ∧
        a'.settled = a.settled ++ [(request, outcomeOf r)] ∧
        a'.pending = a.pending.erase (r.correlationID, request)) ∧
    ((∀ request, (r.correlationID, request) ∉ a.pending) →
      a'.settled = a.settled ∧ a'.pending = a.pending)

/-- A well-formed line settles its request. -/
theorem settles_answered (h : WellFormed l) {a : Account} (haccount : Accounted a) :
    Settles a l (answered a l) := by
  obtain ⟨r, hparse, -⟩ := parseResponse_wellFormed h
  refine ⟨r, hparse, fun request hmem => ?_, fun hnone => ?_⟩
  · have hsent : a.sent[request]? = some r.correlationID := haccount.pending _ hmem
    cases hget : mapGet a.pending r.correlationID with
    | none =>
      rw [mapGet, Option.map_eq_none_iff, List.find?_eq_none] at hget
      exact absurd (hget _ hmem) (by simp)
    | some entry =>
      have hentry : a.sent[entry]? = some r.correlationID :=
        haccount.pending _ (mem_of_mapGet hget)
      cases haccount.same_request hsent hentry
      refine ⟨hsent, ?_⟩
      simp [answered, hparse, hget, settle, haccount.mapDelete_eq hmem]
  · cases hget : mapGet a.pending r.correlationID with
    | none => simp [answered, hparse, hget]
    | some entry => exact absurd (mem_of_mapGet hget) (hnone entry)

/-- What the client has done after the connections of `past` and on the open one: its
state is that of the history in which lines arrive whole, each of them settling its
request; no request is settled twice; it has handled the lines of each connection and
nothing else; and other chunks of the same letters lead to the same state. -/
structure Demultiplexed (past : List Session) (now : Session) (c : Client) : Prop where
  whole : c.1 = run happen newClient.1 (history past now)
  settles : ∀ front l back, history past now = front ++ .line l :: back →
    Settles (run happen newClient.1 front) l (run happen newClient.1 (front ++ [.line l]))
  once : (c.1.settled.map Prod.fst).Nodup
  handled : c.1.handled =
    ((past ++ [now]).flatMap (fun s => completeLines (stream s))).map (strip jsSpace)
  rechunked : ∀ past' now', past'.map letters = past.map letters → letters now' = letters now →
    play past' now' = .ok c

theorem history_congr {past' : List Session} {now' : Session}
    (hpast : past'.map letters = past.map letters) (hnow : letters now' = letters now) :
    history past' now' = history past now := by
  have hmap : ∀ p : List Session,
      p.flatMap (fun s => .opened :: (script [] (letters s) ++ [.hungUp])) =
        (p.map letters).flatMap (fun xs => .opened :: (script [] xs ++ [.hungUp])) := by
    intro p
    rw [List.flatMap_map]
  rw [history, history, hmap, hmap, hpast, hnow]

theorem sends_congr {s s' : Session} (h : Sends s lines part) (hletters : letters s' = letters s) :
    Sends s' lines part :=
  ⟨by rw [← textOf_letters, hletters, textOf_letters, h.stream_eq], h.wellFormed, h.part_open⟩

/-- In every run in which the broker sends well-formed lines and no connection is
closed inside a line, and in which fewer than `2 ^ 53 - 1` requests are sent, the
responses are demultiplexed at every moment. -/
theorem responses_demultiplexed (past : List Session) (now : Session)
    (hsent : sends past now + 1 < 2 ^ 53) (hpast : ∀ s ∈ past, ∃ lines, Sends s lines [])
    (hnow : ∃ lines part, Sends now lines part) :
    ∃ c, play past now = .ok c ∧ Demultiplexed past now c := by
  obtain ⟨lines, part, hsends⟩ := hnow
  obtain ⟨hlines, hwell⟩ := linesOf_history hpast hsends
  have hexact : (history past now).countP isSend + 1 < 2 ^ 53 := by rwa [history_sends]
  refine ⟨_, play_sends hpast hsends, rfl, ?_, ?_, ?_, ?_⟩
  · intro front l back hsplit
    have hmem : l ∈ linesOf (history past now) := mem_linesOf (by rw [hsplit]; simp)
    rw [hsplit, List.countP_append] at hexact
    rw [run_append]
    exact settles_answered (hwell l hmem) (accounted_run front (by omega))
  · exact (accounted_run (history past now) hexact).nodup.sublist (List.sublist_append_left _ _)
  · rw [run_handled _ hwell, hlines]
    rfl
  · intro past' now' hsame hsame'
    have hpast' : ∀ s ∈ past', ∃ lines, Sends s lines [] := by
      intro s hs
      have hmem : letters s ∈ past.map letters := hsame ▸ List.mem_map_of_mem hs
      obtain ⟨s₀, hs₀, heq⟩ := List.mem_map.mp hmem
      obtain ⟨lines₀, hlines₀⟩ := hpast s₀ hs₀
      exact ⟨lines₀, sends_congr hlines₀ heq.symm⟩
    rw [play_sends hpast' (sends_congr hsends hsame'), history_congr hsame hsame']

def firstVisit : Session :=
  [.act .send, .data (text "V1|1|O"), .data (text "K|hw=0\n")]

def secondVisit : Session :=
  [.act .send, .data (text "V1|2|ERR|NOT_LEADER|x\nV1"), .data (text "|9")]

/-- Two connections, one after the other. -/
theorem responses_demultiplexed_visits : (∀ s ∈ [firstVisit], ∃ lines, Sends s lines []) ∧
    ∃ c, play [firstVisit] secondVisit = .ok c ∧ Demultiplexed [firstVisit] secondVisit c := by
  have hfirst : Sends firstVisit [text "V1|1|OK|hw=0"] [] := by
    refine ⟨by decide, List.forall_mem_singleton.mpr ⟨by decide, ?_⟩, List.not_mem_nil⟩
    exact ⟨text "1", .ok, text "|hw=0", by decide, .inr ⟨text "hw=0", by decide⟩, by decide⟩
  have hsecond : Sends secondVisit [text "V1|2|ERR|NOT_LEADER|x"] (text "V1|9") := by
    refine ⟨by decide, List.forall_mem_singleton.mpr ⟨by decide, ?_⟩, by decide⟩
    exact ⟨text "2", .err, text "|NOT_LEADER|x", by decide, .inr ⟨text "NOT_LEADER|x", by decide⟩,
      by decide⟩
  have hpast : ∀ s ∈ [firstVisit], ∃ lines, Sends s lines [] :=
    List.forall_mem_singleton.mpr ⟨_, hfirst⟩
  exact ⟨hpast, responses_demultiplexed [firstVisit] secondVisit (by decide) hpast
    ⟨_, _, hsecond⟩⟩

def cutVisit : Session := [.act .send, .data (text "V1|1|OK|hw")]

def nextVisit : Session := [.act .send, .data (text "V1|2|OK|hw=0\n")]

/-- The cut line is continued by the first line of the next connection, which is taken
for a response to the first request and ignored: the second request stays pending. -/
theorem cut_line_continued : Sends cutVisit [] (text "V1|1|OK|hw") ∧
    Sends nextVisit [text "V1|2|OK|hw=0"] [] ∧
    ∃ c, play [cutVisit] nextVisit = .ok c ∧
      c.1.handled = [text "V1|1|OK|hwV1|2|OK|hw=0"] ∧ c.1.pending = [(correlationID 2, 1)] ∧
      ¬ Demultiplexed [cutVisit] nextVisit c := by
  refine ⟨⟨by decide, by simp, by decide⟩, ⟨by decide, List.forall_mem_singleton.mpr
    ⟨by decide, ?_⟩, List.not_mem_nil⟩, _, rfl, by decide, by decide, ?_⟩
  · exact ⟨text "2", .ok, text "|hw=0", by decide, .inr ⟨text "hw=0", by decide⟩, by decide⟩
  · intro h
    exact absurd h.handled (by decide)

end Demultiplexing

end Flux.ResponseStreams
