import Flux.SegmentFiles
import Flux.TornLines

/-!
The files of a partition after a crash within the write of a line, and the lines that
are written to them afterwards. A replay finds every record of the log and every later
record exactly if no later line is glued to the torn one, but for the one glued line that
is read as its record.
-/
namespace Flux.TornTails

open GoStrings LogLines Cuts PartitionStorage SegmentedLogs StorageReplay SegmentFiles TornLines

def written (segments : List (Int × List Record)) : Files :=
  segments.map (fun g => (g.1, g.2.flatMap formatLine))

def writeAll (limit : Int) (rs : List Record) (files : Files) : Files :=
  rs.foldl (fun files r => write limit (formatLine r).length (formatLine r) files) files

theorem records_append (front back : Files) :
    records (front ++ back) = records front ++ records back :=
  List.flatMap_append

theorem records_written {segments : List (Int × List Record)}
    (h : ∀ r ∈ segments.flatMap Prod.snd, Loggable r) :
    records (written segments) = segments.flatMap Prod.snd := by
  rw [records, written, List.flatMap_map]
  refine List.flatMap_congr (fun g hg => replay_flatMap_formatLine g.2 (fun r hr => h r ?_))
  exact List.mem_flatMap.mpr ⟨g, hg, hr⟩

/-- Any text after complete lines is at the end of one file. -/
theorem write_written (limit : Int) (size : ℕ) (text : Str) (segments : List (Int × List Record)) :
    ∃ front k rs, write limit size text (written segments) =
        written front ++ [(k, rs.flatMap formatLine ++ text)] ∧
      front.flatMap Prod.snd ++ rs = segments.flatMap Prod.snd := by
  rcases List.eq_nil_or_concat segments with rfl | ⟨front, ⟨k, rs⟩, rfl⟩
  · exact ⟨[], 0, [], rfl, rfl⟩
  · rw [List.concat_eq_append]
    have hwritten : written (front ++ [(k, rs)]) =
        written front ++ [(k, rs.flatMap formatLine)] := by
      simp [written]
    rw [hwritten, write_concat]
    split
    · exact ⟨front ++ [(k, rs)], k + 1, [], by simp [written], by simp⟩
    · exact ⟨front, k, rs, rfl, by simp⟩

section Growth

def Grows (front : Files) (k : Int) (text : Str) (rs : List Record) (files : Files) : Prop :=
  ∃ xs segments, rs = xs ++ segments.flatMap Prod.snd ∧
    files = front ++ (k, text ++ xs.flatMap formatLine) :: written segments

variable {front files : Files} {k : Int} {text : Str} {rs : List Record}

theorem grows_nil (front : Files) (k : Int) (text : Str) :
    Grows front k text [] (front ++ [(k, text)]) :=
  ⟨[], [], rfl, by simp [written]⟩

/-- One more record after the torn line. -/
theorem Grows.write (h : Grows front k text rs files) (limit : Int) (r : Record) :
    Grows front k text (rs ++ [r])
      (write limit (formatLine r).length (formatLine r) files) := by
  obtain ⟨xs, segments, rfl, rfl⟩ := h
  rcases List.eq_nil_or_concat segments with rfl | ⟨init, ⟨j, ys⟩, rfl⟩
  · rw [written, List.map_nil, write_concat]
    split
    · exact ⟨xs, [(k + 1, [r])], by simp, by simp [written]⟩
    · exact ⟨xs ++ [r], [], by simp, by simp [written]⟩
  · have hfiles : front ++ (k, text ++ xs.flatMap formatLine) :: written (init.concat (j, ys)) =
        (front ++ (k, text ++ xs.flatMap formatLine) :: written init) ++
          [(j, ys.flatMap formatLine)] := by
      simp [written]
    rw [hfiles, write_concat]
    split
    · exact ⟨xs, init ++ [(j, ys)] ++ [(j + 1, [r])], by simp, by simp [written]⟩
    · exact ⟨xs, init ++ [(j, ys ++ [r])], by simp, by simp [written]⟩

theorem Grows.writeAll (h : Grows front k text rs files) (limit : Int) (more : List Record) :
    Grows front k text (rs ++ more) (writeAll limit more files) := by
  induction more generalizing rs files with
  | nil => rwa [List.append_nil]
  | cons r rest ih =>
    have hrest := ih (h.write limit r)
    rwa [List.append_assoc, List.singleton_append] at hrest

theorem Grows.records_eq (h : Grows front k text rs files) (hrs : ∀ r ∈ rs, Loggable r) :
    ∃ xs ys, rs = xs ++ ys ∧
      records files = records front ++ (replay (text ++ xs.flatMap formatLine) ++ ys) := by
  obtain ⟨xs, segments, rfl, rfl⟩ := h
  refine ⟨xs, _, rfl, ?_⟩
  rw [records_append, ← records_written (fun r hr => hrs r (List.mem_append_right _ hr))]
  rfl

end Growth

structure Starting (next : Int) (rs : List Record) : Prop where
  loggable : ∀ r ∈ rs, Loggable r
  first : ∀ r ∈ rs.head?, r.offset = next
  later : ∀ r ∈ rs.tail, next < r.offset

theorem starting_nil (next : Int) : Starting next [] :=
  ⟨by simp, by simp, by simp⟩

theorem Starting.cons {next : Int} {r : Record} {rs : List Record} (h : Starting (next + 1) rs)
    (hr : Loggable r) (hoffset : r.offset = next) : Starting next (r :: rs) where
  loggable x hx := by
    rcases List.mem_cons.mp hx with rfl | hmem
    · exact hr
    · exact h.loggable x hmem
  first x hx := by
    rwa [← Option.some.inj hx]
  later x hx := by
    cases rs with
    | nil => exact absurd hx List.not_mem_nil
    | cons y rest =>
      rcases List.mem_cons.mp hx with rfl | hmem
      · have := h.first x rfl
        omega
      · have := h.later x hmem
        omega

structure Tear where
  front : List (Int × List Record)
  id : Int
  last : List Record
  lost : Record
  part : Str
  loggable : ∀ r ∈ front.flatMap Prod.snd ++ last, Loggable r
  offsets : ∀ r ∈ front.flatMap Prod.snd ++ last, 0 ≤ r.offset ∧ r.offset < lost.offset
  next : advance Record.offset 0 (front.flatMap Prod.snd ++ last) = lost.offset
  nonneg : 0 ≤ lost.offset
  lost_loggable : Loggable lost
  part_of : part <+: formatRecord lost

namespace Tear

variable (t : Tear)

def old : List Record := t.front.flatMap Prod.snd ++ t.last

def text : Str := t.last.flatMap formatLine ++ t.part

def files : Files := written t.front ++ [(t.id, t.text)]

theorem part_no_newline : (10 : UInt8) ∉ t.part := fun hmem =>
  formatRecord_no_newline t.lost t.lost_loggable.no_newline (t.part_of.subset hmem)

theorem last_loggable : ∀ r ∈ t.last, Loggable r :=
  fun r hr => t.loggable r (List.mem_append_right _ hr)

theorem records_front : records (written t.front) = t.front.flatMap Prod.snd :=
  records_written (fun r hr => t.loggable r (List.mem_append_left _ hr))

theorem records_files : records t.files = t.old ++ (tornRecord t.part).toList := by
  rw [files, records_append, t.records_front, old, List.append_assoc,
    ← replay_tail t.last_loggable t.part_no_newline]
  exact congrArg _ (List.append_nil _)

def resumed : Int := advance Record.offset 0 (records t.files)

theorem resumed_of_none (h : tornRecord t.part = none) : t.resumed = t.lost.offset := by
  rw [resumed, records_files, h, Option.toList_none, List.append_nil]
  exact t.next

theorem resumed_cases : (tornRecord t.part = none ∧ t.resumed = t.lost.offset) ∨
    t.resumed = t.lost.offset + 1 := by
  cases htorn : tornRecord t.part with
  | none => exact .inl ⟨rfl, t.resumed_of_none htorn⟩
  | some m =>
    have hoffset := torn_offset t.lost_loggable.offset_range t.part_of htorn
    have hnext : t.old.foldl (fun n a => if n ≤ a.offset then a.offset + 1 else n) 0 =
        t.lost.offset := t.next
    refine .inr ?_
    simp [resumed, records_files, advance, List.foldl_append, hnext, htorn, hoffset]

theorem resumed_nonneg : 0 ≤ t.resumed := by
  have hnonneg := t.nonneg
  rcases t.resumed_cases with ⟨-, hresumed⟩ | hresumed <;> omega

theorem resumed_le : t.resumed ≤ t.lost.offset + 1 := by
  rcases t.resumed_cases with ⟨-, hresumed⟩ | hresumed <;> omega

theorem files_ne_nil : t.files ≠ [] := by
  simp [files]

theorem writeAll_ne_nil (limit : Int) (rs : List Record) : writeAll limit rs t.files ≠ [] := by
  obtain ⟨xs, segments, -, hfiles⟩ := (grows_nil (written t.front) t.id t.text).writeAll limit rs
  rw [files, hfiles]
  simp

def Kept (files : Files) (rs : List Record) : Prop :=
  ∀ r ∈ rs, toMessage r ∈ (records files).map toMessage

theorem kept_of_subset {files : Files} {rs : List Record} (h : rs ⊆ records files) :
    Kept files rs :=
  fun _ hr => List.mem_map_of_mem (h hr)

section Later

variable {t} {r : Record} {rest : List Record} {files : Files}

/-- Lines in a file of their own are kept, and so is the log. -/
theorem kept_of_rotated (hlog : ∀ x ∈ r :: rest, Loggable x) {k : Int}
    (h : Grows t.files k (formatLine r) rest files) : Kept files (t.old ++ r :: rest) := by
  obtain ⟨xs, ys, rfl, hrecords⟩ :=
    h.records_eq (fun x hx => hlog x (List.mem_cons_of_mem _ hx))
  have hreplay : replay (formatLine r ++ xs.flatMap formatLine) = r :: xs :=
    replay_flatMap_formatLine (r :: xs)
      (fun x hx => hlog x (List.mem_append_left ys hx))
  refine kept_of_subset (fun x hx => ?_)
  rw [hrecords, hreplay, records_files]
  rcases List.mem_append.mp hx with hold | hnew
  · exact List.mem_append_left _ (List.mem_append_left _ hold)
  · exact List.mem_append_right _ hnew

/-- Lines after complete lines are kept. -/
theorem kept_of_untorn (hpart : t.part = []) (hlog : ∀ x ∈ r :: rest, Loggable x)
    (h : Grows (written t.front) t.id (t.text ++ formatLine r) rest files) :
    Kept files (t.old ++ r :: rest) := by
  obtain ⟨xs, ys, rfl, hrecords⟩ :=
    h.records_eq (fun x hx => hlog x (List.mem_cons_of_mem _ hx))
  have htext : t.text ++ formatLine r ++ xs.flatMap formatLine =
      (t.last ++ r :: xs).flatMap formatLine := by
    simp [text, hpart]
  have hreplay : replay ((t.last ++ r :: xs).flatMap formatLine) = t.last ++ r :: xs := by
    refine replay_flatMap_formatLine _ (fun x hx => ?_)
    rcases List.mem_append.mp hx with hlast | hnew
    · exact t.last_loggable x hlast
    · exact hlog x (List.mem_append_left ys hnew)
  refine kept_of_subset (fun x hx => ?_)
  rw [hrecords, htext, hreplay, records_front]
  simpa [old] using hx

/-- The line after the torn part is glued to it. -/
theorem glued_text (xs : List Record) :
    t.text ++ formatLine r ++ xs.flatMap formatLine =
      torn (t.last.map formatRecord ++ (t.part ++ formatRecord r) :: xs.map formatRecord) [] := by
  have hlines : formatLine = fun x => formatRecord x ++ [10] := rfl
  simp [text, torn, hlines, List.flatMap_map]

theorem glued_lines (hlog : ∀ x ∈ r :: rest, Loggable x) {xs : List Record} (hxs : xs ⊆ rest) :
    ∀ line ∈ t.last.map formatRecord ++ (t.part ++ formatRecord r) :: xs.map formatRecord,
      (10 : UInt8) ∉ line := by
  intro line hline
  rcases List.mem_append.mp hline with hlast | hline
  · exact (formatted t.last_loggable).1 line hlast
  · rcases List.mem_cons.mp hline with rfl | hnew
    · have hr := formatRecord_no_newline r (hlog r (List.mem_cons_self ..)).no_newline
      simp [t.part_no_newline, hr]
    · exact (formatted (fun x hx => hlog x (List.mem_cons_of_mem _ (hxs hx)))).1 line hnew

theorem glued_getLast (hr : Loggable r) (part : Str) :
    (part ++ formatRecord r).getLast? ≠ some 13 := by
  have hend := formatRecord_getLast r hr.no_return
  have hne : formatRecord r ≠ [] := by simp [formatRecord]
  rwa [List.getLast?_append_of_ne_nil _ hne]

/-- A glued line that is read as its record is a zero before the offset zero. -/
theorem zero_of_glued (hpart : t.part ≠ []) (hr : Loggable r) (hoffset : r.offset = t.resumed)
    {m : Record} (hm : parseLogLine (dropCR (t.part ++ formatRecord r)) = some m)
    (hsame : toMessage m = toMessage r) : t.part = [48] ∧ t.lost.offset = 0 := by
  obtain ⟨hmoffset, hmvalue⟩ : m.offset = r.offset ∧ m.value = r.value := by
    simpa [toMessage] using hsame
  rw [dropCR_eq_self _ (glued_getLast hr t.part)] at hm
  obtain ⟨hbar, hatoi⟩ := glued_digits hm hmvalue
  have hnone : tornRecord t.part = none := by
    rw [tornRecord, parseLogLine_no_bar (fun hmem => hbar ((dropCR_isPrefix _).subset hmem)),
      ite_self]
  have hresumed := t.resumed_of_none hnone
  have hdigits : t.part <+: itoa t.lost.offset :=
    (prefix_append_sep_iff _ _ _ _ hbar).mp t.part_of
  rw [hmoffset, hoffset, hresumed] at hatoi
  exact (atoi_repeated t.nonneg hdigits hpart hatoi).symm

/-- The record of a glued line is lost but for the one exception. -/
theorem zero_of_kept (hpart : t.part ≠ []) (hlog : ∀ x ∈ r :: rest, Loggable x)
    (hoffset : r.offset = t.resumed) (hlater : ∀ x ∈ rest, t.resumed < x.offset)
    (h : Grows (written t.front) t.id (t.text ++ formatLine r) rest files)
    (hkept : Kept files [r]) :
    t.part = [48] ∧ t.lost.offset = 0 ∧ (formatLine r).length < maxScanTokenSize := by
  obtain ⟨xs, ys, rfl, hrecords⟩ :=
    h.records_eq (fun x hx => hlog x (List.mem_cons_of_mem _ hx))
  obtain ⟨m, hm, hsame⟩ := List.mem_map.mp (hkept r (List.mem_singleton.mpr rfl))
  have hmoffset : m.offset = t.resumed := (congrArg Message.offset hsame).trans hoffset
  have hold : m ∉ t.old := fun hmem => by
    have hlow := (t.offsets m hmem).2
    rcases t.resumed_cases with ⟨-, hres⟩ | hres <;> omega
  have hnew : m ∉ xs ++ ys := fun hmem => by
    have := hlater m hmem
    omega
  have hlines := glued_lines (t := t) hlog (List.subset_append_left xs ys)
  rw [hrecords, records_front, glued_text] at hm
  rcases List.mem_append.mp hm with hfront | hm
  · exact absurd (List.mem_append_left _ hfront) hold
  · rcases List.mem_append.mp hm with htorn | hys
    · rcases mem_replay_torn hlines List.not_mem_nil htorn with
        ⟨line, hline, hfits, hparse⟩ | hparse
      · rcases List.mem_append.mp hline with hlast | hline
        · obtain ⟨x, hx, rfl⟩ := List.mem_map.mp hlast
          rw [parse_formatted (t.last_loggable x hx), Option.some.injEq] at hparse
          exact absurd (List.mem_append_right _ (hparse ▸ hx)) hold
        · rcases List.mem_cons.mp hline with rfl | hxs
          · obtain ⟨hzero, hlost⟩ := zero_of_glued hpart (hlog r (List.mem_cons_self ..)) hoffset
              hparse hsame
            refine ⟨hzero, hlost, ?_⟩
            rw [hzero, fits, decide_eq_true_eq] at hfits
            simpa [formatLine] using hfits
          · obtain ⟨x, hx, rfl⟩ := List.mem_map.mp hxs
            have hxlog := hlog x (List.mem_cons_of_mem _ (List.mem_append_left _ hx))
            rw [parse_formatted hxlog, Option.some.injEq] at hparse
            exact absurd (List.mem_append_left _ (hparse ▸ hx)) hnew
      · have hempty : parseLogLine (dropCR []) = none := by decide
        rw [hempty] at hparse
        contradiction
    · exact absurd (List.mem_append_right _ hys) hnew

/-- The exception. -/
theorem kept_of_zero (hpart : t.part = [48]) (hlost : t.lost.offset = 0)
    (hlog : ∀ x ∈ r :: rest, Loggable x) (hoffset : r.offset = t.resumed)
    (hshort : (formatLine r).length < maxScanTokenSize)
    (h : Grows (written t.front) t.id (t.text ++ formatLine r) rest files) :
    Kept files (t.old ++ r :: rest) := by
  obtain ⟨xs, ys, rfl, hrecords⟩ :=
    h.records_eq (fun x hx => hlog x (List.mem_cons_of_mem _ hx))
  have hold : t.old = [] := List.eq_nil_iff_forall_not_mem.mpr (fun x hx => by
    have := t.offsets x hx
    omega)
  have hlast : t.last = [] := (List.append_eq_nil_iff.mp hold).2
  have hzero : r.offset = 0 := by
    rw [hoffset, t.resumed_of_none (by rw [hpart]; decide), hlost]
  have hr := hlog r (List.mem_cons_self ..)
  have hxs : ∀ x ∈ xs, Loggable x :=
    fun x hx => hlog x (List.mem_cons_of_mem _ (List.mem_append_left _ hx))
  have hlines := glued_lines (t := t) hlog (List.subset_append_left xs ys)
  rw [hlast, hpart] at hlines
  have hfits : ∀ line ∈ [48 :: formatRecord r] ++ xs.map formatRecord, fits line = true := by
    intro line hline
    rcases List.mem_append.mp hline with hglued | hnew
    · rw [List.mem_singleton.mp hglued, fits, decide_eq_true_eq]
      simpa [formatLine] using hshort
    · exact (formatted hxs).2 line hnew
  have hread : parseLogLine (dropCR (48 :: formatRecord r)) = some r := by
    have hend : (48 :: formatRecord r).getLast? ≠ some 13 :=
      glued_getLast hr [48]
    rw [dropCR_eq_self _ hend]
    exact glued_zero hzero hr.timestamp_range
  have hreplay : replay (t.text ++ formatLine r ++ xs.flatMap formatLine) = r :: xs := by
    rw [glued_text, hlast, hpart]
    refine (replay_complete hlines hfits).trans ?_
    simp only [List.map_nil, List.nil_append, List.singleton_append, List.map_cons,
      List.filterMap_cons, hread, read_formatted hxs]
  refine kept_of_subset (fun x hx => ?_)
  rw [hold, List.nil_append] at hx
  rw [hrecords, hreplay]
  exact List.mem_append_right _ hx

end Later

/-- After a torn write the log and all later records are kept exactly if nothing was torn,
if the first later line goes to a file of its own, or in the one exception. -/
theorem kept_iff (limit : Int) {rs : List Record} (hrs : Starting t.resumed rs) :
    Kept (writeAll limit rs t.files) (t.old ++ rs) ↔
      t.part = [] ∨ ∀ r ∈ rs.head?, limit < t.text.length + (formatLine r).length ∨
        (t.part = [48] ∧ t.lost.offset = 0 ∧ (formatLine r).length < maxScanTokenSize) := by
  cases rs with
  | nil =>
    refine iff_of_true (kept_of_subset (fun x hx => ?_)) (.inr (by simp))
    rw [List.append_nil] at hx
    exact t.records_files ▸ List.mem_append_left _ hx
  | cons r rest =>
    have hlog := hrs.loggable
    have hoffset := hrs.first r rfl
    simp only [List.head?_cons, Option.mem_some_iff, forall_eq']
    rw [writeAll, List.foldl_cons, ← writeAll, files, write_concat]
    by_cases hfull : limit < t.text.length + (formatLine r).length
    · rw [if_pos hfull]
      have hgrows := (grows_nil t.files (t.id + 1) (formatLine r)).writeAll limit rest
      exact iff_of_true (kept_of_rotated hlog hgrows) (.inr (.inl hfull))
    · rw [if_neg hfull]
      have hgrows := (grows_nil (written t.front) t.id (t.text ++ formatLine r)).writeAll limit rest
      constructor
      · intro hkept
        by_cases hpart : t.part = []
        · exact .inl hpart
        · refine .inr (.inr (zero_of_kept hpart hlog hoffset hrs.later hgrows ?_))
          exact fun x hx => hkept x (by simp [List.mem_singleton.mp hx])
      · rintro (hpart | hrotates | ⟨hpart, hlost, hshort⟩)
        · exact kept_of_untorn hpart hlog hgrows
        · contradiction
        · exact kept_of_zero hpart hlost hlog hoffset hshort hgrows

end Tear

end Flux.TornTails
