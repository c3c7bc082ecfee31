import Flux.JsonText
import Flux.OffsetCommits

/-!
The files of the coordinator, byte by byte. `groups.json` holds one object with an
entry for each group, `offsets.json` one with an entry for each group, topic and
partition, and a newline ends each of them. A file that was written to its end reads
as what the maps hold, and one that breaks off earlier, up to the newline, is no JSON
value, so that nothing is loaded from it.
-/
namespace Flux.CoordinatorFiles

open GoRuntime GoStrings FiniteMap JsonState TextReaders JsonText Groups OffsetCommits

section Maps

variable {K V W : Type} [DecidableEq K]

def entriesBy (order : List K → List K) (m : FMap K V) : List (K × V) :=
  (order m.keys).filterMap (fun k => (m.get k).map (fun v => (k, v)))

def collect (fields : List (K × V)) : FMap K V :=
  fields.foldl (fun m f => m.set f.1 f.2) FMap.empty

def sortedEntries (m : FMap Str V) : List (Str × V) := entriesBy sortStrings m

theorem collect_sortedEntries (f : V → W) (m : FMap Str V) :
    collect ((sortedEntries m).map (fun e => (coerce e.1, f e.2))) = jsonMap f m := by
  have hfold : ∀ (keys : List Str) (acc : FMap Str W),
      ((keys.filterMap (fun k => (m.get k).map (fun v => (k, v)))).map
        (fun e => (coerce e.1, f e.2))).foldl (fun m e => m.set e.1 e.2) acc =
      keys.foldl (putKey f m) acc := by
    intro keys
    induction keys with
    | nil => exact fun acc => rfl
    | cons key rest ih =>
      intro acc
      rw [List.foldl_cons, ← ih]
      cases hget : m.get key with
      | none => simp [hget, putKey]
      | some v => simp [hget, putKey]
  exact hfold (sortStrings m.keys) FMap.empty

/-- An object with an entry for each key of a map. -/
theorem takes_map {value : V → Str} {read : Reader W} {f : V → W} (m : FMap Str V)
    (h : ∀ v, Reads read (value v) (f v)) :
    Takes ((readObject some read).map collect)
      (writeObject Prod.fst (fun e : Str × V => value e.2) (sortedEntries m)) (jsonMap f m) := by
  rw [← collect_sortedEntries]
  exact (takes_object (fun e : Str × V => coerce e.1) (fun e _ => rfl) (fun e _ => h e.2)).map
    collect

/-- A map comes back from its entries in any order. -/
theorem get_collect_entriesBy (order : List K → List K) (m : FMap K V)
    (horder : ∀ k, k ∈ order m.keys ↔ k ∈ m.keys) (k : K) :
    (collect (entriesBy order m)).get k = m.get k := by
  have hfold : ∀ (keys : List K) (acc : FMap K V),
      ((keys.filterMap (fun k => (m.get k).map (fun v => (k, v)))).foldl
        (fun m f => m.set f.1 f.2) acc).get k =
      if k ∈ keys ∧ (m.get k).isSome then m.get k else acc.get k := by
    intro keys
    induction keys with
    | nil => simp
    | cons key rest ih =>
      intro acc
      cases hget : m.get key with
      | none =>
        simp only [List.filterMap_cons, hget, Option.map_none, ih]
        by_cases hkey : k = key
        · simp [hkey, hget]
        · simp [hkey]
      | some v =>
        simp only [List.filterMap_cons, hget, Option.map_some, List.foldl_cons, ih]
        by_cases hkey : k = key
        · simp [hkey, hget]
        · simp [hkey]
  rw [collect, entriesBy, hfold]
  by_cases hsome : (m.get k).isSome
  · have hkey : k ∈ m.keys := (m.mem_keys_iff k).mpr (Option.isSome_iff_exists.mp hsome)
    rw [if_pos ⟨(horder k).mpr hkey, hsome⟩]
  · rw [if_neg (fun h => hsome h.2), FMap.get_empty]
    exact (Option.not_isSome_iff_eq_none.mp hsome).symm

/-- A map comes back empty only if it was. -/
theorem jsonMap_eq_empty (f : V → W) (m : FMap Str V) :
    (∀ k, (jsonMap f m).get k = none) ↔ m.keys = [] := by
  have hkeys : ∀ (keys : List Str) (acc : FMap Str W) (k : Str),
      k ∈ (keys.foldl (putKey f m) acc).keys ↔
        (∃ key ∈ keys, key ∈ m.keys ∧ coerce key = k) ∨ k ∈ acc.keys := by
    intro keys
    induction keys with
    | nil => simp
    | cons key rest ih =>
      intro acc k
      rw [List.foldl_cons, ih]
      cases hget : m.get key with
      | none =>
        have hkey : key ∉ m.keys := (m.not_mem_keys_iff key).mpr hget
        simp [putKey, hget, hkey]
      | some v =>
        have hkey : key ∈ m.keys := (m.mem_keys_iff key).mpr ⟨v, hget⟩
        simp only [putKey, hget, FMap.mem_keys_set, List.mem_cons, exists_eq_or_imp, hkey,
          true_and, eq_comm (a := k)]
        rw [or_left_comm, or_assoc]
  constructor
  · intro hnone
    refine List.eq_nil_iff_forall_not_mem.mpr (fun key hkey => ?_)
    refine ((jsonMap f m).not_mem_keys_iff (coerce key)).mpr (hnone _) ?_
    refine (hkeys _ _ _).mpr (.inl ⟨key, ?_, hkey, rfl⟩)
    rw [sortStrings, List.mem_insertionSort]
    exact hkey
  · intro hnil k
    rw [jsonMap, hnil]
    exact FMap.get_empty k

end Maps

def field {α β : Type} (name : String) (read : Reader α) (next : α → Reader β) : Reader β :=
  (readLit (lit name)).andThen (fun _ => read.andThen next)

section Fields

variable {α β : Type} {name : String} {read : Reader α} {next : α → Reader β} {t t' : Str} {a : α}
  {b : β}

theorem takes_field (h : Takes read t a) (h' : Takes (next a) t' b) :
    Takes (field name read next) (lit name ++ (t ++ t')) b :=
  (takes_lit (lit name)).andThen (h.andThen h')

/-- A field whose value is a number, before a field or the end of the record. -/
theorem takes_number {stop : String} (h : Reads read t a)
    (h' : Takes (next a) (lit stop ++ t') b) (hstop : ∃ c ∈ delimiters, (lit stop).head? = some c)
    (hnext : ∀ a, next a [] = none) :
    Takes (field name read next) (lit name ++ (t ++ (lit stop ++ t'))) b := by
  obtain ⟨c, hc, hhead⟩ := hstop
  obtain ⟨u, hu⟩ := List.head?_eq_some_iff.mp hhead
  rw [hu] at h' ⊢
  exact (takes_lit (lit name)).andThen (h.andThen h' hc hnext)

end Fields

section GroupsJson

def memberText (m : Str × Time) : Str :=
  lit "\x7b\"consumer_id\":" ++ (quote m.1 ++ (lit ",\"last_heartbeat_unix_ms\":" ++
    (itoa (unixMilli m.2) ++ lit "\x7d")))

def readMember : Reader (Str × Int) :=
  field "\x7b\"consumer_id\":" readText (fun consumerID =>
    field ",\"last_heartbeat_unix_ms\":" readInt (fun lastHeartbeat =>
      (readLit (lit "\x7d")).map (fun _ => (consumerID, lastHeartbeat))))

def listedMembers (g : Group) : List (Str × Time) :=
  g.memberOrder.filterMap (fun id => (g.members.get id).map (fun hb => (id, hb)))

def assignmentsText (assignments : FMap Str (List Int)) : Str :=
  writeObject Prod.fst (fun e => writeSlice itoa e.2) (sortedEntries assignments)

def readAssignments : Reader (FMap Str (List Int)) :=
  (readObject some (readSlice readInt)).map collect

def groupText (g : Group) : Str :=
  lit "\x7b\"topic\":" ++ (quote g.topic ++ (lit ",\"generation\":" ++ (itoa g.generation ++
    (lit ",\"assignor\":" ++ (quote g.assignor ++ (lit ",\"member_order\":" ++
      (writeSlice quote g.memberOrder ++ (lit ",\"assignments\":" ++
        (assignmentsText g.assignments ++ (lit ",\"members\":" ++
          (writeList memberText (listedMembers g) ++ lit "\x7d")))))))))))

def readGroup : Reader PersistedGroup :=
  field "\x7b\"topic\":" readText (fun topic =>
    field ",\"generation\":" readInt (fun generation =>
      field ",\"assignor\":" readText (fun assignor =>
        field ",\"member_order\":" (readSlice readText) (fun memberOrder =>
          field ",\"assignments\":" readAssignments (fun assignments =>
            field ",\"members\":" (readList readMember) (fun members =>
              (readLit (lit "\x7d")).map (fun _ =>
                ⟨topic, generation, assignor, memberOrder, assignments, members⟩)))))))

def groupsText (groups : FMap Str Group) : Str :=
  writeObject Prod.fst (fun e => groupText e.2) (sortedEntries groups)

def readGroups : Reader (FMap Str PersistedGroup) := (readObject some readGroup).map collect

/-- What `Encode` writes. -/
def groupsFile (groups : FMap Str Group) : Str := groupsText groups ++ lit "\n"

/-- What `Decode` makes of the file. -/
def decodeGroups (file : Str) : GroupsFile :=
  match (readGroups file).map Prod.fst with
  | none => .torn
  | some groups => .holds groups

theorem takes_member (m : Str × Time) :
    Takes readMember (memberText m) (coerce m.1, unixMilli m.2) := by
  refine takes_field (takes_text m.1) ?_
  rw [← List.append_nil (lit "\x7d")]
  refine takes_number (reads_int _) ?_ (by decide) (fun _ => rfl)
  rw [List.append_nil]
  exact (takes_lit (lit "\x7d")).map _

theorem itoa_open (n : Int) : ∃ c t, itoa n = c :: t ∧ c ≠ 93 := by
  obtain ⟨c, t, hcons⟩ := List.exists_cons_of_ne_nil (itoa_ne_nil n)
  refine ⟨c, t, hcons, ?_⟩
  rintro rfl
  rcases mem_itoa n 93 (by rw [hcons]; exact List.mem_cons_self ..) with hminus | hdigit
  · exact absurd hminus (by decide)
  · exact absurd hdigit.2 (by decide)

theorem takes_assignments (assignments : FMap Str (List Int)) :
    Takes readAssignments (assignmentsText assignments) (jsonMap id assignments) := by
  refine takes_map assignments (fun parts => ?_)
  have hslice : Takes (readSlice readInt) (writeSlice itoa parts) (parts.map id) :=
    takes_slice (fun n _ => reads_int n) (fun n _ => itoa_open n)
  rw [List.map_id] at hslice
  exact hslice.reads

theorem takes_group (g : Group) : Takes readGroup (groupText g) (persistGroup g) := by
  have horder : Takes (readSlice readText) (writeSlice quote g.memberOrder)
      (g.memberOrder.map coerce) :=
    takes_slice (fun id _ => (takes_text id).reads) (fun id _ => ⟨34, _, rfl, by decide⟩)
  have hmembers : Takes (readList readMember) (writeList memberText (listedMembers g))
      (persistGroup g).members := by
    have hlisted : (persistGroup g).members =
        (listedMembers g).map (fun m => (coerce m.1, unixMilli m.2)) := by
      rw [listedMembers, List.map_filterMap]
      simp only [Option.map_map]
      rfl
    rw [hlisted]
    exact takes_list (fun m _ => (takes_member m).reads) (fun m _ => ⟨123, _, rfl, by decide⟩)
  refine takes_field (takes_text g.topic) ?_
  refine takes_number (reads_int g.generation) ?_ (by decide) (fun _ => rfl)
  refine takes_field (takes_text g.assignor) ?_
  refine takes_field horder ?_
  refine takes_field (takes_assignments g.assignments) ?_
  refine takes_field hmembers ?_
  exact (takes_lit (lit "\x7d")).map _

theorem takes_groups (groups : FMap Str Group) :
    Takes readGroups (groupsText groups) (persist groups) :=
  takes_map groups (fun g => (takes_group g).reads)

/-- Nothing but the newline may be missing. -/
theorem decodeGroups_take (groups : FMap Str Group) (k : ℕ) :
    decodeGroups ((groupsFile groups).take k) =
      if k < (groupsText groups).length then .torn else .holds (persist groups) := by
  rw [decodeGroups, groupsFile, (takes_groups groups).cut]
  by_cases hk : k < (groupsText groups).length
  · simp only [if_pos hk]
  · simp only [if_neg hk]

theorem decodeGroups_file (groups : FMap Str Group) :
    decodeGroups (groupsFile groups) = .holds (persist groups) := by
  have htake := decodeGroups_take groups (groupsFile groups).length
  rwa [List.take_length, if_neg (by simp [groupsFile])] at htake

end GroupsJson

section OffsetsJson

def numberedEntries (m : FMap Int Int) : List (Int × Int) :=
  entriesBy (fun keys => keys.insertionSort (fun a b => strLe (itoa a) (itoa b) = true)) m

def partitionsText (m : FMap Int Int) : Str :=
  writeObject (fun e => itoa e.1) (fun e => itoa e.2) (numberedEntries m)

def readPartitions : Reader (FMap Int Int) := (readObject readSigned readInt).map collect

def topicsText (m : FMap Str (FMap Int Int)) : Str :=
  writeObject Prod.fst (fun e => partitionsText e.2) (sortedEntries m)

def readTopics : Reader (FMap Str (FMap Int Int)) := (readObject some readPartitions).map collect

def offsetsText (m : FMap Str (FMap Str (FMap Int Int))) : Str :=
  writeObject Prod.fst (fun e => topicsText e.2) (sortedEntries m)

def readOffsets : Reader (FMap Str (FMap Str (FMap Int Int))) :=
  (readObject some readTopics).map collect

/-- What `save` writes. -/
def offsetsFile (om : OffsetManager) : Str := offsetsText om.offsets ++ lit "\n"

/-- `NewOffsetManager` on a data directory with this file. -/
def loadOffsets (file : Str) : OffsetManager :=
  ⟨((readOffsets file).map Prod.fst).getD FMap.empty⟩

def persistOffsets (m : FMap Str (FMap Str (FMap Int Int))) : FMap Str (FMap Str (FMap Int Int)) :=
  jsonMap (jsonMap (fun partitions => collect (numberedEntries partitions))) m

theorem coerce_ascii {s : Str} (h : ∀ b ∈ s, b.toNat < 128) : coerce s = s := by
  induction s with
  | nil => rfl
  | cons b rest ih =>
    have hb : b.toNat < 128 := h b (List.mem_cons_self ..)
    have hrune : runeLength (b :: rest) = 1 := by
      have hascii : within 0 0x7F b = true := by
        rw [within, decide_eq_true_eq]
        omega
      simp [runeLength, hascii]
    have hrest := ih (fun b hb => h b (List.mem_cons_of_mem _ hb))
    rw [coerce, coerceFrom, hrune]
    rw [coerce] at hrest
    dsimp only
    rw [hrest]

theorem coerce_itoa (n : Int) : coerce (itoa n) = itoa n := by
  refine coerce_ascii (fun b hb => ?_)
  rcases mem_itoa n b hb with rfl | hdigit
  · decide
  · omega

theorem takes_partitions (m : FMap Int Int) :
    Takes readPartitions (partitionsText m) (collect (numberedEntries m)) := by
  have hobject : Takes (readObject readSigned readInt) (partitionsText m)
      ((numberedEntries m).map (fun e => (e.1, e.2))) :=
    takes_object (fun e : Int × Int => e.1)
      (fun e _ => by rw [coerce_itoa, readSigned_itoa]) (fun e _ => reads_int e.2)
  rw [List.map_id'] at hobject
  exact hobject.map collect

theorem takes_offsets (m : FMap Str (FMap Str (FMap Int Int))) :
    Takes readOffsets (offsetsText m) (persistOffsets m) :=
  takes_map m (fun topics =>
    (takes_map topics (fun partitions => (takes_partitions partitions).reads)).reads)

theorem loadOffsets_take (om : OffsetManager) (k : ℕ) :
    loadOffsets ((offsetsFile om).take k) =
      ⟨if k < (offsetsText om.offsets).length then FMap.empty else persistOffsets om.offsets⟩ := by
  rw [loadOffsets, offsetsFile, (takes_offsets om.offsets).cut]
  by_cases hk : k < (offsetsText om.offsets).length
  · simp only [if_pos hk, Option.getD_none]
  · simp only [if_neg hk, Option.getD_some]

/-- A restart finds all committed offsets, or none if the file breaks off too early. -/
theorem restart_keeps_offsets (om : OffsetManager)
    (hnames : ∀ group ∈ om.offsets.keys, ValidText group ∧
      ∀ topic ∈ ((om.offsets.get group).getD FMap.empty).keys, ValidText topic)
    (k : ℕ) (group topic : Str) (partition : Int) :
    (loadOffsets ((offsetsFile om).take k)).getOffset group topic partition =
      if k < (offsetsText om.offsets).length then 0 else om.getOffset group topic partition := by
  rw [loadOffsets_take, getOffset_eq]
  split
  · simp
  · have hgroups : ∀ group, (om.offsets.get group).isSome → ValidText group := fun group hsome =>
      (hnames group ((om.offsets.mem_keys_iff group).mpr (Option.isSome_iff_exists.mp hsome))).1
    rw [getOffset_eq, persistOffsets, get_jsonMap _ _ hgroups]
    cases hgroup : om.offsets.get group with
    | none => rfl
    | some topics =>
      have htopics : ∀ topic, (topics.get topic).isSome → ValidText topic := by
        intro topic hsome
        refine (hnames group ((om.offsets.mem_keys_iff group).mpr ⟨topics, hgroup⟩)).2 topic ?_
        rw [hgroup]
        exact (topics.mem_keys_iff topic).mpr (Option.isSome_iff_exists.mp hsome)
      dsimp only [Option.map_some, Option.getD_some]
      unfold get2
      rw [get_jsonMap _ _ htopics]
      cases topics.get topic with
      | none => rfl
      | some partitions =>
        dsimp only [Option.map_some, Option.bind_some]
        rw [numberedEntries, get_collect_entriesBy]
        exact fun k => List.mem_insertionSort _

def twoCommits : OffsetManager :=
  ((OffsetManager.mk FMap.empty).commit (lit "g") (lit "t") 3 7).commit (lit "h") (lit "u") 0 9

/-- Two commits come back from the file, and none from a part of it. -/
theorem restart_keeps_offsets_two :
    (loadOffsets (offsetsFile twoCommits)).getOffset (lit "g") (lit "t") 3 = 7 ∧
      (loadOffsets (offsetsFile twoCommits)).getOffset (lit "h") (lit "u") 0 = 9 ∧
      (loadOffsets ((offsetsFile twoCommits).take 20)).getOffset (lit "h") (lit "u") 0 = 0 := by
  have hnames : ∀ group ∈ twoCommits.offsets.keys, ValidText group ∧
      ∀ topic ∈ ((twoCommits.offsets.get group).getD FMap.empty).keys, ValidText topic := by
    decide
  have hwhole : (offsetsFile twoCommits).take 100 = offsetsFile twoCommits := by decide
  rw [← hwhole, restart_keeps_offsets twoCommits hnames, restart_keeps_offsets twoCommits hnames,
    hwhole, restart_keeps_offsets twoCommits hnames]
  decide

end OffsetsJson

end Flux.CoordinatorFiles
