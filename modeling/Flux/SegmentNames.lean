import Flux.LogLines

/-!
File names in the data directory. A segment file carries its topic, partition
and segment id in its name, and recovery reads them back from the directory
listing. The mirror files of a partition have names of the same shape: recovery
takes them for segments of a topic that ends in `-replica`.
-/
namespace Flux.SegmentNames

open GoRuntime GoStrings Cuts

def segmentMark : Str := lit "-segment-"

def logSuffix : Str := lit ".log"

/-- `segmentPath` below the data directory. -/
def segmentName (topic : Str) (partition segmentID : Int) : Str :=
  topic ++ 45 :: (itoa partition ++ (segmentMark ++ (itoaPad6 segmentID ++ logSuffix)))

def replicaSegmentName (topic : Str) (partition replicaID segmentID : Int) : Str :=
  topic ++ 45 :: (itoa partition ++ (lit "-replica-" ++ (itoa replicaID ++
    (segmentMark ++ (itoaPad6 segmentID ++ logSuffix)))))

def offsetIndexName (topic : Str) (partition : Int) : Str :=
  topic ++ 45 :: (itoa partition ++ lit "-offset.idx")

def timestampIndexName (topic : Str) (partition : Int) : Str :=
  topic ++ 45 :: (itoa partition ++ lit "-time.idx")

def parseSegmentFileName (filename : Str) : Option (Str × Int × Int) :=
  if logSuffix.isSuffixOf filename && (cut segmentMark filename).isSome then
    match split segmentMark (filename.take (filename.length - 4)) with
    | [left, segmentText] =>
        match atoi segmentText, cutLast 45 left with
        | some segmentID, some (topic, partitionText) =>
            if topic.isEmpty then none
            else (atoi partitionText).map (fun partition => (topic, partition, segmentID))
        | _, _ => none
    | _ => none
  else none

def replicaTopic (topic : Str) (partition : Int) : Str :=
  topic ++ 45 :: (itoa partition ++ lit "-replica")

theorem replicaSegmentName_eq (topic : Str) (partition replicaID segmentID : Int) :
    replicaSegmentName topic partition replicaID segmentID =
      segmentName (replicaTopic topic partition) replicaID segmentID := by
  have hmark : lit "-replica-" = lit "-replica" ++ [45] := by decide
  simp [replicaSegmentName, segmentName, replicaTopic, hmark]

structure Parsable (topic : Str) : Prop where
  nonempty : topic ≠ []
  no_mark : ¬ lit "-segment" <:+: topic

private theorem segmentWord_eq : lit "-segment" = 45 :: lit "segment" := by decide

private theorem segmentMark_eq : segmentMark = lit "-segment" ++ [45] := by decide

private theorem dash_not_mem_segment : (45 : UInt8) ∉ lit "segment" := by decide

theorem dash_not_mem_itoa (n : Int) (hn : 0 ≤ n) : (45 : UInt8) ∉ itoa n := by
  intro h
  have hneg : ¬ n < 0 := by omega
  simp only [itoa, hneg, ↓reduceIte] at h
  have := mem_decimal n.natAbs 45 h
  simp at this

theorem dash_not_mem_itoaPad6 (n : Int) (hn : 0 ≤ n) : (45 : UInt8) ∉ itoaPad6 n := by
  intro h
  have := mem_itoaPad6 n hn 45 h
  simp at this

theorem segmentMark_not_start (word rest : Str) (hword : word ≠ [])
    (h : ¬ lit "-segment" <:+: word) : ¬ segmentMark <+: word ++ 45 :: rest := by
  intro hmark
  have hshort : lit "-segment" <+: word ++ 45 :: rest := by
    refine List.IsPrefix.trans ?_ hmark
    rw [segmentMark_eq]
    exact List.prefix_append _ _
  rw [segmentWord_eq] at hshort h
  exact h (prefix_of_prefix_append_head 45 _ word rest hword dash_not_mem_segment hshort).isInfix

theorem cut_segmentMark_topic (topic rest : Str) (h : ¬ lit "-segment" <:+: topic) :
    cut segmentMark (topic ++ 45 :: rest) =
      (cut segmentMark (45 :: rest)).map (fun c => (topic ++ c.1, c.2)) := by
  induction topic with
  | nil => simp
  | cons x topic ih =>
    have htail : ¬ lit "-segment" <:+: topic := fun hi => h (List.infix_cons hi)
    have hnot := segmentMark_not_start (x :: topic) rest (by simp) h
    rw [List.cons_append] at hnot ⊢
    rw [cut_cons_of_not_start segmentMark _ x hnot, ih htail]
    simp [Option.map_map, Function.comp_def]

/-- The first segment mark of a segment name is the one its format wrote. -/
theorem cut_segmentMark_name (topic rest : Str) (partition : Int) (hp : 0 ≤ partition)
    (h : ¬ lit "-segment" <:+: topic) :
    cut segmentMark (topic ++ 45 :: (itoa partition ++ (segmentMark ++ rest))) =
      some (topic ++ 45 :: itoa partition, rest) := by
  have hdigits := dash_not_mem_itoa partition hp
  have hfirst : ¬ segmentMark <+: 45 :: (itoa partition ++ (segmentMark ++ rest)) := by
    intro hmark
    cases hi : itoa partition with
    | nil => exact itoa_ne_nil partition hi
    | cons d ds =>
      have hd := mem_itoa partition d (by simp [hi])
      rw [hi, segmentMark_eq, segmentWord_eq, List.cons_append, List.cons_append,
        List.cons_prefix_cons] at hmark
      have hs : lit "segment" ++ [45] = 115 :: (lit "egment" ++ [45]) := by decide
      rw [hs, List.cons_prefix_cons] at hmark
      rw [← hmark.2.1] at hd
      simp at hd
  have hself : cut segmentMark (segmentMark ++ rest) = some ([], rest) :=
    cut_self_append segmentMark rest (by decide)
  rw [cut_segmentMark_topic topic _ h, cut_cons_of_not_start segmentMark _ 45 hfirst]
  have hskip : cut segmentMark (itoa partition ++ (segmentMark ++ rest)) =
      some (itoa partition, rest) := by
    have hmark : segmentMark = 45 :: lit "segment-" := by decide
    rw [hmark, cut_skip 45 _ _ _ hdigits, ← hmark, hself]
    simp
  rw [hskip]
  simp

theorem not_infix_of_not_mem (p : UInt8) (ps word : Str) (h : p ∉ word) : ¬ p :: ps <:+: word := by
  intro hi
  exact h (hi.subset (List.mem_cons_self ..))

/-- Recovery reads the topic, the partition and the segment back from a name. -/
theorem parse_segmentName (topic : Str) (partition segmentID : Int) (ht : Parsable topic)
    (hp : 0 ≤ partition) (hp' : InInt64 partition) (hs : 0 ≤ segmentID) (hs' : InInt64 segmentID) :
    parseSegmentFileName (segmentName topic partition segmentID) =
      some (topic, partition, segmentID) := by
  have hsuffix : logSuffix.isSuffixOf (segmentName topic partition segmentID) = true := by
    rw [List.isSuffixOf_iff_suffix]
    refine ⟨topic ++ 45 :: (itoa partition ++ (segmentMark ++ itoaPad6 segmentID)), ?_⟩
    simp [segmentName]
  have hmark : (cut segmentMark (segmentName topic partition segmentID)).isSome = true := by
    rw [segmentName, cut_segmentMark_name topic _ partition hp ht.no_mark]
    rfl
  have hbase : (segmentName topic partition segmentID).take
      ((segmentName topic partition segmentID).length - 4) =
        topic ++ 45 :: (itoa partition ++ (segmentMark ++ itoaPad6 segmentID)) := by
    have hshape : segmentName topic partition segmentID =
        (topic ++ 45 :: (itoa partition ++ (segmentMark ++ itoaPad6 segmentID))) ++ logSuffix := by
      simp [segmentName]
    have hfour : logSuffix.length = 4 := by decide
    rw [hshape, List.length_append, hfour, Nat.add_sub_cancel, List.take_left]
  have hdash := dash_not_mem_itoaPad6 segmentID hs
  have hsplit : split segmentMark
      (topic ++ 45 :: (itoa partition ++ (segmentMark ++ itoaPad6 segmentID))) =
        [topic ++ 45 :: itoa partition, itoaPad6 segmentID] := by
    have hcut := cut_segmentMark_name topic (itoaPad6 segmentID) partition hp ht.no_mark
    have hnone : ¬ segmentMark <:+: itoaPad6 segmentID := by
      have hm : segmentMark = 45 :: lit "segment-" := by decide
      rw [hm]
      exact not_infix_of_not_mem 45 _ _ hdash
    rw [split, show (topic ++ 45 :: (itoa partition ++ (segmentMark ++ itoaPad6 segmentID))).length
      + 1 = (topic.length + (itoa partition ++ (segmentMark ++ itoaPad6 segmentID)).length) + 2 by
        simp only [List.length_append, List.length_cons]; omega]
    rw [splitN_cut segmentMark _ _ _ hcut, splitN_none segmentMark _ _ hnone]
  have hlast := cutLast_append 45 topic (itoa partition) (dash_not_mem_itoa partition hp)
  have hne : topic.isEmpty = false := by simpa using ht.nonempty
  simp only [parseSegmentFileName, hsuffix, hmark, Bool.and_self, ↓reduceIte, hbase, hsplit,
    atoi_itoaPad6 segmentID hs', hlast, hne, Bool.false_eq_true, atoi_itoa partition hp',
    Option.map_some]

/-- A segment name determines its topic and partition, whatever its segment id. -/
theorem segmentName_partition_injective {t t' : Str} {p p' k k' : Int} (ht : Parsable t)
    (ht' : Parsable t') (hp : 0 ≤ p) (hp' : 0 ≤ p')
    (h : segmentName t p k = segmentName t' p' k') : t = t' ∧ p = p' := by
  have hcut := cut_segmentMark_name t (itoaPad6 k ++ logSuffix) p hp ht.no_mark
  have hcut' := cut_segmentMark_name t' (itoaPad6 k' ++ logSuffix) p' hp' ht'.no_mark
  rw [← segmentName] at hcut hcut'
  rw [h, hcut', Option.some.injEq, Prod.mk.injEq] at hcut
  have hlast := cutLast_append 45 t (itoa p) (dash_not_mem_itoa p hp)
  have hlast' := cutLast_append 45 t' (itoa p') (dash_not_mem_itoa p' hp')
  rw [← hcut.1, hlast', Option.some.injEq, Prod.mk.injEq] at hlast
  exact ⟨hlast.1.symm, (itoa_injective p' p hlast.2).symm⟩

theorem segmentID_injective {t : Str} {p k k' : Int} (h : segmentName t p k = segmentName t p k') :
    k = k' := by
  rw [segmentName, segmentName, List.append_cancel_left_eq, List.cons.injEq,
    List.append_cancel_left_eq, List.append_cancel_left_eq, List.append_cancel_right_eq] at h
  have hread := congrArg readSigned h.2
  rwa [readSigned_itoaPad6, readSigned_itoaPad6, Option.some.injEq] at hread

theorem segmentName_injective {t t' : Str} {p p' k k' : Int} (ht : Parsable t) (ht' : Parsable t')
    (hp : 0 ≤ p ∧ InInt64 p) (hp' : 0 ≤ p' ∧ InInt64 p') (hk : 0 ≤ k ∧ InInt64 k)
    (hk' : 0 ≤ k' ∧ InInt64 k') (h : segmentName t p k = segmentName t' p' k') :
    t = t' ∧ p = p' ∧ k = k' := by
  have h1 := parse_segmentName t p k ht hp.1 hp.2 hk.1 hk.2
  rw [h, parse_segmentName t' p' k' ht' hp'.1 hp'.2 hk'.1 hk'.2] at h1
  simp only [Option.some.injEq, Prod.mk.injEq] at h1
  exact ⟨h1.1.symm, h1.2.1.symm, h1.2.2.symm⟩

/-- Index files are never taken for segments. -/
theorem parse_idx (name : Str) : parseSegmentFileName (name ++ lit ".idx") = none := by
  have hsuffix : logSuffix.isSuffixOf (name ++ lit ".idx") = false := by
    rw [Bool.eq_false_iff]
    intro h
    obtain ⟨pre, hpre⟩ := List.isSuffixOf_iff_suffix.mp h
    have := (List.append_inj' hpre (by decide)).2
    exact absurd this (by decide)
  simp [parseSegmentFileName, hsuffix]

theorem offsetIndexName_idx (topic : Str) (partition : Int) :
    ∃ name, offsetIndexName topic partition = name ++ lit ".idx" := by
  have h : lit "-offset.idx" = lit "-offset" ++ lit ".idx" := by decide
  exact ⟨topic ++ 45 :: (itoa partition ++ lit "-offset"), by simp [offsetIndexName, h]⟩

theorem timestampIndexName_idx (topic : Str) (partition : Int) :
    ∃ name, timestampIndexName topic partition = name ++ lit ".idx" := by
  have h : lit "-time.idx" = lit "-time" ++ lit ".idx" := by decide
  exact ⟨topic ++ 45 :: (itoa partition ++ lit "-time"), by simp [timestampIndexName, h]⟩

theorem segmentName_ne_idx (topic : Str) (partition segmentID : Int) (name : Str) :
    segmentName topic partition segmentID ≠ name ++ lit ".idx" := by
  intro h
  have hshape : segmentName topic partition segmentID =
      (topic ++ 45 :: (itoa partition ++ (segmentMark ++ itoaPad6 segmentID))) ++ logSuffix := by
    simp [segmentName]
  rw [hshape] at h
  have := (List.append_inj' h (by decide)).2
  exact absurd this (by decide)

theorem slash_not_mem_segmentName (topic : Str) (partition segmentID : Int)
    (htopic : (47 : UInt8) ∉ topic) (hk : 0 ≤ segmentID) :
    (47 : UInt8) ∉ segmentName topic partition segmentID := by
  have hpartition := itoa_not_mem partition 47 (by decide) (by decide)
  have hsegment : (47 : UInt8) ∉ itoaPad6 segmentID := by
    intro h
    have := mem_itoaPad6 segmentID hk 47 h
    simp at this
  have hmark : (47 : UInt8) ∉ segmentMark := by decide
  have hsuffix : (47 : UInt8) ∉ logSuffix := by decide
  simp [segmentName, htopic, hpartition, hsegment, hmark, hsuffix]

/-- A mirror file is taken for a segment of a topic of its own. -/
theorem replicaTopic_parsable (topic : Str) (partition : Int) (ht : Parsable topic)
    (hp : 0 ≤ partition) : Parsable (replicaTopic topic partition) where
  nonempty := by simp [replicaTopic]
  no_mark := by
    intro h
    rw [segmentWord_eq] at h
    rcases infix_append_head 45 _ topic _ dash_not_mem_segment h with hleft | hright
    · exact ht.no_mark (by rwa [segmentWord_eq])
    · rcases List.infix_cons_iff.mp hright with hstart | hinside
      · cases hi : itoa partition with
        | nil => exact itoa_ne_nil partition hi
        | cons d ds =>
          have hd := mem_itoa partition d (by simp [hi])
          have hs : lit "segment" = 115 :: lit "egment" := by decide
          rw [hi, hs, List.cons_append, List.cons_prefix_cons, List.cons_prefix_cons] at hstart
          rw [← hstart.2.1] at hd
          simp at hd
      · have := infix_skip 45 _ _ _ (dash_not_mem_itoa partition hp) hinside
        exact absurd this (by decide)

theorem replica_infix_replicaTopic (topic : Str) (partition : Int) :
    lit "-replica" <:+: replicaTopic topic partition :=
  ⟨topic ++ 45 :: itoa partition, [], by simp [replicaTopic]⟩

end Flux.SegmentNames
