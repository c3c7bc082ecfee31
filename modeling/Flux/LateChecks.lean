import Flux.BadRequests
import Flux.LeaderAgreement

/-!
The handlers that first make sure of their topic. An unknown topic is created
before the last checks of the request, so a request that fails one of these has
changed the metadata.
-/
namespace Flux.LateChecks

open GoStrings Cuts FiniteMap ClusterMetadata Protocol Interleavings BrokerNode RequestHandlers
open ControllerSteps TopicCreation LeaderAgreement MetadataShape BadRequests

def Creating (b : Broker) (topic : Str) : Prop :=
  b.controller.metadata.topics.get topic = none ∧
    Accepted topic b.defaultPartitions b.defaultReplicationFactor

def Staffable (b : Broker) : Prop := alive b = [] → -1 ≤ b.localBrokerID

/-- A topic that its first use has just created. -/
structure Fresh (b : Broker) (topic : Str) (b' : Broker) (md : TopicMetadata) : Prop where
  changed : b'.controller ≠ b.controller
  local_eq : b'.localBrokerID = b.localBrokerID
  stored : b'.controller.metadata.topics.get topic = some md
  partitions : ∀ p, (∃ pm, md.partitions.get p = some pm) ↔ 0 ≤ p ∧ p < b.defaultPartitions

section Ensured

variable (env : Surroundings) {b : Broker} {topic : Str}

theorem ensure_known {md : TopicMetadata} (hshape : WellFormed b.controller.metadata)
    (hmd : b.controller.metadata.topics.get topic = some md) :
    (ensureTopicMetadata env topic).run b = .ok (b, .ok md) := by
  have hnamed : topic ≠ [] := by
    rintro rfl
    rw [hshape.named] at hmd
    cases hmd
  have hread : (Program.read (fun b => b.controller.metadata) : Handler MetadataSnapshot).run b =
      .ok (b, b.controller.metadata) := rfl
  rw [ensureTopicMetadata, if_neg hnamed, snapshot, Program.run_bind hread, hmd]
  rfl

theorem ensure_refused (hmd : b.controller.metadata.topics.get topic = none)
    (hnot : ¬ Accepted topic b.defaultPartitions b.defaultReplicationFactor) :
    Program.Yields (fun b' r => b' = b ∧ ∃ e, r = .error e) (ensureTopicMetadata env topic) b := by
  refine (ensureTopicMetadata_creates env hmd).weaken (fun b' r hends => ?_)
  cases r with
  | error e =>
    rcases hends with ⟨-, hsame⟩ | ⟨haccepted, -⟩
    · exact ⟨hsame, e, rfl⟩
    · exact absurd haccepted hnot
  | ok md => exact absurd hends.1 hnot

/-- The creation gets stuck and leaves the topic behind. -/
theorem ensure_stuck (h : Creating b topic) (hnot : ¬ Staffable b) :
    ∃ b' e, (ensureTopicMetadata env topic).run b = .ok (b', .error e) ∧
      b'.controller ≠ b.controller := by
  obtain ⟨b', r, hrun⟩ := ensureTopicMetadata_returns env h.1 h.2
  cases r with
  | ok md => exact absurd (ensured_creates h.1 hrun).2 hnot
  | error e =>
    refine ⟨b', e, hrun, fun hsame => ?_⟩
    rcases (ensureTopicMetadata_creates env h.1).run hrun with ⟨hrefused, -⟩ | ⟨-, k, -, hopened, -⟩
    · obtain ⟨hname, hpartitions, hfactor, -⟩ := h.2
      rcases hrefused with hempty | hnone | hnone
      · exact hname hempty
      · omega
      · omega
    · obtain ⟨md, hmd, -⟩ := hopened.opened
      rw [hsame, h.1] at hmd
      cases hmd

theorem ensure_created (hshape : WellFormed b.controller.metadata) (h : Creating b topic)
    (hstaff : Staffable b) :
    ∃ b' md, (ensureTopicMetadata env topic).run b = .ok (b', .ok md) ∧ Fresh b topic b' md := by
  obtain ⟨b', md, hrun⟩ := ensured_of_creates env hshape.enrolled h.1 ⟨h.2, hstaff⟩
  obtain ⟨-, hopened, hmd⟩ := ensured_opened h.1 hrun
  refine ⟨b', md, hrun, fun hsame => ?_, by rw [hopened.elsewhere], hmd, fun p => ?_⟩
  · rw [hsame, h.1] at hmd
    cases hmd
  · have hkeys := hopened.keys p
    rw [topicOf, hmd, Option.getD_some] at hkeys
    exact (FMap.mem_keys_iff _ _).symm.trans hkeys

/-- A handler that first makes sure of its topic. `created` is what it asks for of
a topic it has just created, and `known` what it needs to leave a known one alone. -/
theorem unharmed_ensure_iff {req : Request} (hshape : WellFormed b.controller.metadata)
    {next : Except Str TopicMetadata → Handler Str} (created : Prop)
    (known : TopicMetadata → Prop)
    (herror : ∀ e, next (.error e) = pure (badRequest req e))
    (hknown : ∀ md, b.controller.metadata.topics.get topic = some md →
      (Unharmed req (next (.ok md)) b ↔ known md))
    (hgood : Creating b topic → created → ∀ b' md, Fresh b topic b' md →
      Program.Yields (fun _ response => ¬ Bad req response) (next (.ok md)) b')
    (hbad : Creating b topic → ¬ created → ∀ b' md, Fresh b topic b' md →
      ∃ c response, (next (.ok md)).run b' = .ok (c, response) ∧ Bad req response ∧
        c.controller = b'.controller) :
    Unharmed req (ensureTopicMetadata env topic >>= next) b ↔
      (Creating b topic → Staffable b ∧ created) ∧
      ∀ md, b.controller.metadata.topics.get topic = some md → known md := by
  cases hmd : b.controller.metadata.topics.get topic with
  | some md =>
    have hnot : ¬ Creating b topic := fun h => by
      rw [h.1] at hmd
      cases hmd
    have hsame : Unharmed req (ensureTopicMetadata env topic >>= next) b ↔
        Unharmed req (next (.ok md)) b := by
      unfold Unharmed
      rw [Program.run_bind (ensure_known env hshape hmd)]
    rw [hsame, hknown md hmd]
    constructor
    · exact fun h => ⟨fun hcreating => absurd hcreating hnot, fun md' hmd' => by
        cases hmd'
        exact h⟩
    · exact fun h => h.2 md rfl
  | none =>
    have hvacuous : ∀ md, (none : Option TopicMetadata) = some md → known md := nofun
    by_cases haccepted : Accepted topic b.defaultPartitions b.defaultReplicationFactor
    · have hcreating : Creating b topic := ⟨hmd, haccepted⟩
      by_cases hstaff : Staffable b
      · obtain ⟨b', md, hrun, hfresh⟩ := ensure_created env hshape hcreating hstaff
        have hrest : (ensureTopicMetadata env topic >>= next).run b = (next (.ok md)).run b' :=
          Program.run_bind hrun
        constructor
        · refine fun hunharmed => ⟨fun _ => ⟨hstaff, ?_⟩, hvacuous⟩
          by_contra hnot
          obtain ⟨c, response, hnext, hresponse, hsame⟩ := hbad hcreating hnot b' md hfresh
          have hcontroller := (hunharmed c response (hrest.trans hnext) hresponse).controller
          exact hfresh.changed (hsame.symm.trans hcontroller)
        · intro h c response hnext hresponse
          rw [hrest] at hnext
          exact absurd hresponse ((hgood hcreating (h.1 hcreating).2 b' md hfresh).run hnext)
      · obtain ⟨b', e, hrun, hchanged⟩ := ensure_stuck env hcreating hstaff
        refine iff_of_false (fun hunharmed => ?_) (fun h => hstaff (h.1 hcreating).1)
        have hrest : (ensureTopicMetadata env topic >>= next).run b =
            .ok (b', badRequest req e) := by
          rw [Program.run_bind hrun, herror]
          rfl
        exact hchanged (hunharmed b' _ hrest ⟨e, rfl⟩).controller
    · refine iff_of_true ?_ ⟨fun h => absurd h.2 haccepted, hvacuous⟩
      have hquiet : Quiet req (ensureTopicMetadata env topic >>= next) b := by
        refine Program.upholds_bind (ensure_refused env hmd haccepted) ?_
        rintro b' r ⟨rfl, e, rfl⟩
        rw [herror]
        exact quiet_pure _
      exact unharmed_of_quiet hquiet

end Ensured

def ProduceHarmless (b : Broker) (req : Request) : Prop :=
  ∀ topic message rest key value, req.args = topic :: message :: rest → rest.length ≤ 1 →
    splitN [58] 2 message = [key, value] → Creating b topic →
      Staffable b ∧ readAckMode rest ≠ none

def ConsumeHarmless (b : Broker) (req : Request) : Prop :=
  ∀ topic partitionText offsetText partition offset,
    req.args = [topic, partitionText, offsetText] → atoi partitionText = some partition →
      atoi offsetText = some offset → Creating b topic →
        Staffable b ∧ 0 ≤ partition ∧ partition < b.defaultPartitions

section Handlers

variable (env : Surroundings) {b : Broker} {req : Request}

/-- When a refused PRODUCE request does no harm. -/
theorem produce_unharmed_iff (hshape : WellFormed b.controller.metadata) :
    Unharmed req (handleProduce env req) b ↔ ProduceHarmless b req := by
  unfold handleProduce ProduceHarmless
  split
  · rename_i topic message rest hargs
    split
    · refine iff_of_true (unharmed_of_quiet (quiet_pure _)) (fun _ _ _ _ _ hargs' hlen => ?_)
      cases hargs.symm.trans hargs'
      omega
    · rename_i hlen
      split
      · rename_i key value hsplit
        refine (unharmed_ensure_iff env hshape (readAckMode rest ≠ none) (fun _ => True)
          (fun _ => rfl) (fun md _ => iff_of_true (unharmed_of_quiet ?_) trivial) ?_ ?_).trans ?_
        · refine quiet_ite (quiet_pure _) ?_
          split
          · exact quiet_pure _
          · exact quiet_produceTo env req _ topic key value md b
        · intro hcreating hmode b' md hfresh
          have hkeys : md.partitions.keys ≠ [] :=
            List.ne_nil_of_mem ((FMap.mem_keys_iff _ _).mpr
              ((hfresh.partitions 0).mpr ⟨Int.le_refl 0, hcreating.2.2.1⟩))
          dsimp only
          rw [if_neg hkeys]
          split
          · contradiction
          · exact good_produceTo env req hcreating.2.2.1 hfresh.partitions _ topic key value b'
        · intro hcreating hmode b' md hfresh
          have hkeys : md.partitions.keys ≠ [] :=
            List.ne_nil_of_mem ((FMap.mem_keys_iff _ _).mpr
              ((hfresh.partitions 0).mpr ⟨Int.le_refl 0, hcreating.2.2.1⟩))
          dsimp only
          rw [if_neg hkeys, not_not.mp hmode]
          exact ⟨b', _, rfl, ⟨_, rfl⟩, rfl⟩
        · constructor
          · intro h _ _ _ _ _ hargs' _ _ hcreating
            cases hargs.symm.trans hargs'
            exact h.1 hcreating
          · exact fun h => ⟨h topic message rest key value hargs (by omega) hsplit,
              fun _ _ => trivial⟩
      · rename_i hnot
        refine iff_of_true (unharmed_of_quiet (quiet_pure _))
          (fun _ _ _ key value hargs' _ hsplit => ?_)
        cases hargs.symm.trans hargs'
        exact absurd hsplit (hnot key value)
  · rename_i hnot
    exact iff_of_true (unharmed_of_quiet (quiet_pure _))
      (fun topic message rest _ _ hargs => absurd hargs (hnot topic message rest))

/-- An integer argument that does not read is refused at once. -/
theorem unharmed_withInt_iff (value : Str) (field : String) {next : Int → Handler Str}
    {harmless : Int → Prop}
    (hnext : ∀ n, atoi value = some n → (Unharmed req (next n) b ↔ harmless n)) :
    Unharmed req (withInt req value field next) b ↔
      ∀ n, atoi value = some n → harmless n := by
  unfold withInt parseInt
  cases hvalue : atoi value with
  | none => exact iff_of_true (unharmed_of_quiet (quiet_pure _)) nofun
  | some n =>
    refine (hnext n hvalue).trans ⟨fun h m hm => ?_, fun h => h n rfl⟩
    cases hm
    exact h

/-- When a refused CONSUME request does no harm. -/
theorem consume_unharmed_iff (hshape : WellFormed b.controller.metadata) :
    Unharmed req (handleConsume env req) b ↔ ConsumeHarmless b req := by
  unfold handleConsume ConsumeHarmless
  split
  · rename_i topic partitionText offsetText hargs
    refine (unharmed_withInt_iff partitionText "partition" (fun partition _ =>
      unharmed_withInt_iff offsetText "offset" (fun offset _ =>
        unharmed_ensure_iff env hshape (0 ≤ partition ∧ partition < b.defaultPartitions)
          (fun _ => True) (fun _ => rfl) (fun md _ => iff_of_true (unharmed_of_quiet ?_) trivial)
          ?_ ?_))).trans ?_
    · dsimp only
      cases md.partitions.get partition with
      | none => exact quiet_pure _
      | some pm => exact (good_bind (fun _ => good_bind (fun _ => good_ok _))).quiet
    · intro _ hrange b' md hfresh
      obtain ⟨pm, hpm⟩ := (hfresh.partitions partition).mpr hrange
      dsimp only
      rw [hpm]
      exact good_bind (fun _ => good_bind (fun _ => good_ok _)) b'
    · intro _ hrange b' md hfresh
      have hnone : md.partitions.get partition = none := by
        cases hpm : md.partitions.get partition with
        | none => rfl
        | some pm => exact absurd ((hfresh.partitions partition).mp ⟨pm, hpm⟩) hrange
      dsimp only
      rw [hnone]
      exact ⟨b', _, rfl, ⟨_, rfl⟩, rfl⟩
    · constructor
      · intro h _ _ _ partition offset hargs' hpartition hoffset hcreating
        cases hargs.symm.trans hargs'
        exact (h partition hpartition offset hoffset).1 hcreating
      · exact fun h partition hpartition offset hoffset =>
          ⟨h topic partitionText offsetText partition offset hargs hpartition hoffset,
            fun _ _ => trivial⟩
  · rename_i hnot
    exact iff_of_true (unharmed_of_quiet (quiet_pure _))
      (fun topic partitionText offsetText _ _ hargs =>
        absurd hargs (hnot topic partitionText offsetText))

end Handlers

end Flux.LateChecks
