import Softmaple.BlockModel.PlannedRuns

/-!
Replicas converge. Which batches a replica holds, which of them are integrated and which are parked
depends on the set of batches that its calls brought, not on the calls or their order; so a replica that
is loaded from an export agrees with the one that was saved.
-/
namespace Softmaple.BlockModel.BlockReplica

open StateMethod CausalRelease List

variable {T U : Type} {engine : TextEngine T} {config : ReplicaConfig} {replica : BlockReplica T}
  {given : List RichTextEventBatch} {batch : RichTextEventBatch}

/-- The same batches are integrated, parked and exported. -/
structure Agrees (replica : BlockReplica T) (other : BlockReplica U) : Prop where
  integrated : ∀ batch, batch ∈ replica.applied ↔ batch ∈ other.applied
  parked : ∀ batchId, (replica.pending.get? batchId).map (·.batch) = (other.pending.get? batchId).map (·.batch)
  held : ∀ batchId, replica.getBatch batchId = other.getBatch batchId
  exported : replica.exportEvents = other.exportEvents

namespace Settled

variable (h : Settled replica)
include h

theorem mem_pending_iff : batch ∈ replica.pendingBatches ↔ batch ∈ replica.known ∧ batch ∉ replica.applied := by
  have hapart := (nodup_append.mp h.applied_nodup).2.2
  rw [known, mem_append]
  constructor
  · intro hmem
    exact ⟨.inr hmem, fun happlied => hapart batch happlied batch hmem rfl⟩
  · rintro ⟨hmem, hout⟩
    exact hmem.resolve_left hout

theorem parked_eq_some {batchId : Text} : (replica.pending.get? batchId).map (·.batch) = some batch ↔
    batch.batchId = batchId ∧ batch ∈ replica.known ∧ batch ∉ replica.applied := by
  rw [← h.mem_pending_iff, mem_pendingBatches h.consistent.index, Option.map_eq_some_iff]
  constructor
  · rintro ⟨entry, hentry, rfl⟩
    have hid := h.consistent.index.keyed hentry
    exact ⟨hid, entry, hid ▸ hentry, rfl⟩
  · rintro ⟨rfl, hentry⟩
    exact hentry

theorem mem_values_iff : batch ∈ replica.batchesById.values ↔ batch ∈ replica.known := by
  rw [InsertionMap.values, mem_map]
  constructor
  · rintro ⟨⟨key, batch⟩, hentry, rfl⟩
    exact (h.recorded.mp (InsertionMap.mem_entries.mp hentry)).2
  · intro hknown
    exact ⟨(batch.batchId, batch), InsertionMap.mem_entries.mpr (h.recorded.mpr ⟨rfl, hknown⟩), rfl⟩

theorem eq_of_id {left right : RichTextEventBatch} (hleft : left ∈ replica.known) (hright : right ∈ replica.known)
    (hid : left.batchId = right.batchId) : left = right :=
  Option.some.inj ((h.recorded.mpr ⟨hid, hleft⟩).symm.trans (h.recorded.mpr ⟨rfl, hright⟩))

theorem ids_nodup : (replica.batchesById.values.map (·.batchId)).Nodup := by
  have hids : replica.batchesById.values.map (·.batchId) = replica.batchesById.keys := by
    rw [InsertionMap.values, InsertionMap.keys, map_map]
    refine map_congr_left fun entry hentry => ?_
    exact (h.recorded.mp (InsertionMap.mem_entries.mp hentry)).1
  rw [hids]
  exact replica.batchesById.nodup

theorem exportEvents_eq {other : BlockReplica U} (hother : Settled other)
    (hsame : ∀ batch, batch ∈ replica.known ↔ batch ∈ other.known) :
    replica.exportEvents = other.exportEvents := by
  let earlier : RichTextEventBatch → RichTextEventBatch → Prop := fun left right => left.batchId ≤ right.batchId
  have htotal : Std.Total earlier := ⟨fun left right => le_total left.batchId right.batchId⟩
  have htrans : IsTrans RichTextEventBatch earlier := ⟨fun _ _ _ => le_trans⟩
  have hperm : replica.batchesById.values.Perm other.batchesById.values := by
    refine (perm_ext_iff_of_nodup (.of_map _ h.ids_nodup) (.of_map _ hother.ids_nodup)).mpr fun batch => ?_
    rw [h.mem_values_iff, hother.mem_values_iff, hsame]
  refine @List.Perm.eq_of_pairwise _ earlier _ _ (fun left right hleft hright hle hge => ?_)
    (pairwise_insertionSort earlier _) (pairwise_insertionSort earlier _)
    ((perm_insertionSort earlier _).trans (hperm.trans (perm_insertionSort earlier _).symm))
  have hknown := (hsame right).mpr (hother.mem_values_iff.mp ((mem_insertionSort earlier).mp hright))
  exact h.eq_of_id (h.mem_values_iff.mp ((mem_insertionSort earlier).mp hleft)) hknown (le_antisymm hle hge)

end Settled

/-- Replicas that were given the same batches agree, whichever calls brought them, in whatever order, and
whatever text engines they have. -/
theorem replicas_converge {other : BlockReplica U} {rival : TextEngine U} {site : ReplicaConfig}
    {arrived : List RichTextEventBatch} (h : PlanRun engine config (ClearNumbers config) given replica)
    (hother : PlanRun rival site (ClearNumbers site) arrived other)
    (hsame : ∀ batch, batch ∈ given ↔ batch ∈ arrived) : Agrees replica other := by
  obtain ⟨hsettled, hgiven⟩ := h.settled
  obtain ⟨hother, harrived⟩ := hother.settled
  have hknown (batch) : batch ∈ replica.known ↔ batch ∈ other.known := by rw [← hgiven, hsame, harrived]
  have happlied (batch) : batch ∈ replica.applied ↔ batch ∈ other.applied := by
    by_cases hin : batch ∈ given
    · rw [hsettled.mem_applied_iff hgiven hin, hother.mem_applied_iff harrived ((hsame batch).mp hin)]
      exact ⟨.of_same hsame, .of_same fun batch => (hsame batch).symm⟩
    · have hout : batch ∉ replica.known := fun hmem => hin ((hgiven batch).mpr hmem)
      refine iff_of_false (fun hmem => hout (mem_append_left _ hmem)) fun hmem => hout ?_
      exact (hknown batch).mpr (mem_append_left _ hmem)
  refine ⟨happlied, fun batchId => Option.ext fun batch => ?_, fun batchId => Option.ext fun batch => ?_,
    hsettled.exportEvents_eq hother hknown⟩
  · rw [hsettled.parked_eq_some, hother.parked_eq_some, hknown, happlied]
  · rw [getBatch, getBatch, hsettled.recorded, hother.recorded, hknown]

/-- Two replies to events that have not arrived. -/
def replies : List RichTextEventBatch :=
  [typing (text "bob:1") (text "bob:0"), typing (text "eve:1") (text "eve:0")]

theorem replies_converge : Agrees (finalState (applyRemoteEvents quietText alice 8 replies newReplica))
    (finalState (applyRemoteEvents quietText alice 8 replies.reverse newReplica)) := by
  have hparse : parseBatches alice replies = .ok replies := rfl
  have hreverse : parseBatches alice replies.reverse = .ok replies.reverse := rfl
  refine replicas_converge (.delivered 8 hparse rfl (.created create_quietText))
    (.delivered 8 hreverse rfl (.created create_quietText)) fun batch => ?_
  rw [mem_append, mem_append, mem_reverse]

section Reload

theorem stage_ends {staged : InsertionMap Text RichTextEventBatch} {owners : InsertionMap Text Text}
    {rest : List RichTextEventBatch} (hids : (rest.map (·.batchId)).Nodup)
    (hnew : ∀ batch ∈ rest, replica.batchesById.get? batch.batchId = none ∧ staged.get? batch.batchId = none)
    (hevents : (rest.flatMap (·.eventIds)).Nodup) (hunowned : ∀ batch ∈ rest, ∀ id ∈ batch.eventIds,
      owners.has id = false ∧ replica.eventOwner.has id = false) :
    ∃ final, stage replica staged owners rest = .ok final := by
  induction rest generalizing staged owners with
  | nil => exact ⟨staged, rfl⟩
  | cons batch rest ih =>
    rw [map_cons, nodup_cons] at hids
    rw [flatMap_cons, nodup_append] at hevents
    rw [forall_mem_cons] at hnew hunowned
    obtain ⟨next, hclaim⟩ := @claimOwners_ends T replica owners batch.batchId _ hevents.1 hunowned.1
    obtain ⟨-, -, hnext⟩ := claimOwners_ok hclaim
    obtain ⟨final, hfinal⟩ := @ih (staged.set batch.batchId batch) next hids.2 (fun other hother => by
      have hne : other.batchId ≠ batch.batchId := fun heq => hids.1 (heq ▸ mem_map_of_mem hother)
      rw [InsertionMap.get?_set_of_ne hne]
      exact hnew.2 other hother) hevents.2.1 (fun other hother id hid => by
      obtain ⟨hfree, howner⟩ := hunowned.2 other hother id hid
      refine ⟨?_, howner⟩
      rw [Bool.eq_false_iff, ne_eq, hnext, hfree, not_or]
      exact ⟨Bool.false_ne_true, fun hin => hevents.2.2 id hin id (mem_flatMap.mpr ⟨other, hother, hid⟩) rfl⟩)
    refine ⟨final, ?_⟩
    rw [stage, hnew.1.1, hnew.1.2]
    exact except_bind_eq_ok.mpr ⟨next, hclaim, hfinal⟩

theorem parseBatches_self {input : List RichTextEventBatch}
    (h : ∀ batch ∈ input, parseBatch config.isSafeLinkUrl batch = .ok batch) :
    parseBatches config input = .ok input := by
  rw [parseBatches, except_mapM_eq_ok.mpr (forall₂_same.mpr h)]
  rfl

variable (h : PlanRun engine config (ClearNumbers config) given replica)
include h

theorem PlanRun.parsed : ∀ batch ∈ given, parseBatch config.isSafeLinkUrl batch = .ok batch := by
  induction h with
  | created creates =>
    intro batch hbatch
    rw [mem_singleton.mp hbatch]
    rfl
  | read text earlier ih => exact ih
  | subscribed listening earlier ih => exact ih
  | delivered fuel parses returns earlier ih =>
    intro batch hbatch
    obtain hbefore | hnow := mem_append.mp hbatch
    · exact ih batch hbefore
    · obtain ⟨raw, -, hraw⟩ := exists_matched (parseBatches_ok parses) hnow
      exact (parseBatch_eq_ok hraw).2.2
  | transacted fuel runs permitted returns earlier ih =>
    intro batch hbatch
    obtain hbefore | hnow := mem_append.mp hbatch
    · exact ih batch hbefore
    · obtain ⟨plan, next, state, hfinish, -⟩ := transact_some returns
      rw [mem_singleton.mp hnow]
      exact (finished_ok hfinish).2.2.2
  | idle fuel runs returns earlier ih => exact ih

theorem PlanRun.mem_exportEvents : batch ∈ replica.exportEvents ↔ batch ∈ given := by
  obtain ⟨hsettled, hgiven⟩ := h.settled
  rw [exportEvents, mem_insertionSort, hsettled.mem_values_iff, hgiven]

/-- An export is a delivery that a new replica's checks accept, and a replica that is loaded from it agrees
with the one that was saved, so that only a text engine can refuse it. -/
theorem exports_reload (rival : TextEngine U) (replicaId : Text) :
    parseBatches { config with replicaId } replica.exportEvents = .ok replica.exportEvents ∧
      (∀ created, create rival = .ok created → ∃ staged, stage created .empty .empty
        (replica.exportEvents.filter fun batch => decide (batch.batchId ≠ BOOTSTRAP_BATCH_ID)) = .ok staged ∧
          PlansInOrder created staged.values []) ∧
      ∀ fuel restored, deserialize rival { config with replicaId } fuel replica.exportEvents = .ok restored →
        Agrees replica restored := by
  obtain ⟨hsettled, hgiven⟩ := h.settled
  have hparse : parseBatches { config with replicaId } replica.exportEvents = .ok replica.exportEvents :=
    parseBatches_self fun batch hbatch => h.parsed batch (h.mem_exportEvents.mp hbatch)
  let rest := replica.exportEvents.filter fun batch => decide (batch.batchId ≠ BOOTSTRAP_BATCH_ID)
  have hrest (batch) : batch ∈ rest ↔ batch ∈ given ∧ batch.batchId ≠ BOOTSTRAP_BATCH_ID := by
    rw [mem_filter, h.mem_exportEvents, decide_eq_true_iff]
  refine ⟨hparse, fun created hcreate => ?_, fun fuel restored hload => ?_⟩
  · obtain ⟨hcreated, hknown⟩ := create_settled hcreate
    have hfirst (found) (hfound : found ∈ created.known) : found = BOOTSTRAP_BATCH :=
      mem_singleton.mp (hknown ▸ hfound)
    have hids : (rest.map (·.batchId)).Nodup :=
      ((filter_sublist.map _).nodup (((perm_insertionSort _ _).map _).nodup_iff.mpr hsettled.ids_nodup))
    have hmem (batch) (hbatch : batch ∈ rest) : batch ∈ replica.known := (hgiven batch).mp ((hrest batch).mp hbatch).1
    have hevents : ([] ++ rest.flatMap RichTextEventBatch.eventIds).Nodup := nodup_produced (.of_map _ hids) hmem hsettled.apart
    obtain ⟨staged, hstage⟩ := @stage_ends U created .empty .empty rest hids (fun batch hbatch => by
      refine ⟨Option.eq_none_iff_forall_ne_some.mpr fun found hfound => ?_, rfl⟩
      obtain ⟨hid, hfound⟩ := hcreated.recorded.mp hfound
      exact ((hrest batch).mp hbatch).2 (hid ▸ congrArg _ (hfirst found hfound))) hevents
      fun batch hbatch id hid => by
        have hboot : id ∉ BOOTSTRAP_BATCH.eventIds := by
          intro hin
          apply ((hrest batch).mp hbatch).2
          rw [producer_unique hsettled.apart (hmem batch hbatch) (mem_append_left _ mem_cons_self) hid hin]
          rfl
        refine ⟨rfl, Bool.eq_false_iff.mpr fun hhas => hboot ?_⟩
        obtain rfl | ⟨other, hother, hin⟩ | ⟨other, hother, hin⟩ := (hcreated.consistent.owned id).mp hhas
        · exact mem_cons_self
        · exact hfirst other (mem_append_left _ (mem_cons_of_mem _ hother)) ▸ hin
        · exact hfirst other (mem_append_right _ hother) ▸ hin
    obtain ⟨owners, hstaged⟩ := stage_ok hstage
    exact ⟨staged, hstage, (hcreated.consistent.planInput hstaged).plansInOrder⟩
  · obtain ⟨parsed, hparsed, hload⟩ := except_bind_eq_ok.mp hload
    cases hparse.symm.trans hparsed
    split at hload
    · next hboot =>
        obtain ⟨created, hcreate, happly⟩ := except_bind_eq_ok.mp hload
        simp only at happly
        split at happly
        · next result loaded hdeliver =>
            cases happly
            refine replicas_converge h (.delivered fuel (parseBatches_self fun batch hbatch =>
              h.parsed batch ((hrest batch).mp hbatch).1) hdeliver (.created hcreate)) fun batch => ?_
            rw [mem_append, mem_singleton, hrest]
            constructor
            · intro hbatch
              by_cases hid : batch.batchId = BOOTSTRAP_BATCH_ID
              · exact .inl (hsettled.eq_of_id ((hgiven batch).mp hbatch) (mem_append_left _ mem_cons_self) hid)
              · exact .inr ⟨hbatch, hid⟩
            · rintro (rfl | hbatch)
              · exact (hgiven _).mpr (mem_append_left _ mem_cons_self)
              · exact hbatch.1
        · cases happly
    · cases hload

end Reload

theorem parked_reply_reloads : ∃ restored,
    deserialize quietText alice 8 (ahead (typing (text "bob:1") (text "bob:0"))).exportEvents = .ok restored ∧
      Agrees (ahead (typing (text "bob:1") (text "bob:0"))) restored := by
  let reply := typing (text "bob:1") (text "bob:0")
  have hreply : parseBatches alice [reply] = .ok [reply] := rfl
  have hrun : PlanRun quietText alice (ClearNumbers alice) ([BOOTSTRAP_BATCH] ++ [reply]) (ahead reply) :=
    .delivered 8 hreply rfl (.created create_quietText)
  exact ⟨_, rfl, (exports_reload hrun quietText alice.replicaId).2.2 8 _ rfl⟩

end Softmaple.BlockModel.BlockReplica
