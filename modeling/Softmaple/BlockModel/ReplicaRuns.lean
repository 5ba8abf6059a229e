import Softmaple.BlockModel.ReplicaInvariant
import Softmaple.BlockModel.TransactionRun

/-!
Every replica that calls can produce is consistent: a delivery or a transaction
either leaves the records as they were or commits batches that the plan drew
from what was staged and what was parked.
-/
namespace Softmaple.BlockModel.BlockReplica

open StateMethod InsertionMap ReplicaState List

variable {T : Type} {replica : BlockReplica T}

section Staging

/-- What the checks of a delivery have let through. -/
structure Staged (replica : BlockReplica T) (incoming : List RichTextEventBatch)
    (staged : InsertionMap Text RichTextEventBatch) (owners : InsertionMap Text Text) : Prop where
  keyed : ∀ {key batch}, staged.get? key = some batch →
    batch.batchId = key ∧ batch ∈ incoming ∧ replica.batchesById.has key = false
  claimed : ∀ eventId, owners.has eventId = true ↔ ∃ batch ∈ staged.values, eventId ∈ batch.eventIds
  unowned : ∀ eventId, owners.has eventId = true → replica.eventOwner.has eventId = false
  produced : (staged.values.flatMap (·.eventIds)).Nodup

variable {owners : InsertionMap Text Text}

theorem claimOwners_ok {batchId : Text} {eventIds : List Text} {final : InsertionMap Text Text}
    (h : eventIds.foldlM (fun (owners : InsertionMap Text Text) eventId =>
      match (replica.eventOwner.get? eventId).orElse fun _ => owners.get? eventId with
      | some owner => Except.error (ReplicaError.eventIdTaken eventId owner)
      | none => .ok (owners.set eventId batchId)) owners = .ok final) :
    eventIds.Nodup ∧ (∀ id ∈ eventIds, owners.has id = false ∧ replica.eventOwner.has id = false) ∧
      ∀ id, final.has id = true ↔ owners.has id = true ∨ id ∈ eventIds := by
  induction eventIds generalizing owners with
  | nil =>
    cases h
    simp
  | cons eventId eventIds ih =>
    rw [foldlM_cons] at h
    obtain ⟨next, hnext, hrest⟩ := except_bind_eq_ok.mp h
    have hfree : replica.eventOwner.get? eventId = none ∧ owners.get? eventId = none ∧
        owners.set eventId batchId = next := by
      cases howner : replica.eventOwner.get? eventId with
      | some owner => simp [howner] at hnext
      | none =>
        cases hstaged : owners.get? eventId with
        | some owner => simp [howner, hstaged] at hnext
        | none =>
          simp only [howner, hstaged, Option.orElse_none, Except.ok.injEq] at hnext
          exact ⟨rfl, rfl, hnext⟩
    obtain ⟨howner, hstaged, rfl⟩ := hfree
    obtain ⟨hnodup, hunowned, hfinal⟩ := ih hrest
    have hunused : owners.has eventId = false := has_eq_false.mpr hstaged
    refine ⟨nodup_cons.mpr ⟨?_, hnodup⟩, ?_, ?_⟩
    · intro hmem
      have hset := (hunowned eventId hmem).1
      simp at hset
    · intro id hid
      cases mem_cons.mp hid with
      | inl heq =>
        rw [heq]
        exact ⟨hunused, has_eq_false.mpr howner⟩
      | inr hmem =>
        have hset := hunowned id hmem
        rw [has_set, Bool.or_eq_false_iff] at hset
        exact ⟨hset.1.2, hset.2⟩
    · intro id
      rw [hfinal, has_set, Bool.or_eq_true, decide_eq_true_iff, mem_cons]
      constructor
      · rintro ((heq | hhas) | hmem)
        · exact Or.inr (Or.inl heq)
        · exact Or.inl hhas
        · exact Or.inr (Or.inr hmem)
      · rintro (hhas | heq | hmem)
        · exact Or.inl (Or.inr hhas)
        · exact Or.inl (Or.inl heq)
        · exact Or.inr hmem

theorem claimOwners_ends {batchId : Text} {eventIds : List Text} (hnodup : eventIds.Nodup)
    (hunowned : ∀ id ∈ eventIds, owners.has id = false ∧ replica.eventOwner.has id = false) :
    ∃ final, eventIds.foldlM (fun (owners : InsertionMap Text Text) eventId =>
      match (replica.eventOwner.get? eventId).orElse fun _ => owners.get? eventId with
      | some owner => Except.error (ReplicaError.eventIdTaken eventId owner)
      | none => .ok (owners.set eventId batchId)) owners = .ok final := by
  induction eventIds generalizing owners with
  | nil => exact ⟨owners, rfl⟩
  | cons eventId eventIds ih =>
    obtain ⟨hunused, howner⟩ := hunowned eventId mem_cons_self
    obtain ⟨hfirst, hrest⟩ := nodup_cons.mp hnodup
    obtain ⟨final, hfinal⟩ := @ih (owners.set eventId batchId) hrest (by
      intro id hid
      obtain ⟨hother, hid'⟩ := hunowned id (mem_cons_of_mem _ hid)
      refine ⟨?_, hid'⟩
      rw [has_set, hother, Bool.or_false, decide_eq_false_iff_not]
      intro heq
      exact hfirst (heq ▸ hid))
    refine ⟨final, ?_⟩
    rw [foldlM_cons, has_eq_false.mp hunused, has_eq_false.mp howner]
    exact hfinal

variable {staged : InsertionMap Text RichTextEventBatch}

theorem stage_staged {incoming rest : List RichTextEventBatch}
    {final : InsertionMap Text RichTextEventBatch}
    (hsub : ∀ batch ∈ rest, batch ∈ incoming) (h : Staged replica incoming staged owners)
    (hstage : stage replica staged owners rest = .ok final) :
    ∃ last, Staged replica incoming final last := by
  induction rest generalizing staged owners with
  | nil =>
    cases hstage
    exact ⟨owners, h⟩
  | cons batch rest ih =>
    have hrest : ∀ other ∈ rest, other ∈ incoming :=
      fun other hother => hsub other (mem_cons_of_mem _ hother)
    rw [stage] at hstage
    split at hstage
    · next existing hexisting =>
        split at hstage
        · exact ih hrest h hstage
        · cases hstage
    · next hnone =>
        obtain ⟨next, hclaim, hstage⟩ := except_bind_eq_ok.mp hstage
        apply ih hrest _ hstage
        obtain ⟨hnodup, hunowned, hnext⟩ := claimOwners_ok hclaim
        have hnew : replica.batchesById.get? batch.batchId = none ∧
            staged.get? batch.batchId = none := by
          cases hknown : replica.batchesById.get? batch.batchId with
          | some known => simp [hknown] at hnone
          | none =>
            simp only [hknown, Option.orElse_none] at hnone
            exact ⟨rfl, hnone⟩
        have hvalues := @InsertionMap.values_set_of_new Text RichTextEventBatch _ staged
          batch.batchId batch (has_eq_false.mpr hnew.2)
        refine ⟨?_, ?_, ?_, ?_⟩
        · intro key other hget
          obtain ⟨hkey, rfl⟩ | ⟨hkey, hget⟩ := get?_set_eq_some.mp hget
          · refine ⟨hkey.symm, hsub batch mem_cons_self, ?_⟩
            rw [hkey]
            exact has_eq_false.mpr hnew.1
          · exact h.keyed hget
        · intro eventId
          rw [hnext, h.claimed, hvalues]
          simp only [mem_append, mem_singleton]
          constructor
          · rintro (⟨other, hother, hmem⟩ | hmem)
            · exact ⟨other, Or.inl hother, hmem⟩
            · exact ⟨batch, Or.inr rfl, hmem⟩
          · rintro ⟨other, hother | rfl, hmem⟩
            · exact Or.inl ⟨other, hother, hmem⟩
            · exact Or.inr hmem
        · intro eventId hhas
          cases (hnext eventId).mp hhas with
          | inl hbefore => exact h.unowned eventId hbefore
          | inr hmem => exact (hunowned eventId hmem).2
        · rw [hvalues, flatMap_append, flatMap_singleton]
          apply nodup_append.mpr
          refine ⟨h.produced, hnodup, ?_⟩
          intro left hleft right hright heq
          obtain ⟨other, hother, hmem⟩ := mem_flatMap.mp hleft
          have hhas := (h.claimed left).mpr ⟨other, hother, hmem⟩
          rw [heq, (hunowned right hright).1] at hhas
          cases hhas

theorem stage_keeps {rest : List RichTextEventBatch} {final : InsertionMap Text RichTextEventBatch}
    (hstage : stage replica staged owners rest = .ok final) :
    (∀ {key batch}, staged.get? key = some batch → replica.batchesById.get? key = none →
      final.get? key = some batch) ∧
    ∀ batch ∈ rest, replica.batchesById.get? batch.batchId = some batch ∨
      final.get? batch.batchId = some batch := by
  induction rest generalizing staged owners with
  | nil =>
    cases hstage
    exact ⟨fun hget _ => hget, fun batch hmem => absurd hmem not_mem_nil⟩
  | cons first rest ih =>
    rw [stage] at hstage
    split at hstage
    · next existing hexisting =>
        split at hstage
        · next heq =>
            obtain ⟨hkept, hrest⟩ := ih hstage
            refine ⟨hkept, ?_⟩
            intro batch hbatch
            cases mem_cons.mp hbatch with
            | inr hmem => exact hrest batch hmem
            | inl hfirst =>
              rw [hfirst]
              cases hknown : replica.batchesById.get? first.batchId with
              | some known =>
                rw [hknown] at hexisting
                cases hexisting
                rw [heq]
                exact Or.inl rfl
              | none =>
                rw [hknown, Option.orElse_none, heq] at hexisting
                exact Or.inr (hkept hexisting hknown)
        · cases hstage
    · next hnone =>
        obtain ⟨next, hclaim, hstage⟩ := except_bind_eq_ok.mp hstage
        obtain ⟨hkept, hrest⟩ := ih hstage
        have hnew : replica.batchesById.get? first.batchId = none ∧
            staged.get? first.batchId = none := by
          cases hknown : replica.batchesById.get? first.batchId with
          | some known => simp [hknown] at hnone
          | none =>
            simp only [hknown, Option.orElse_none] at hnone
            exact ⟨rfl, hnone⟩
        constructor
        · intro key batch hget hunknown
          apply hkept _ hunknown
          rw [get?_set]
          by_cases hkey : key = first.batchId
          · rw [hkey, hnew.2] at hget
            cases hget
          · rw [if_neg hkey]
            exact hget
        · intro batch hbatch
          cases mem_cons.mp hbatch with
          | inr hmem => exact hrest batch hmem
          | inl hfirst =>
            right
            rw [hfirst]
            apply hkept _ hnew.1
            rw [get?_set, if_pos rfl]

theorem stage_ok {incoming : List RichTextEventBatch}
    (h : stage replica .empty .empty incoming = .ok staged) :
    ∃ owners, Staged replica incoming staged owners := by
  refine stage_staged (fun _ hmem => hmem) ⟨?_, ?_, ?_, ?_⟩ h
  · intro key batch hget
    cases hget
  · intro eventId
    constructor
    · intro hhas
      cases hhas
    · rintro ⟨batch, hbatch, -⟩
      cases hbatch
  · intro eventId hhas
    cases hhas
  · exact nodup_nil

end Staging

section States

variable {engine : TextEngine T} {config : ReplicaConfig}

structure HasIntegrated (integrated : List RichTextEventBatch) (state : ReplicaState T) :
    Prop where
  bootstrap : BOOTSTRAP_EVENT_ID ∈ state.eventGraph
  graph : ∀ batch ∈ integrated, ∀ id ∈ batch.eventIds, id ∈ state.eventGraph

theorem HasIntegrated.grows {integrated : List RichTextEventBatch} {first last : ReplicaState T}
    (h : HasIntegrated integrated first) (hgrows : ReplicaState.Grows first last) :
    HasIntegrated integrated last where
  bootstrap := hgrows.eventGraph _ h.bootstrap
  graph batch hbatch id hid := hgrows.eventGraph id (h.graph batch hbatch id hid)

theorem Consistent.hasIntegrated (h : Consistent replica) : HasIntegrated replica.integrated replica.state :=
  ⟨h.bootstrap, h.graph⟩

theorem Consistent.withState (h : Consistent replica) {state : ReplicaState T}
    (hstate : HasIntegrated replica.integrated state) : Consistent { replica with state } where
  index := ⟨h.index.keyed, h.index.missing, h.index.waits, h.index.once⟩
  stored := h.stored
  owned := h.owned
  bootstrap := hstate.bootstrap
  graph := hstate.graph
  produced := h.produced
  named := h.named

theorem rebuildState_has {state : ReplicaState T} (h : rebuildState engine replica = .ok state) :
    HasIntegrated replica.integrated state := by
  obtain ⟨created, hcreate, h⟩ := except_bind_eq_ok.mp h
  have hbootstrap := create_mem hcreate
  split at h
  · next hempty =>
      cases h
      refine ⟨hbootstrap, fun batch hbatch => ?_⟩
      rw [hempty] at hbatch
      cases hbatch
  · split at h
    · next rebuilt hintegrate =>
        cases h
        have hgrows := (integrateBatches_grows engine _).of_ok hintegrate
        refine ⟨hgrows.eventGraph _ hbootstrap, fun batch hbatch id hid => ?_⟩
        exact (integrateBatches_mem hintegrate batch hbatch id hid).1
    · cases h

theorem recover_eq (error : ReplicaError) (replica : BlockReplica T) :
    ∃ thrown state, recover engine error replica = .error thrown { replica with state } ∧
      (state = replica.state ∨ rebuildState engine replica = .ok state) := by
  rw [recover]
  cases hrebuild : rebuildState engine replica with
  | ok state => exact ⟨error, state, rfl, Or.inr rfl⟩
  | error rebuildError => exact ⟨rebuildError, replica.state, rfl, Or.inl rfl⟩

variable {next : BlockReplica T}

theorem recover_has {error thrown : ReplicaError} (hstate : HasIntegrated replica.integrated replica.state)
    (h : recover engine error replica = .error thrown next) :
    ∃ state, next = { replica with state } ∧ HasIntegrated replica.integrated state := by
  obtain ⟨other, state, hrecover, hcases⟩ := @recover_eq T engine error replica
  rw [hrecover] at h
  cases h
  refine ⟨state, rfl, ?_⟩
  cases hcases with
  | inl heq => exact heq ▸ hstate
  | inr hrebuild => exact rebuildState_has hrebuild

theorem integrateReady_state (plan : IntegrationPlan) (replica : BlockReplica T) :
    ∃ state, finalState (integrateReady engine plan replica) = { replica with state } := by
  rw [integrateReady]
  split
  · exact ⟨replica.state, rfl⟩
  · split
    · next state hintegrate => exact ⟨state, rfl⟩
    · next error state hintegrate =>
        obtain ⟨thrown, rebuilt, hrecover, -⟩ := @recover_eq T engine error { replica with state }
        exact ⟨rebuilt, by rw [hrecover, finalState_error]⟩

theorem integrateReady_ok {plan : IntegrationPlan} (h : integrateReady engine plan replica = .ok ⟨⟩ next) :
    ∃ state, next = { replica with state } ∧ ReplicaState.Grows replica.state state ∧
      ∀ batch ∈ plan.ready, ∀ id ∈ batch.eventIds, id ∈ state.eventGraph := by
  rw [integrateReady] at h
  split at h
  · next hempty =>
      cases h
      refine ⟨replica.state, rfl, ReplicaState.Grows.refl _, fun batch hbatch => ?_⟩
      rw [hempty] at hbatch
      cases hbatch
  · split at h
    · next state hintegrate =>
        cases h
        refine ⟨state, rfl, (integrateBatches_grows engine _).of_ok hintegrate, ?_⟩
        intro batch hbatch id hid
        exact (integrateBatches_mem hintegrate batch hbatch id hid).1
    · next error state hintegrate =>
        obtain ⟨thrown, rebuilt, hrecover, -⟩ := @recover_eq T engine error { replica with state }
        rw [hrecover] at h
        cases h

theorem integrateReady_error {plan : IntegrationPlan} {error : ReplicaError}
    (hstate : HasIntegrated replica.integrated replica.state)
    (h : integrateReady engine plan replica = .error error next) :
    ∃ state, next = { replica with state } ∧ HasIntegrated replica.integrated state := by
  rw [integrateReady] at h
  split at h
  · cases h
  · split at h
    · cases h
    · next thrown state hintegrate =>
        have hgrows := integrateBatches_grows engine plan.ready replica.state
        rw [hintegrate] at hgrows
        obtain ⟨final, rfl, hfinal⟩ :=
          @recover_has T { replica with state } engine _ _ _ (hstate.grows hgrows) h
        exact ⟨final, rfl, hfinal⟩

theorem notify_same (replica : BlockReplica T) :
    ∃ state, finalState (notify engine replica) = { replica with state } ∧
      ReplicaState.SameHistory replica.state state := by
  rw [notify]
  split
  · have hsame := liftText_same engine.document replica.state
    cases hread : liftText engine.document replica.state with
    | ok document state =>
      rw [hread] at hsame
      exact ⟨state, rfl, hsame⟩
    | error error state =>
      rw [hread] at hsame
      exact ⟨state, rfl, hsame⟩
  · exact ⟨replica.state, rfl, chains_sameHistory.refl _⟩

end States

section Deliveries

variable {engine : TextEngine T} {config : ReplicaConfig} {fuel : Nat}
  {input incoming : List RichTextEventBatch} {staged : InsertionMap Text RichTextEventBatch}
  {owners : InsertionMap Text Text} {plan : IntegrationPlan}

theorem Staged.ids (h : Staged replica incoming staged owners) :
    staged.values.map (·.batchId) = staged.keys := by
  rw [values, map_map]
  apply map_congr_left
  intro entry hentry
  exact (h.keyed (mem_entries.mp hentry)).1

theorem Staged.mem (h : Staged replica incoming staged owners) {batch : RichTextEventBatch}
    (hbatch : batch ∈ staged.values) :
    staged.get? batch.batchId = some batch ∧ batch ∈ incoming ∧
      replica.batchesById.has batch.batchId = false := by
  obtain ⟨entry, hentry, rfl⟩ := mem_map.mp hbatch
  have hget := mem_entries.mp hentry
  obtain ⟨hid, hin, hnew⟩ := h.keyed hget
  rw [hid]
  exact ⟨hget, hin, hnew⟩

theorem Consistent.planInput (h : Consistent replica)
    (hstaged : Staged replica incoming staged owners) : PlanInput replica staged.values [] where
  index := h.index
  available _ hmem := absurd hmem not_mem_nil
  ids := by
    rw [held, map_append, hstaged.ids]
    apply nodup_append.mpr
    refine ⟨staged.nodup, nodup_pendingIds h.index, ?_⟩
    intro left hleft right hright heq
    obtain ⟨entry, hentry, rfl⟩ := mem_map.mp hleft
    have hnew := (hstaged.keyed (mem_entries.mp hentry)).2.2
    obtain ⟨batch, hbatch, rfl⟩ := mem_map.mp hright
    rw [heq, (h.stored batch.batchId).mpr (Or.inr (Or.inr (h.index.has_of_mem hbatch)))] at hnew
    cases hnew
  produced := by
    rw [held, flatMap_append, nil_append]
    apply nodup_append.mpr
    refine ⟨hstaged.produced, h.produced, ?_⟩
    intro left hleft right hright heq
    obtain ⟨batch, hbatch, hmem⟩ := mem_flatMap.mp hleft
    have hunowned := hstaged.unowned left ((hstaged.claimed left).mpr ⟨batch, hbatch, hmem⟩)
    obtain ⟨parked, hparked, hin⟩ := mem_flatMap.mp hright
    rw [heq, (h.owned right).mpr (Or.inr (Or.inr ⟨parked, hparked, hin⟩))] at hunowned
    cases hunowned

theorem parseBatches_ok (h : parseBatches config input = .ok incoming) :
    List.Forall₂ (fun raw batch => parseBatch config.isSafeLinkUrl raw = .ok batch) input
      incoming := by
  rw [parseBatches] at h
  cases hparse : input.mapM (parseBatch config.isSafeLinkUrl) with
  | error error =>
    rw [hparse] at h
    cases h
  | ok parsed =>
    rw [hparse] at h
    cases h
    exact except_mapM_eq_ok.mp hparse

theorem parseBatches_mem (h : parseBatches config input = .ok incoming)
    {batch : RichTextEventBatch} (hbatch : batch ∈ incoming) :
    ∃ raw ∈ input, parseBatch config.isSafeLinkUrl raw = .ok batch := by
  have hmatched := exists_matched (parseBatches_ok h) hbatch
  exact hmatched

theorem Consistent.commitInput (h : Consistent replica)
    (hparse : parseBatches config input = .ok incoming)
    (hstaged : Staged replica incoming staged owners)
    (hplan : planIntegration fuel replica staged.values [] = .ok plan) {state : ReplicaState T}
    (hready : ∀ batch ∈ plan.ready, ∀ id ∈ batch.eventIds, id ∈ state.eventGraph) :
    CommitInput { replica with state } staged.values staged.values plan.ready plan := by
  have hinput := h.planInput hstaged
  have hspec := planIntegration_spec hinput hplan
  refine ⟨fun batch hbatch => ⟨hspec.held batch hbatch, hbatch⟩, ?_, ?_, fun _ hmem => hmem, ?_, ?_,
    hready, hinput.produced, ?_⟩
  · intro key entry hget
    obtain ⟨hid, hheld, -, hmissing, -⟩ := hspec.parked hget
    exact ⟨hid, hheld, hmissing⟩
  · intro batch hbatch
    cases hhas : replica.pending.has batch.batchId with
    | false => rfl
    | true =>
      have hnew := (hstaged.mem hbatch).2.2
      rw [(h.stored batch.batchId).mpr (Or.inr (Or.inr hhas))] at hnew
      cases hnew
  · intro batch hbatch
    cases hspec.staged batch hbatch with
    | inl hin => exact Or.inl hin
    | inr hparked =>
      obtain ⟨entry, hentry⟩ := has_iff.mp hparked
      obtain ⟨hid, hheld, -⟩ := hspec.parked hentry
      exact Or.inr ⟨entry, hentry, hinput.eq_of_id hheld (mem_append_left _ hbatch) hid⟩
  · intro batch hbatch
    exact mem_append.mp (hspec.held batch hbatch)
  · intro batch hbatch
    obtain ⟨-, hin, hnew⟩ := hstaged.mem hbatch
    obtain ⟨raw, -, hraw⟩ := parseBatches_mem hparse hin
    cases (parseBatch_named hraw).1 with
    | inl hnamed => exact hnamed
    | inr hbootstrap =>
      rw [(h.stored batch.batchId).mpr (Or.inl hbootstrap)] at hnew
      cases hnew

inductive Delivered (engine : TextEngine T) (config : ReplicaConfig) (fuel : Nat)
    (input : List RichTextEventBatch) (replica : BlockReplica T) : BlockReplica T → Prop where
  | rejected : Delivered engine config fuel input replica replica
  | failed {incoming : List RichTextEventBatch} {staged : InsertionMap Text RichTextEventBatch}
      {plan : IntegrationPlan} {error : ReplicaError} {next : BlockReplica T}
      (parsed : parseBatches config input = .ok incoming)
      (stages : stage replica .empty .empty incoming = .ok staged)
      (plans : planIntegration fuel replica staged.values [] = .ok plan)
      (fails : integrateReady engine plan replica = .error error next) :
      Delivered engine config fuel input replica next
  | committed {incoming : List RichTextEventBatch} {staged : InsertionMap Text RichTextEventBatch}
      {plan : IntegrationPlan} {next : BlockReplica T} {state : ReplicaState T}
      (parsed : parseBatches config input = .ok incoming)
      (stages : stage replica .empty .empty incoming = .ok staged)
      (plans : planIntegration fuel replica staged.values [] = .ok plan)
      (integrates : integrateReady engine plan replica = .ok ⟨⟩ next)
      (same : ReplicaState.SameHistory next.state state) :
      Delivered engine config fuel input replica
        { next.commit staged.values plan.ready plan with state }

theorem settleDelivery_ok {next : BlockReplica T} (stored : List RichTextEventBatch)
    (h : integrateReady engine plan replica = .ok ⟨⟩ next) :
    ∃ state, finalState (settleDelivery engine stored plan replica) =
        { next.commit stored plan.ready plan with state } ∧
      ReplicaState.SameHistory next.state state := by
  rw [settleDelivery, bind_of_ok h, bind_of_ok (modify_run _)]
  have hstate : (next.commit stored plan.ready plan).state = next.state :=
    sameRecords_commit.state
  rw [← hstate]
  have hnotify : ∃ state, finalState (notifyRemote engine
        ((plan.ready.map (·.batchId)).insertionSort (· ≤ ·))
        (next.commit stored plan.ready plan)) =
      { next.commit stored plan.ready plan with state } ∧
        ReplicaState.SameHistory (next.commit stored plan.ready plan).state state := by
    rw [notifyRemote]
    split
    · exact ⟨_, rfl, chains_sameHistory.refl _⟩
    · exact notify_same _
  obtain ⟨state, hfinal, hsame⟩ := hnotify
  refine ⟨state, ?_, hsame⟩
  cases hresult : notifyRemote engine ((plan.ready.map (·.batchId)).insertionSort (· ≤ ·))
      (next.commit stored plan.ready plan) with
  | ok _ last =>
    rw [hresult] at hfinal
    rw [bind_of_ok hresult, bind_of_ok get_run]
    exact hfinal
  | error error last =>
    rw [hresult] at hfinal
    rw [bind_of_error hresult]
    exact hfinal

theorem applyRemoteEvents_eq (hparse : parseBatches config input = .ok incoming)
    (hstage : stage replica .empty .empty incoming = .ok staged)
    (hplan : planIntegration fuel replica staged.values [] = .ok plan) :
    applyRemoteEvents engine config fuel input replica =
      settleDelivery engine staged.values plan replica := by
  rw [applyRemoteEvents, bind_of_ok get_run, hparse, bind_of_ok ofExcept_ok_run, hstage,
    bind_of_ok ofExcept_ok_run, hplan, bind_of_ok ofExcept_ok_run]

theorem applyRemoteEvents_delivered (engine : TextEngine T) (config : ReplicaConfig) (fuel : Nat)
    (input : List RichTextEventBatch) (replica : BlockReplica T) :
    Delivered engine config fuel input replica
      (finalState (applyRemoteEvents engine config fuel input replica)) := by
  cases hparse : parseBatches config input with
  | error error =>
    rw [applyRemoteEvents, bind_of_ok get_run, hparse, bind_of_error ofExcept_error_run]
    exact .rejected
  | ok incoming =>
    cases hstage : stage replica .empty .empty incoming with
    | error error =>
      rw [applyRemoteEvents, bind_of_ok get_run, hparse, bind_of_ok ofExcept_ok_run, hstage,
        bind_of_error ofExcept_error_run]
      exact .rejected
    | ok staged =>
      cases hplan : planIntegration fuel replica staged.values [] with
      | error error =>
        rw [applyRemoteEvents, bind_of_ok get_run, hparse, bind_of_ok ofExcept_ok_run,
          hstage, bind_of_ok ofExcept_ok_run, hplan, bind_of_error ofExcept_error_run]
        exact .rejected
      | ok plan =>
        rw [applyRemoteEvents_eq hparse hstage hplan]
        cases hready : integrateReady engine plan replica with
        | error error next =>
          rw [settleDelivery, bind_of_error hready]
          exact .failed hparse hstage hplan hready
        | ok _ next =>
          obtain ⟨state, hfinal, hsame⟩ := settleDelivery_ok staged.values hready
          rw [hfinal]
          exact .committed hparse hstage hplan hready hsame

variable {final : BlockReplica T}

theorem applyRemoteEvents_ok {result : ApplyRichTextEventsResult}
    (h : applyRemoteEvents engine config fuel input replica = .ok result final) :
    ∃ incoming staged plan, parseBatches config input = .ok incoming ∧
      stage replica .empty .empty incoming = .ok staged ∧
      planIntegration fuel replica staged.values [] = .ok plan ∧
      final.integrated = replica.integrated ++ plan.ready ∧
      final.batchesById = replica.batchesById.setAll
        (staged.values.map fun batch => (batch.batchId, batch)) ∧
      result.integratedBatchIds = (plan.ready.map (·.batchId)).insertionSort (· ≤ ·) := by
  obtain ⟨found, unchanged, hget, hparse⟩ := bind_eq_ok.mp h
  cases hget
  obtain ⟨incoming, parsed, hparsing, hstage⟩ := bind_eq_ok.mp hparse
  obtain ⟨hparsed, rfl⟩ := ofExcept_eq_ok.mp hparsing
  obtain ⟨staged, checked, hstaging, hplan⟩ := bind_eq_ok.mp hstage
  obtain ⟨hstaged, rfl⟩ := ofExcept_eq_ok.mp hstaging
  obtain ⟨plan, decided, hplanning, hsettle⟩ := bind_eq_ok.mp hplan
  obtain ⟨hplanned, rfl⟩ := ofExcept_eq_ok.mp hplanning
  obtain ⟨⟨⟩, next, hready, hrest⟩ := bind_eq_ok.mp hsettle
  obtain ⟨state, hfinal, -⟩ := settleDelivery_ok staged.values hready
  obtain ⟨kept, rfl, -⟩ := integrateReady_ok hready
  rw [hsettle, finalState_ok] at hfinal
  refine ⟨incoming, staged, plan, hparsed, hstaged, hplanned, ?_, ?_, ?_⟩
  · rw [hfinal]
    exact sameRecords_commit.integrated
  · rw [hfinal]
    exact sameRecords_commit.batchesById
  · obtain ⟨⟨⟩, committed, hcommit, hnotify⟩ := bind_eq_ok.mp hrest
    obtain ⟨⟨⟩, notified, hnotified, hread⟩ := bind_eq_ok.mp hnotify
    obtain ⟨read, last, hlast, hreturn⟩ := bind_eq_ok.mp hread
    cases hreturn
    rfl

theorem Delivered.state_or_commit (h : Delivered engine config fuel input replica final) :
    (∃ state, final = { replica with state }) ∨
      ∃ (stored : List RichTextEventBatch) (plan : IntegrationPlan) (state last : ReplicaState T),
        final = { commit { replica with state } stored plan.ready plan with state := last } := by
  cases h with
  | rejected => exact .inl ⟨replica.state, rfl⟩
  | @failed _ _ plan _ _ parsed stages plans fails =>
    obtain ⟨state, hstate⟩ := @integrateReady_state T engine plan replica
    rw [fails, finalState_error] at hstate
    exact .inl ⟨state, hstate⟩
  | committed parsed stages plans integrates same =>
    obtain ⟨state, rfl, -⟩ := integrateReady_ok integrates
    exact .inr ⟨_, _, state, _, rfl⟩

theorem Delivered.integrated (h : Delivered engine config fuel input replica final) :
    ∃ added, final.integrated = replica.integrated ++ added := by
  obtain ⟨state, rfl⟩ | ⟨stored, plan, state, last, rfl⟩ := h.state_or_commit
  · exact ⟨[], (append_nil _).symm⟩
  · exact ⟨plan.ready, sameRecords_commit.integrated⟩

theorem Consistent.delivered (h : Consistent replica)
    (hdelivered : Delivered engine config fuel input replica final) : Consistent final := by
  cases hdelivered with
  | rejected => exact h
  | failed parsed stages plans fails =>
    obtain ⟨state, rfl, hhas⟩ := integrateReady_error h.hasIntegrated fails
    exact h.withState hhas
  | committed parsed stages plans integrates same =>
    obtain ⟨owners, hstaged⟩ := stage_ok stages
    obtain ⟨state, rfl, hgrows, hready⟩ := integrateReady_ok integrates
    have hcommitted := (h.withState (h.hasIntegrated.grows hgrows)).commit
      (h.commitInput parsed hstaged plans hready)
    apply hcommitted.withState
    apply hcommitted.hasIntegrated.grows
    rw [sameRecords_commit.state]
    exact same.grows

end Deliveries

section Transactions

open TransactionContext

variable {engine : TextEngine T} {config : ReplicaConfig} {fuel : Nat}
  {context : TransactionContext T} {outcome : Except ReplicaError Unit}
  {batch : RichTextEventBatch} {plan : IntegrationPlan}

theorem assertUsable_ok {next : TransactionContext T} (h : assertUsable context = .ok ⟨⟩ next) :
    context.failure = none ∧ next = context := by
  rw [assertUsable] at h
  cases hfailure : context.failure with
  | some error =>
    rw [hfailure] at h
    cases h
  | none =>
    rw [hfailure] at h
    cases h
    exact ⟨rfl, rfl⟩

theorem finished_eq_ok {made : Option RichTextEventBatch}
    (h : finished config context outcome = .ok made) :
    context.failure = none ∧ (context.events = [] ∧ made = none ∨
      ∃ first rest batch, context.events = first :: rest ∧ made = some batch ∧
        parseBatch config.isSafeLinkUrl ⟨first.id, context.initialParentVersion, first :: rest⟩ =
          .ok batch) := by
  cases outcome with
  | error error => cases h
  | ok _ =>
    cases hfinish : finish config.isSafeLinkUrl context with
    | error error last =>
      rw [finished, hfinish] at h
      cases h
    | ok result last =>
      rw [finished, hfinish] at h
      cases h
      obtain ⟨⟨⟩, usable, husable, hread⟩ := bind_eq_ok.mp hfinish
      obtain ⟨hfailure, hsame⟩ := assertUsable_ok husable
      rw [hsame] at hread
      obtain ⟨read, unchanged, hget, hbatch⟩ := bind_eq_ok.mp hread
      cases hget
      refine ⟨hfailure, ?_⟩
      cases hevents : context.events with
      | nil =>
        simp only [hevents] at hbatch
        cases hbatch
        exact .inl ⟨rfl, rfl⟩
      | cons first rest =>
        simp only [hevents] at hbatch
        obtain ⟨parsed, after, hparse, hreturn⟩ := bind_eq_ok.mp hbatch
        cases hreturn
        cases hresult : parseBatch config.isSafeLinkUrl
            ⟨first.id, context.initialParentVersion, first :: rest⟩ with
        | error error =>
          rw [hresult] at hparse
          cases hparse
        | ok out =>
          rw [hresult] at hparse
          cases hparse
          exact .inr ⟨first, rest, _, rfl, rfl, hresult⟩

theorem finished_ok (h : finished config context outcome = .ok (some batch)) :
    context.failure = none ∧ batch.eventIds = context.events.map (·.id) ∧
      context.events.head?.map (·.id) = some batch.batchId ∧
      parseBatch config.isSafeLinkUrl batch = .ok batch := by
  obtain ⟨hfailure, ⟨-, hnone⟩ | ⟨first, rest, made, hevents, hmade, hparse⟩⟩ := finished_eq_ok h
  · cases hnone
  · cases hmade
    obtain ⟨hid, hids, hagain⟩ := parseBatch_eq_ok hparse
    rw [hevents]
    exact ⟨hfailure, hids, congrArg some hid.symm, hagain⟩

inductive Transacted (engine : TextEngine T) (config : ReplicaConfig) (fuel : Nat)
    (context : TransactionContext T) (outcome : Except ReplicaError Unit)
    (replica : BlockReplica T) : BlockReplica T → Prop where
  | dropped : Transacted engine config fuel context outcome replica
      { replica with state := context.state }
  | recovered {error thrown : ReplicaError} {next : BlockReplica T}
      (recovers : recover engine error { replica with state := context.state } =
        .error thrown next) : Transacted engine config fuel context outcome replica next
  | failed {batch : RichTextEventBatch} {plan : IntegrationPlan} {error : ReplicaError}
      {next : BlockReplica T}
      (finishes : finished config context outcome = .ok (some batch))
      (plans : planIntegration fuel { replica with state := context.state } [] batch.eventIds =
        .ok plan)
      (fails : integrateReady engine plan { replica with state := context.state } =
        .error error next) : Transacted engine config fuel context outcome replica next
  | committed {batch : RichTextEventBatch} {plan : IntegrationPlan} {next : BlockReplica T}
      {state : ReplicaState T}
      (finishes : finished config context outcome = .ok (some batch))
      (plans : planIntegration fuel { replica with state := context.state } [] batch.eventIds =
        .ok plan)
      (integrates : integrateReady engine plan { replica with state := context.state } =
        .ok ⟨⟩ next)
      (same : ReplicaState.SameHistory next.state state) :
      Transacted engine config fuel context outcome replica
        { next.commit [batch] (batch :: plan.ready) plan with state }

theorem settleTransaction_ok {next : BlockReplica T}
    (h : integrateReady engine plan replica = .ok ⟨⟩ next) :
    ∃ state, finalState (settleTransaction engine config batch plan replica) =
        { next.commit [batch] (batch :: plan.ready) plan with state } ∧
      ReplicaState.SameHistory next.state state := by
  rw [settleTransaction, bind_of_ok h, bind_of_ok (modify_run _)]
  obtain ⟨state, hfinal, hsame⟩ :=
    @notify_same T engine (next.commit [batch] (batch :: plan.ready) plan)
  rw [sameRecords_commit.state] at hsame
  refine ⟨state, ?_, hsame⟩
  cases hresult : notify engine (next.commit [batch] (batch :: plan.ready) plan) with
  | error error last =>
    rw [hresult] at hfinal
    rw [bind_of_error hresult]
    exact hfinal
  | ok _ last =>
    rw [hresult] at hfinal
    rw [bind_of_ok hresult]
    cases hparse : (parseBatch config.isSafeLinkUrl batch).mapError ReplicaError.wire with
    | error error =>
      rw [bind_of_error ofExcept_error_run]
      exact hfinal
    | ok clone =>
      rw [bind_of_ok ofExcept_ok_run]
      exact hfinal

theorem transact_eq (hfinish : finished config context outcome = .ok (some batch))
    (hplan : planIntegration fuel { replica with state := context.state } [] batch.eventIds =
      .ok plan) :
    transact engine config fuel context outcome replica =
      settleTransaction engine config batch plan { replica with state := context.state } := by
  rw [transact, bind_of_ok (modify_run _), hfinish]
  simp only
  rw [bind_of_ok get_run, hplan, bind_of_ok ofExcept_ok_run]

theorem transact_transacted (engine : TextEngine T) (config : ReplicaConfig) (fuel : Nat)
    (context : TransactionContext T) (outcome : Except ReplicaError Unit)
    (replica : BlockReplica T) :
    Transacted engine config fuel context outcome replica
      (finalState (transact engine config fuel context outcome replica)) := by
  cases hfinish : finished config context outcome with
  | error error =>
    rw [transact, bind_of_ok (modify_run _), hfinish]
    simp only
    split
    · obtain ⟨thrown, state, hrecover, -⟩ :=
        @recover_eq T engine error { replica with state := context.state }
      rw [seqRight_eq_bind, bind_of_error hrecover]
      exact .recovered hrecover
    · exact .dropped
  | ok result =>
    cases result with
    | none =>
      rw [transact, bind_of_ok (modify_run _), hfinish]
      exact .dropped
    | some batch =>
      cases hplan : planIntegration fuel { replica with state := context.state } []
          batch.eventIds with
      | error error =>
        rw [transact, bind_of_ok (modify_run _), hfinish]
        simp only
        rw [bind_of_ok get_run, hplan, bind_of_error ofExcept_error_run]
        exact .dropped
      | ok plan =>
        rw [transact_eq hfinish hplan]
        cases hready : integrateReady engine plan { replica with state := context.state } with
        | error error next =>
          rw [settleTransaction, bind_of_error hready]
          exact .failed hfinish hplan hready
        | ok _ next =>
          obtain ⟨state, hfinal, hsame⟩ := @settleTransaction_ok T _ engine config batch
            plan next hready
          rw [hfinal]
          exact .committed hfinish hplan hready hsame

section

variable {final : BlockReplica T} (h : Transacted engine config fuel context outcome replica final)
include h

theorem Transacted.state_or_commit : (∃ state, final = { replica with state }) ∨
      ∃ (batch : RichTextEventBatch) (plan : IntegrationPlan) (state last : ReplicaState T),
        finished config context outcome = .ok (some batch) ∧
        planIntegration fuel { replica with state := context.state } [] batch.eventIds = .ok plan ∧
        final = { commit { replica with state } [batch] (batch :: plan.ready) plan with state := last } := by
  cases h with
  | dropped => exact .inl ⟨context.state, rfl⟩
  | @recovered error _ _ recovers =>
    obtain ⟨thrown, state, hrecover, -⟩ :=
      @recover_eq T engine error { replica with state := context.state }
    rw [hrecover] at recovers
    cases recovers
    exact .inl ⟨state, rfl⟩
  | @failed _ plan _ _ finishes plans fails =>
    obtain ⟨state, hstate⟩ :=
      @integrateReady_state T engine plan { replica with state := context.state }
    rw [fails, finalState_error] at hstate
    exact .inl ⟨state, hstate⟩
  | committed finishes plans integrates same =>
    obtain ⟨state, rfl, -⟩ := integrateReady_ok integrates
    exact .inr ⟨_, _, state, _, finishes, plans, rfl⟩

theorem Transacted.integrated : ∃ added, final.integrated = replica.integrated ++ added := by
  obtain ⟨state, rfl⟩ | ⟨batch, plan, state, last, -, -, rfl⟩ := h.state_or_commit
  · exact ⟨[], (append_nil _).symm⟩
  · exact ⟨batch :: plan.ready, sameRecords_commit.integrated⟩

def WakesNothing (config : ReplicaConfig) (replica : BlockReplica T)
    (context : TransactionContext T) (outcome : Except ReplicaError Unit) : Prop :=
  ∀ batch, finished config context outcome = .ok (some batch) →
    ∀ {key entry}, replica.pending.get? key = some entry → entry.missing ∉ batch.eventIds

theorem Transacted.integrated_own
    (hindex : ParkedIndex replica) (hidle : WakesNothing config replica context outcome) :
    ∃ own, own.length ≤ 1 ∧ final.integrated = replica.integrated ++ own := by
  obtain ⟨state, rfl⟩ | ⟨batch, plan, state, last, hfinish, hplan, rfl⟩ := h.state_or_commit
  · exact ⟨[], Nat.zero_le _, (append_nil _).symm⟩
  · have hcontext : ParkedIndex { replica with state := context.state } :=
      ⟨hindex.keyed, hindex.missing, hindex.waits, hindex.once⟩
    have hnobody : plan.ready = [] := planIntegration_idle hcontext (hidle batch hfinish) hplan
    refine ⟨[batch], Nat.le_refl _, sameRecords_commit.integrated.trans ?_⟩
    rw [hnobody]

end

theorem Consistent.transactionInput (h : Consistent { replica with state := context.state })
    (hfinish : finished config context outcome = .ok (some batch))
    (hplan : planIntegration fuel { replica with state := context.state } [] batch.eventIds =
      .ok plan) {state : ReplicaState T}
    (hgraph : ∀ id ∈ context.events.map (·.id), id ∈ state.eventGraph)
    (hready : ∀ batch ∈ plan.ready, ∀ id ∈ batch.eventIds, id ∈ state.eventGraph) :
    CommitInput { replica with state } [] [batch] (batch :: plan.ready) plan := by
  obtain ⟨-, hids, hid, -⟩ := finished_ok hfinish
  obtain ⟨hdrawn, hparked⟩ := planIntegration_draws h.index hplan
  refine ⟨fun other hother => ⟨hdrawn other hother, mem_cons_of_mem _ hother⟩, hparked,
    fun other hother => absurd hother not_mem_nil,
    fun other hother => absurd hother not_mem_nil, ?_, ?_, ?_, h.produced, ?_⟩
  · intro other hother
    exact Or.inl (mem_singleton.mp hother ▸ mem_cons_self)
  · intro other hother
    cases mem_cons.mp hother with
    | inl heq => exact Or.inl (heq ▸ mem_cons_self)
    | inr hmem => exact Or.inr (hdrawn other hmem)
  · intro other hother
    cases mem_cons.mp hother with
    | inl heq =>
      rw [heq, hids]
      exact hgraph
    | inr hmem => exact hready other hmem
  · intro other hother
    rw [mem_singleton.mp hother, hids]
    obtain ⟨event, hevent, heq⟩ := Option.map_eq_some_iff.mp hid
    exact mem_map.mpr ⟨event, mem_of_mem_head? hevent, heq⟩

theorem Consistent.transacted (h : Consistent replica) {final : BlockReplica T}
    (hrun : Run config.replicaId replica.state replica.state.frontier context)
    (htransacted : Transacted engine config fuel context outcome replica final) :
    Consistent final := by
  have hcontext := h.withState (h.hasIntegrated.grows hrun.grows)
  cases htransacted with
  | dropped => exact hcontext
  | recovered recovers =>
    obtain ⟨state, rfl, hhas⟩ := recover_has hcontext.hasIntegrated recovers
    exact hcontext.withState hhas
  | failed finishes plans fails =>
    obtain ⟨state, rfl, hhas⟩ := integrateReady_error hcontext.hasIntegrated fails
    exact hcontext.withState hhas
  | @committed batch plan next last finishes plans integrates same =>
    obtain ⟨state, rfl, hgrows, hready⟩ := integrateReady_ok integrates
    have hgraph : ∀ id ∈ context.events.map (·.id), id ∈ state.eventGraph := by
      intro id hmem
      obtain ⟨event, hevent, rfl⟩ := mem_map.mp hmem
      exact hgrows.eventGraph _ (hrun.recorded event hevent)
    have hinput := hcontext.transactionInput finishes plans hgraph hready
    have hcommitted := (hcontext.withState (hcontext.hasIntegrated.grows hgrows)).commit hinput
    apply hcommitted.withState
    apply hcommitted.hasIntegrated.grows
    rw [sameRecords_commit.state]
    exact same.grows

end Transactions

section Reachability

variable (engine : TextEngine T) (config : ReplicaConfig)

/-- What a sequence of calls makes of a new replica. -/
inductive Reachable : BlockReplica T → Prop where
  | created {replica : BlockReplica T} (creates : create engine = .ok replica) : Reachable replica
  | read {replica : BlockReplica T} (text : T) (earlier : Reachable replica) :
      Reachable { replica with state := { replica.state with text } }
  | subscribed {replica : BlockReplica T} (listening : Bool) (earlier : Reachable replica) :
      Reachable { replica with listening }
  | transacted {replica : BlockReplica T} {context : TransactionContext T} (fuel : Nat)
      (outcome : Except ReplicaError Unit)
      (runs : TransactionContext.CallbackRun engine config.replicaId (.start replica.state) context)
      (earlier : Reachable replica) :
      Reachable (finalState (transact engine config fuel context outcome replica))
  | delivered {replica : BlockReplica T} (fuel : Nat) (input : List RichTextEventBatch)
      (earlier : Reachable replica) :
      Reachable (finalState (applyRemoteEvents engine config fuel input replica))

variable {engine config}

theorem create_consistent (h : create engine = .ok replica) : Consistent replica := by
  obtain ⟨state, hstate, hreturn⟩ := except_bind_eq_ok.mp h
  have hbootstrap := create_mem hstate
  cases hreturn
  refine ⟨⟨?_, ?_, ?_, ?_⟩, ?_, ?_, hbootstrap, ?_, nodup_nil, ?_⟩
  · intro key entry hget
    cases hget
  · intro key entry hget
    cases hget
  · intro eventId key
    constructor
    · intro hmem
      cases hmem
    · rintro ⟨entry, hget, -⟩
      cases hget
  · exact fun _ => nodup_nil
  · intro batchId
    rw [has_set, Bool.or_eq_true, decide_eq_true_iff]
    constructor
    · rintro (heq | hhas)
      · exact Or.inl heq
      · cases hhas
    · rintro (heq | hmem | hhas)
      · exact Or.inl heq
      · cases hmem
      · cases hhas
  · intro eventId
    rw [has_set, Bool.or_eq_true, decide_eq_true_iff]
    constructor
    · rintro (heq | hhas)
      · exact Or.inl heq
      · cases hhas
    · rintro (heq | ⟨batch, hmem, -⟩ | ⟨batch, hmem, -⟩)
      · exact Or.inl heq
      · cases hmem
      · cases hmem
  · intro batch hmem
    cases hmem
  · rintro batch (hmem | hmem)
    · cases hmem
    · cases hmem

theorem Reachable.consistent (h : Reachable engine config replica) : Consistent replica := by
  induction h with
  | created creates => exact create_consistent creates
  | read text earlier ih => exact ih.withState ⟨ih.bootstrap, ih.graph⟩
  | subscribed listening earlier ih =>
    exact ⟨⟨ih.index.keyed, ih.index.missing, ih.index.waits, ih.index.once⟩, ih.stored, ih.owned,
      ih.bootstrap, ih.graph, ih.produced, ih.named⟩
  | transacted fuel outcome runs earlier ih =>
    exact ih.transacted (runs.run (.start _ _)) (transact_transacted _ _ _ _ _ _)
  | delivered fuel input earlier ih => exact ih.delivered (applyRemoteEvents_delivered _ _ _ _ _)

end Reachability

end Softmaple.BlockModel.BlockReplica
