import Softmaple.BlockModel.StateGrowth
import Softmaple.BlockModel.WakeLoop

/-!
What holds of a block replica between any two calls: every stored batch is
integrated or parked, every event of it has an owner, the index of waiting
batches agrees with the parked ones, and integrated events are in the graph.
-/
namespace Softmaple.BlockModel.BlockReplica

open StateMethod InsertionMap List

variable {T : Type}

structure Consistent (replica : BlockReplica T) : Prop where
  index : ParkedIndex replica
  stored : ∀ batchId, replica.batchesById.has batchId = true ↔
    batchId = BOOTSTRAP_BATCH_ID ∨ batchId ∈ replica.integrated.map (·.batchId) ∨
      replica.pending.has batchId = true
  owned : ∀ eventId, replica.eventOwner.has eventId = true ↔
    eventId = BOOTSTRAP_EVENT_ID ∨ (∃ batch ∈ replica.integrated, eventId ∈ batch.eventIds) ∨
      ∃ batch ∈ replica.pendingBatches, eventId ∈ batch.eventIds
  bootstrap : BOOTSTRAP_EVENT_ID ∈ replica.state.eventGraph
  graph : ∀ batch ∈ replica.integrated, ∀ id ∈ batch.eventIds, id ∈ replica.state.eventGraph
  produced : (replica.pendingBatches.flatMap (·.eventIds)).Nodup
  named : ∀ batch, batch ∈ replica.integrated ∨ batch ∈ replica.pendingBatches →
    batch.batchId ∈ batch.eventIds

section Parking

/-- Only what is pending, and who waits for it, may differ. -/
structure SameRecords (first last : BlockReplica T) : Prop where
  state : last.state = first.state
  batchesById : last.batchesById = first.batchesById
  eventOwner : last.eventOwner = first.eventOwner
  integrated : last.integrated = first.integrated
  listening : last.listening = first.listening

section

variable (replica : BlockReplica T)
include replica

theorem SameRecords.refl : SameRecords replica replica :=
  ⟨rfl, rfl, rfl, rfl, rfl⟩

omit replica in
theorem SameRecords.trans {first second third : BlockReplica T} (h : SameRecords first second)
    (k : SameRecords second third) : SameRecords first third :=
  ⟨k.state.trans h.state, k.batchesById.trans h.batchesById, k.eventOwner.trans h.eventOwner,
    k.integrated.trans h.integrated, k.listening.trans h.listening⟩

theorem sameRecords_unpark (batchId : Text) : SameRecords replica (replica.unpark batchId) := by
  rw [unpark]
  cases replica.pending.get? batchId with
  | none => exact SameRecords.refl replica
  | some entry => exact ⟨rfl, rfl, rfl, rfl, rfl⟩

theorem sameRecords_park (batchId : Text) (entry : PendingBatch) :
    SameRecords replica (replica.park batchId entry) :=
  (sameRecords_unpark replica batchId).trans ⟨rfl, rfl, rfl, rfl, rfl⟩

theorem get?_pending_unpark (batchId key : Text) : (replica.unpark batchId).pending.get? key =
      if key = batchId then none else replica.pending.get? key := by
  rw [unpark]
  cases hget : replica.pending.get? batchId with
  | none =>
    by_cases hkey : key = batchId
    · rw [if_pos hkey, hkey]
      exact hget
    · rw [if_neg hkey]
  | some entry => exact get?_erase

theorem get?_pending_park (batchId key : Text) (entry : PendingBatch) :
    (replica.park batchId entry).pending.get? key =
      if key = batchId then some entry else replica.pending.get? key := by
  rw [park]
  simp only [get?_set, get?_pending_unpark]
  by_cases hkey : key = batchId
  · rw [if_pos hkey, if_pos hkey]
  · rw [if_neg hkey, if_neg hkey, if_neg hkey]

end

variable {replica : BlockReplica T}

theorem waiting_unpark {batchId : Text} {removed : PendingBatch}
    (h : replica.pending.get? batchId = some removed) :
    (replica.unpark batchId).waiting =
      match replica.waiting.get? removed.missing with
      | none => replica.waiting
      | some batchIds =>
        if (batchIds.filter fun id => !decide (id = batchId)) = [] then
          replica.waiting.erase removed.missing
        else
          replica.waiting.set removed.missing
            (batchIds.filter fun id => !decide (id = batchId)) := by
  cases hwaiting : replica.waiting.get? removed.missing with
  | none => simp only [unpark, h, hwaiting]
  | some batchIds => simp only [unpark, h, hwaiting]

theorem parkedIndex_unpark (h : ParkedIndex replica) (batchId : Text) :
    ParkedIndex (replica.unpark batchId) := by
  have hpending : ∀ {key entry}, (replica.unpark batchId).pending.get? key = some entry →
      key ≠ batchId ∧ replica.pending.get? key = some entry := by
    intro key entry hget
    rw [get?_pending_unpark] at hget
    by_cases hkey : key = batchId
    · rw [if_pos hkey] at hget
      cases hget
    · rw [if_neg hkey] at hget
      exact ⟨hkey, hget⟩
  cases hget : replica.pending.get? batchId with
  | none =>
    rw [unpark, hget]
    exact h
  | some removed =>
    -- The waiting list of the removed batch loses its ID, every other list stays.
    have hwaiting : ∀ eventId, ((replica.unpark batchId).waiting.get? eventId).getD [] =
        if eventId = removed.missing then
          ((replica.waiting.get? removed.missing).getD []).filter fun id => !decide (id = batchId)
        else (replica.waiting.get? eventId).getD [] := by
      intro eventId
      rw [waiting_unpark hget]
      cases hwait : replica.waiting.get? removed.missing with
      | none =>
        by_cases heq : eventId = removed.missing
        · rw [if_pos heq, heq, hwait]
          rfl
        · rw [if_neg heq]
      | some keys =>
        simp only [Option.getD_some]
        by_cases hempty : (keys.filter fun id => !decide (id = batchId)) = []
        · rw [if_pos hempty, get?_erase]
          by_cases heq : eventId = removed.missing
          · rw [if_pos heq, if_pos heq, hempty]
            rfl
          · rw [if_neg heq, if_neg heq]
        · rw [if_neg hempty, get?_set]
          by_cases heq : eventId = removed.missing
          · rw [if_pos heq, if_pos heq]
            rfl
          · rw [if_neg heq, if_neg heq]
    refine ⟨fun hkey => h.keyed (hpending hkey).2, fun hkey => h.missing (hpending hkey).2,
      ?_, ?_⟩
    · intro eventId key
      rw [hwaiting, get?_pending_unpark]
      by_cases hkey : key = batchId
      · rw [if_pos hkey]
        constructor
        · intro hmem
          exfalso
          by_cases heq : eventId = removed.missing
          · rw [if_pos heq, mem_filter] at hmem
            simp [hkey] at hmem
          · rw [if_neg heq, h.waits] at hmem
            obtain ⟨entry, hentry, hmissing⟩ := hmem
            rw [hkey, hget] at hentry
            cases hentry
            exact heq hmissing.symm
        · rintro ⟨entry, hentry, -⟩
          cases hentry
      · rw [if_neg hkey, ← h.waits]
        by_cases heq : eventId = removed.missing
        · rw [if_pos heq, mem_filter, heq]
          simp [hkey]
        · rw [if_neg heq]
    · intro eventId
      rw [hwaiting]
      by_cases heq : eventId = removed.missing
      · rw [if_pos heq]
        exact (h.once removed.missing).filter _
      · rw [if_neg heq]
        exact h.once eventId

theorem parkedIndex_park (h : ParkedIndex replica) {batchId : Text}
    {entry : PendingBatch} (hid : entry.batch.batchId = batchId)
    (hmissing : entry.missing ∈ entry.batch.parentVersion) :
    ParkedIndex (replica.park batchId entry) := by
  have hunparked := parkedIndex_unpark h batchId
  have hnone : (replica.unpark batchId).pending.get? batchId = none := by
    rw [get?_pending_unpark, if_pos rfl]
  have hfresh : ∀ eventId,
      batchId ∉ ((replica.unpark batchId).waiting.get? eventId).getD [] := by
    intro eventId hmem
    obtain ⟨other, hother, -⟩ := hunparked.waits.mp hmem
    rw [hnone] at hother
    cases hother
  have hwaiting : ∀ eventId, ((replica.park batchId entry).waiting.get? eventId).getD [] =
      if eventId = entry.missing then
        ((replica.unpark batchId).waiting.get? entry.missing).getD [] ++ [batchId]
      else ((replica.unpark batchId).waiting.get? eventId).getD [] := by
    intro eventId
    rw [park]
    simp only [get?_set, if_neg (hfresh entry.missing)]
    by_cases heq : eventId = entry.missing
    · rw [if_pos heq, if_pos heq]
      rfl
    · rw [if_neg heq, if_neg heq]
  have hpending : ∀ key, (replica.park batchId entry).pending.get? key =
      if key = batchId then some entry else (replica.unpark batchId).pending.get? key := by
    intro key
    rw [park]
    exact get?_set
  refine ⟨?_, ?_, ?_, ?_⟩
  · intro key found hget
    rw [hpending] at hget
    by_cases hkey : key = batchId
    · rw [if_pos hkey] at hget
      cases hget
      exact hid.trans hkey.symm
    · rw [if_neg hkey] at hget
      exact hunparked.keyed hget
  · intro key found hget
    rw [hpending] at hget
    by_cases hkey : key = batchId
    · rw [if_pos hkey] at hget
      cases hget
      exact hmissing
    · rw [if_neg hkey] at hget
      exact hunparked.missing hget
  · intro eventId key
    rw [hwaiting, hpending]
    by_cases hkey : key = batchId
    · rw [if_pos hkey, hkey]
      constructor
      · intro hmem
        refine ⟨entry, rfl, ?_⟩
        by_contra hne
        rw [if_neg (Ne.symm hne)] at hmem
        exact hfresh eventId hmem
      · rintro ⟨found, hfound, heq⟩
        cases hfound
        rw [if_pos heq.symm]
        simp
    · rw [if_neg hkey, ← hunparked.waits]
      by_cases heq : eventId = entry.missing
      · rw [if_pos heq, heq]
        simp [hkey]
      · rw [if_neg heq]
  · intro eventId
    rw [hwaiting]
    by_cases heq : eventId = entry.missing
    · rw [if_pos heq]
      apply nodup_append.mpr
      refine ⟨hunparked.once entry.missing, nodup_singleton _, ?_⟩
      intro left hleft right hright hsame
      rw [mem_singleton.mp hright] at hsame
      exact hfresh entry.missing (hsame ▸ hleft)
    · rw [if_neg heq]
      exact hunparked.once eventId

end Parking

section Commit

variable {replica : BlockReplica T} {stored integrated : List RichTextEventBatch}
  {plan : IntegrationPlan}

theorem sameRecords_foldl_unpark (batchIds : List Text) (replica : BlockReplica T) :
    SameRecords replica (batchIds.foldl unpark replica) := by
  induction batchIds generalizing replica with
  | nil => exact SameRecords.refl replica
  | cons batchId batchIds ih => exact (sameRecords_unpark replica batchId).trans (ih _)

theorem sameRecords_foldl_park (entries : List (Text × PendingBatch)) (replica : BlockReplica T) :
    SameRecords replica (entries.foldl (fun current entry => current.park entry.1 entry.2) replica) := by
  induction entries generalizing replica with
  | nil => exact SameRecords.refl replica
  | cons entry entries ih => exact (sameRecords_park replica entry.1 entry.2).trans (ih _)

theorem get?_pending_foldl_unpark (batchIds : List Text) (key : Text) (replica : BlockReplica T) :
    (batchIds.foldl unpark replica).pending.get? key =
      if key ∈ batchIds then none else replica.pending.get? key := by
  induction batchIds generalizing replica with
  | nil => rfl
  | cons batchId batchIds ih =>
    rw [foldl_cons, ih, get?_pending_unpark]
    by_cases hkey : key = batchId
    · rw [if_pos hkey, if_pos (mem_cons.mpr (Or.inl hkey)), ite_self]
    · rw [if_neg hkey]
      simp only [mem_cons, hkey, false_or]

theorem get?_pending_foldl_park (entries : List (Text × PendingBatch)) (key : Text) :
    ∀ {replica : BlockReplica T} {pending : InsertionMap Text PendingBatch},
      replica.pending.get? key = pending.get? key →
      (entries.foldl (fun current entry => current.park entry.1 entry.2) replica).pending.get? key =
        (pending.setAll entries).get? key := by
  induction entries with
  | nil => exact fun h => h
  | cons entry entries ih =>
    intro replica pending h
    rw [foldl_cons, setAll_cons]
    apply ih
    rw [get?_pending_park, get?_set, h]

variable {replica : BlockReplica T}

theorem parkedIndex_foldl_unpark (batchIds : List Text)
    (h : ParkedIndex replica) : ParkedIndex (batchIds.foldl unpark replica) := by
  induction batchIds generalizing replica with
  | nil => exact h
  | cons batchId batchIds ih => exact ih (parkedIndex_unpark h batchId)

theorem parkedIndex_foldl_park {entries : List (Text × PendingBatch)}
    (h : ParkedIndex replica) (hentries : ∀ entry ∈ entries, entry.2.batch.batchId = entry.1 ∧
      entry.2.missing ∈ entry.2.batch.parentVersion) :
    ParkedIndex (entries.foldl (fun current entry => current.park entry.1 entry.2) replica) := by
  induction entries generalizing replica with
  | nil => exact h
  | cons entry entries ih =>
    obtain ⟨hid, hmissing⟩ := hentries entry mem_cons_self
    exact ih (parkedIndex_park h hid hmissing)
      fun other hother => hentries other (mem_cons_of_mem _ hother)

theorem foldl_store (stored : List RichTextEventBatch) (replica : BlockReplica T) :
    stored.foldl store replica = { replica with
      batchesById := replica.batchesById.setAll (stored.map fun batch => (batch.batchId, batch))
      eventOwner := replica.eventOwner.setAll
        (stored.flatMap fun batch => batch.eventIds.map fun id => (id, batch.batchId)) } := by
  induction stored generalizing replica with
  | nil => rfl
  | cons batch stored ih =>
    rw [foldl_cons, ih, map_cons, flatMap_cons, setAll_append]
    rfl

theorem get?_pending_commit (key : Text) :
    (replica.commit stored integrated plan).pending.get? key = (plan.parked.get? key).or
        (if key ∈ plan.ready.map (·.batchId) then none else replica.pending.get? key) := by
  rw [commit, foldl_store]
  have hunparked := get?_pending_foldl_unpark (plan.ready.map (·.batchId)) key { replica with
      batchesById := replica.batchesById.setAll (stored.map fun batch => (batch.batchId, batch))
      eventOwner := replica.eventOwner.setAll
        (stored.flatMap fun batch => batch.eventIds.map fun id => (id, batch.batchId))
      integrated := replica.integrated ++ integrated }
  rw [get?_pending_foldl_park _ key rfl, get?_setAll_entries, hunparked]

theorem get?_pending_parked {key : Text} {entry : PendingBatch}
    (h : plan.parked.get? key = some entry) :
    (replica.commit stored integrated plan).pending.get? key = some entry := by
  rw [get?_pending_commit, h, Option.some_or]

theorem sameRecords_commit : SameRecords { replica with
      batchesById := replica.batchesById.setAll (stored.map fun batch => (batch.batchId, batch))
      eventOwner := replica.eventOwner.setAll
        (stored.flatMap fun batch => batch.eventIds.map fun id => (id, batch.batchId))
      integrated := replica.integrated ++ integrated } (replica.commit stored integrated plan) := by
  rw [commit, foldl_store]
  exact (sameRecords_foldl_unpark _ _).trans (sameRecords_foldl_park _ _)

theorem parkedIndex_commit (h : ParkedIndex replica)
    (hparked : ∀ {key entry}, plan.parked.get? key = some entry → entry.batch.batchId = key ∧
      entry.missing ∈ entry.batch.parentVersion) :
    ParkedIndex (replica.commit stored integrated plan) := by
  rw [commit, foldl_store]
  apply parkedIndex_foldl_park
  · apply parkedIndex_foldl_unpark
    exact ⟨h.keyed, h.missing, h.waits, h.once⟩
  · intro entry hentry
    exact hparked (mem_entries.mp hentry)

/-- What a commit is given: `fresh` batches and pending ones, of which the plan makes some ready;
every stored batch is integrated or parked. -/
structure CommitInput (replica : BlockReplica T) (fresh stored integrated : List RichTextEventBatch)
    (plan : IntegrationPlan) : Prop where
  ready : ∀ batch ∈ plan.ready, batch ∈ held replica fresh ∧ batch ∈ integrated
  parked : ∀ {key entry}, plan.parked.get? key = some entry →
    entry.batch.batchId = key ∧ entry.batch ∈ held replica fresh ∧
      entry.missing ∈ entry.batch.parentVersion
  unknown : ∀ batch ∈ fresh, replica.pending.has batch.batchId = false
  keeps : ∀ batch ∈ fresh, batch ∈ stored
  settles : ∀ batch ∈ stored, batch ∈ integrated ∨
    ∃ entry, plan.parked.get? batch.batchId = some entry ∧ entry.batch = batch
  source : ∀ batch ∈ integrated, batch ∈ stored ∨ batch ∈ replica.pendingBatches
  graph : ∀ batch ∈ integrated, ∀ id ∈ batch.eventIds, id ∈ replica.state.eventGraph
  produced : ((held replica fresh).flatMap (·.eventIds)).Nodup
  named : ∀ batch ∈ stored, batch.batchId ∈ batch.eventIds

namespace CommitInput

variable {fresh : List RichTextEventBatch}

section

variable (h : CommitInput replica fresh stored integrated plan)
variable (hindex : ParkedIndex replica)
include h hindex

variable {entry : PendingBatch}

theorem eq_pending {batch : RichTextEventBatch} (hheld : batch ∈ held replica fresh)
    (hentry : replica.pending.get? batch.batchId = some entry) :
    entry.batch = batch := by
  cases mem_append.mp hheld with
  | inl hfresh =>
    have hnone := has_eq_false.mp (h.unknown batch hfresh)
    rw [hnone] at hentry
    cases hentry
  | inr hpending =>
    obtain ⟨other, hother, heq⟩ := (mem_pendingBatches hindex).mp hpending
    rw [hother] at hentry
    cases hentry
    exact heq

theorem pending_before {key : Text}
    (hentry : replica.pending.get? key = some entry) : entry.batch ∈ integrated ∨
      ∃ later, (replica.commit stored integrated plan).pending.get? key = some later ∧
        later.batch = entry.batch := by
  rw [get?_pending_commit]
  cases hparked : plan.parked.get? key with
  | some later =>
    obtain ⟨hid, hheld, -⟩ := h.parked hparked
    refine Or.inr ⟨later, rfl, (h.eq_pending hindex hheld ?_).symm⟩
    rw [hid]
    exact hentry
  | none =>
    by_cases hready : key ∈ plan.ready.map (·.batchId)
    · obtain ⟨batch, hbatch, hid⟩ := mem_map.mp hready
      obtain ⟨hheld, hin⟩ := h.ready batch hbatch
      rw [← hid] at hentry
      rw [h.eq_pending hindex hheld hentry]
      exact Or.inl hin
    · rw [if_neg hready]
      exact Or.inr ⟨entry, hentry, rfl⟩

theorem pending_after {key : Text}
    (hentry : (replica.commit stored integrated plan).pending.get? key = some entry) :
    entry.batch.batchId = key ∧ entry.batch ∈ held replica fresh := by
  rw [get?_pending_commit] at hentry
  cases hparked : plan.parked.get? key with
  | some later =>
    rw [hparked] at hentry
    cases hentry
    obtain ⟨hid, hheld, -⟩ := h.parked hparked
    exact ⟨hid, hheld⟩
  | none =>
    rw [hparked, Option.none_or] at hentry
    by_cases hready : key ∈ plan.ready.map (·.batchId)
    · rw [if_pos hready] at hentry
      cases hentry
    · rw [if_neg hready] at hentry
      have hid := hindex.keyed hentry
      refine ⟨hid, mem_append_right _ ((mem_pendingBatches hindex).mpr ⟨entry, ?_, rfl⟩)⟩
      rw [hid]
      exact hentry

theorem index : ParkedIndex (replica.commit stored integrated plan) :=
  parkedIndex_commit hindex fun hget =>
    ⟨(h.parked hget).1, (h.parked hget).2.2⟩

theorem pendingBatches_after {batch : RichTextEventBatch}
    (hbatch : batch ∈ (replica.commit stored integrated plan).pendingBatches) :
    batch ∈ held replica fresh := by
  obtain ⟨entry, hentry, rfl⟩ := (mem_pendingBatches (h.index hindex)).mp hbatch
  exact (h.pending_after hindex hentry).2

end

end CommitInput

theorem ParkedIndex.has_of_mem (h : ParkedIndex replica)
    {batch : RichTextEventBatch} (hbatch : batch ∈ replica.pendingBatches) :
    replica.pending.has batch.batchId = true := by
  obtain ⟨entry, hentry, -⟩ := (mem_pendingBatches h).mp hbatch
  exact has_iff.mpr ⟨entry, hentry⟩

theorem nodup_pendingIds (hindex : ParkedIndex replica) :
    (replica.pendingBatches.map (·.batchId)).Nodup := by
  have hkeys : replica.pendingBatches.map (·.batchId) = replica.pending.keys := by
    rw [pendingBatches, values, map_map, map_map]
    apply map_congr_left
    intro entry hentry
    exact hindex.keyed (mem_entries.mp hentry)
  rw [hkeys]
  exact replica.pending.nodup

theorem Consistent.commit {fresh : List RichTextEventBatch} (h : Consistent replica)
    (hinput : CommitInput replica fresh stored integrated plan) :
    Consistent (replica.commit stored integrated plan) := by
  have hindex := hinput.index h.index
  have hrecords := @sameRecords_commit T stored integrated plan replica
  refine ⟨hindex, ?_, ?_, ?_, ?_, ?_, ?_⟩
  · intro batchId
    have hids : (stored.map fun batch => (batch.batchId, batch)).map Prod.fst =
        stored.map (·.batchId) := map_map
    rw [hrecords.batchesById, hrecords.integrated, has_setAll, h.stored, hids,
      map_append, mem_append]
    constructor
    · rintro (hstored | hbootstrap | hbefore | hpending)
      · obtain ⟨batch, hbatch, rfl⟩ := mem_map.mp hstored
        cases hinput.settles batch hbatch with
        | inl hin => exact Or.inr (Or.inl (Or.inr (mem_map_of_mem hin)))
        | inr hparked =>
          obtain ⟨entry, hentry, -⟩ := hparked
          exact Or.inr (Or.inr (has_iff.mpr ⟨entry, get?_pending_parked hentry⟩))
      · exact Or.inl hbootstrap
      · exact Or.inr (Or.inl (Or.inl hbefore))
      · obtain ⟨entry, hentry⟩ := has_iff.mp hpending
        cases hinput.pending_before h.index hentry with
        | inl hin =>
          rw [← h.index.keyed hentry]
          exact Or.inr (Or.inl (Or.inr (mem_map_of_mem hin)))
        | inr hlater =>
          obtain ⟨later, hlater, -⟩ := hlater
          exact Or.inr (Or.inr (has_iff.mpr ⟨later, hlater⟩))
    · rintro (hbootstrap | (hbefore | hnow) | hpending)
      · exact Or.inr (Or.inl hbootstrap)
      · exact Or.inr (Or.inr (Or.inl hbefore))
      · obtain ⟨batch, hbatch, rfl⟩ := mem_map.mp hnow
        cases hinput.source batch hbatch with
        | inl hstored => exact Or.inl (mem_map_of_mem hstored)
        | inr hheld => exact Or.inr (Or.inr (Or.inr (h.index.has_of_mem hheld)))
      · obtain ⟨entry, hentry⟩ := has_iff.mp hpending
        obtain ⟨rfl, hheld⟩ := hinput.pending_after h.index hentry
        cases mem_append.mp hheld with
        | inl hfresh => exact Or.inl (mem_map_of_mem (hinput.keeps _ hfresh))
        | inr hheld => exact Or.inr (Or.inr (Or.inr (h.index.has_of_mem hheld)))
  · intro eventId
    rw [hrecords.eventOwner, hrecords.integrated, has_setAll, h.owned]
    have hmap : eventId ∈ (stored.flatMap fun batch => batch.eventIds.map fun id =>
        (id, batch.batchId)).map Prod.fst ↔ ∃ batch ∈ stored, eventId ∈ batch.eventIds := by
      simp [map_flatMap, Function.comp_def]
    rw [hmap]
    constructor
    · rintro (⟨batch, hbatch, hmem⟩ | hbootstrap | ⟨batch, hbatch, hmem⟩ | ⟨batch, hbatch, hmem⟩)
      · cases hinput.settles batch hbatch with
        | inl hin => exact Or.inr (Or.inl ⟨batch, mem_append_right _ hin, hmem⟩)
        | inr hparked =>
          obtain ⟨entry, hentry, heq⟩ := hparked
          exact Or.inr (Or.inr ⟨batch, (mem_pendingBatches hindex).mpr
            ⟨entry, get?_pending_parked hentry, heq⟩, hmem⟩)
      · exact Or.inl hbootstrap
      · exact Or.inr (Or.inl ⟨batch, mem_append_left _ hbatch, hmem⟩)
      · obtain ⟨entry, hentry, heq⟩ := (mem_pendingBatches h.index).mp hbatch
        cases hinput.pending_before h.index hentry with
        | inl hin =>
          rw [heq] at hin
          exact Or.inr (Or.inl ⟨batch, mem_append_right _ hin, hmem⟩)
        | inr hlater =>
          obtain ⟨later, hlater, hsame⟩ := hlater
          exact Or.inr (Or.inr ⟨batch, (mem_pendingBatches hindex).mpr
            ⟨later, hlater, hsame.trans heq⟩, hmem⟩)
    · rintro (hbootstrap | ⟨batch, hbatch, hmem⟩ | ⟨batch, hbatch, hmem⟩)
      · exact Or.inr (Or.inl hbootstrap)
      · cases mem_append.mp hbatch with
        | inl hbefore => exact Or.inr (Or.inr (Or.inl ⟨batch, hbefore, hmem⟩))
        | inr hnow =>
          cases hinput.source batch hnow with
          | inl hstored => exact Or.inl ⟨batch, hstored, hmem⟩
          | inr hheld => exact Or.inr (Or.inr (Or.inr ⟨batch, hheld, hmem⟩))
      · cases mem_append.mp (hinput.pendingBatches_after h.index hbatch) with
        | inl hfresh => exact Or.inl ⟨batch, hinput.keeps _ hfresh, hmem⟩
        | inr hheld => exact Or.inr (Or.inr (Or.inr ⟨batch, hheld, hmem⟩))
  · rw [hrecords.state]
    exact h.bootstrap
  · rw [hrecords.state, hrecords.integrated]
    intro batch hbatch
    cases mem_append.mp hbatch with
    | inl hbefore => exact h.graph batch hbefore
    | inr hnow => exact hinput.graph batch hnow
  · have hproduced : ([] ++ (held replica fresh).flatMap RichTextEventBatch.eventIds).Nodup :=
      hinput.produced
    exact CausalRelease.nodup_produced (nodup_pendingIds hindex).of_map
      (fun batch hbatch => hinput.pendingBatches_after h.index hbatch) hproduced
  · rw [hrecords.integrated]
    rintro batch (hbatch | hbatch)
    · cases mem_append.mp hbatch with
      | inl hbefore => exact h.named batch (Or.inl hbefore)
      | inr hnow =>
        cases hinput.source batch hnow with
        | inl hstored => exact hinput.named batch hstored
        | inr hheld => exact h.named batch (Or.inr hheld)
    · cases mem_append.mp (hinput.pendingBatches_after h.index hbatch) with
      | inl hfresh => exact hinput.named batch (hinput.keeps batch hfresh)
      | inr hheld => exact h.named batch (Or.inr hheld)

end Commit

end Softmaple.BlockModel.BlockReplica
