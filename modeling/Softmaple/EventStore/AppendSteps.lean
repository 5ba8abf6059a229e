import Softmaple.EventStore.EventLog

/-!
The steps of an append on a log that keeps its invariant, and the walk over
the request: an accepted request leaves the invariant and stores its batches,
and a request of stored batches changes nothing.
-/
namespace Softmaple.EventStore

open BlockModel StateMethod List

section DatabaseTexts

variable {batch : RichTextEventBatch}

theorem allStrings_list (p : Text → Bool) (items : List (Json .value)) :
    Json.allStrings p (list items) = items.all (Json.allStrings p) := by
  rw [list, Json.allStrings]
  induction items with
  | nil => rfl
  | cons item items ih => rw [Json.ofItems, Json.allStrings, ih, all_cons]

theorem allStrings_record (p : Text → Bool) (fields : List (String × Json .value)) :
    Json.allStrings p (record fields) =
      fields.all fun entry => p (Json.literal entry.1) && Json.allStrings p entry.2 := by
  rw [record, Json.allStrings]
  induction fields with
  | nil => rfl
  | cons entry fields ih =>
    rw [map_cons, Json.ofFields, Json.allStrings, ih, all_cons]

theorem allStrings_texts {p : Text → Bool} {texts : List Text}
    (h : Json.allStrings p (list (texts.map Json.string)) = true) : ∀ value ∈ texts, p value = true := by
  rw [allStrings_list, all_eq_true] at h
  intro value hvalue
  exact h _ (mem_map_of_mem hvalue)

section

variable (h : isDatabaseBatch batch = true)
include h

theorem isDatabaseText_batchId : isDatabaseText batch.batchId = true := by
  rw [isDatabaseBatch, batchJson, allStrings_record, all_eq_true] at h
  have hfield := h ("batchId", .string batch.batchId) (by simp)
  exact (Bool.and_eq_true_iff.mp hfield).2

theorem isDatabaseText_parent : ∀ id ∈ batch.parentVersion, isDatabaseText id = true := by
  rw [isDatabaseBatch, batchJson, allStrings_record, all_eq_true] at h
  have hfield := h ("parentVersion", list (batch.parentVersion.map .string)) (by simp)
  exact allStrings_texts (Bool.and_eq_true_iff.mp hfield).2

theorem isDatabaseText_eventParent :
    ∀ event ∈ batch.events, ∀ id ∈ event.parentVersion, isDatabaseText id = true := by
  rw [isDatabaseBatch, batchJson, allStrings_record, all_eq_true] at h
  have hfield := h ("events", list (batch.events.map eventJson)) (by simp)
  have hevents := (Bool.and_eq_true_iff.mp hfield).2
  rw [allStrings_list, all_eq_true] at hevents
  intro event hevent
  have hjson := hevents _ (mem_map_of_mem hevent)
  rw [eventJson, allStrings_record, all_eq_true] at hjson
  have hparents := hjson ("parentVersion", list (event.parentVersion.map .string)) (by simp)
  exact allStrings_texts (Bool.and_eq_true_iff.mp hparents).2

theorem isDatabaseText_required {available : List Text} :
    ∀ id ∈ requiredParentIds available batch, isDatabaseText id = true := by
  intro id hid
  cases mem_requiredParentIds.mp hid with
  | inl hbatch => exact isDatabaseText_parent h id hbatch.1
  | inr hevent =>
    obtain ⟨before, event, after, hevents, hparent, -⟩ := hevent
    exact isDatabaseText_eventParent h event (by rw [hevents]; simp) id hparent

end

end DatabaseTexts

section Queries

variable {sendText : Text → Option Text} {sha256 : Text → Text} {traffic : Set RichTextEventBatch}
  {log : EventLog} {batches : List RichTextEventBatch}

theorem sendTexts_database (hsend : SendsDatabaseText sendText) {texts : List Text}
    (h : ∀ value ∈ texts, isDatabaseText value = true) :
    sendTexts sendText texts = .ok texts := by
  rw [sendTexts, except_mapM_eq_ok, forall₂_same]
  intro value hvalue
  rw [hsend value (h value hvalue)]

variable {required : List Text}

theorem storedParents_database (hsend : SendsDatabaseText sendText)
    (h : ∀ id ∈ required, isDatabaseText id = true) :
    storedParents sendText log required =
      .ok (log.storedEventIds.filter fun eventId => decide (eventId ∈ required)) := by
  rw [storedParents, sendTexts_database hsend h]
  rfl

theorem storedParents_mem {stored : List Text} (h : storedParents sendText log required = .ok stored) :
    ∀ id ∈ stored, id ∈ log.storedEventIds := by
  obtain ⟨sent, -, hstored⟩ := except_bind_eq_ok.mp h
  intro id hid
  rw [← Except.ok.inj hstored] at hid
  exact mem_of_mem_filter hid

theorem required_stored_of_length {stored : List Text} (hnodup : stored.Nodup)
    (hlength : (stored.filter fun id => decide (id ∈ required)).length = required.length) :
    ∀ id ∈ required, id ∈ stored := by
  have hsubset : (stored.filter fun id => decide (id ∈ required)) ⊆ required := by
    intro id hid
    rw [mem_filter, decide_eq_true_eq] at hid
    exact hid.2
  have hperm := (subperm_of_subset (hnodup.filter _) hsubset).perm_of_length_le hlength.ge
  intro id hid
  exact mem_of_mem_filter (hperm.mem_iff.mpr hid)

theorem length_of_required_stored {stored : List Text} (hstored : stored.Nodup)
    (hrequired : required.Nodup) (h : ∀ id ∈ required, id ∈ stored) :
    (stored.filter fun id => decide (id ∈ required)).length = required.length := by
  apply List.Perm.length_eq
  apply (perm_ext_iff_of_nodup (hstored.filter _) hrequired).mpr
  intro id
  rw [mem_filter, decide_eq_true_eq]
  exact ⟨fun hid => hid.2, fun hid => ⟨h id hid, hid⟩⟩

theorem existingBatchHashes_mem (hinv : LogInvariant sha256 traffic log)
    {hashes : List (Text × Text)} (h : existingBatchHashes sendText log batches = .ok hashes)
    {batchId hash : Text} (hlookup : hashes.lookup batchId = some hash) :
    ∃ row ∈ log.batches, row.payload.batchId = batchId ∧ hashBatch sha256 row.payload = hash := by
  obtain ⟨batchIds, -, hhashes⟩ := except_bind_eq_ok.mp h
  rw [← Except.ok.inj hhashes] at hlookup
  obtain ⟨entry, hentry, hkey, hvalue⟩ : ∃ entry ∈ (log.batches.filter fun row =>
      decide (row.batchId ∈ batchIds)).map fun row => (row.batchId, row.payloadHash),
      entry.1 = batchId ∧ entry.2 = hash := by
    obtain ⟨before, after, heq, -⟩ := lookup_eq_some_iff.mp hlookup
    exact ⟨(batchId, hash), by rw [heq]; simp, rfl, rfl⟩
  obtain ⟨row, hrow, rfl⟩ := mem_map.mp hentry
  have hmem := mem_of_mem_filter hrow
  refine ⟨row, hmem, ?_, ?_⟩
  · rw [← hinv.batchId row hmem]
    exact hkey
  · rw [← hinv.payloadHash row hmem]
    exact hvalue

end Queries

section Steps

variable {sendText : Text → Option Text} {sha256 : Text → Text} {traffic : Set RichTextEventBatch}
  {documentId : Text} {call : AppendCall} {log appended : EventLog} {batch : RichTextEventBatch}
  {transaction resolved done : Transaction} {hashes : List (Text × Text)}

def AvailableStored (transaction : Transaction) : Prop :=
  ∀ id ∈ transaction.availableEventIds, id ∈ transaction.log.storedEventIds

theorem resolveParents_eq_ok (h : resolveParents sendText documentId transaction batch = .ok resolved) :
    resolved.log = transaction.log ∧ (AvailableStored transaction → AvailableStored resolved) := by
  dsimp only [resolveParents] at h
  split at h
  · cases h
    exact ⟨rfl, id⟩
  · obtain ⟨stored, hstored, h⟩ := except_bind_eq_ok.mp h
    split at h
    · cases h
      refine ⟨rfl, ?_⟩
      intro havailable id hid
      cases mem_foldl_addId.mp hid with
      | inl hold => exact havailable id hold
      | inr hnew => exact storedParents_mem hstored id hnew
    · cases h

theorem resolveParents_grounded (hsend : SendsDatabaseText sendText)
    (hinv : LogInvariant sha256 traffic transaction.log) (havailable : AvailableStored transaction)
    (hbatch : isDatabaseBatch batch = true)
    (h : resolveParents sendText documentId transaction batch = .ok resolved) :
    Grounded transaction.log.storedEventIds batch := by
  apply grounded_of_required havailable
  dsimp only [resolveParents] at h
  split at h
  · next hnone =>
      intro id hid
      rw [hnone] at hid
      exact absurd hid not_mem_nil
  · rw [storedParents_database hsend (isDatabaseText_required hbatch)] at h
    obtain ⟨stored, hstored, h⟩ := except_bind_eq_ok.mp h
    rw [← Except.ok.inj hstored] at h
    split at h
    · next hlength => exact required_stored_of_length hinv.eventIdsDistinct hlength
    · cases h

theorem resolveParents_of_grounded (hsend : SendsDatabaseText sendText)
    (hnodup : transaction.log.storedEventIds.Nodup) (hbatch : isDatabaseBatch batch = true)
    (hgrounded : Grounded transaction.log.storedEventIds batch) :
    ∃ resolved, resolveParents sendText documentId transaction batch = .ok resolved := by
  dsimp only [resolveParents]
  split
  · exact ⟨_, rfl⟩
  · have hlength := length_of_required_stored hnodup
      (nodup_requiredParentIds transaction.availableEventIds batch)
      (fun id hid => required_of_grounded hgrounded hid)
    rw [storedParents_database hsend (isDatabaseText_required hbatch)]
    change ∃ resolved, (if _ = _ then _ else _) = Except.ok resolved
    rw [if_pos hlength]
    exact ⟨_, rfl⟩

theorem createBatch_eq_ok : createBatch sha256 call log batch = .ok appended ↔
    isDatabaseBatch batch = true ∧ (∀ row ∈ log.batches, row.batchId ≠ batch.batchId) ∧
      (log.storedEventIds ++ batch.eventIds).Nodup ∧
      appended = {
        batches := log.batches ++ [batchRow sha256 call log batch]
        eventIds := log.eventIds ++
          batch.eventIds.map fun eventId => ⟨eventId, nextRowId log call.skipped⟩ } := by
  unfold createBatch insertBatchRow insertEventIdRows
  have hany : (log.batches.any fun stored =>
      decide (stored.batchId = (batchRow sha256 call log batch).batchId)) = false ↔
      ∀ row ∈ log.batches, row.batchId ≠ batch.batchId := by
    rw [any_eq_false]
    exact forall_congr' fun row => forall_congr' fun _ => by rw [decide_eq_true_eq]; rfl
  rw [← hany]
  change (Except.bind _ _ = _) ↔ _
  cases hbatch : isDatabaseBatch (batchRow sha256 call log batch).payload with
  | false =>
    have hnot : isDatabaseBatch batch ≠ true := by
      intro hdatabase
      rw [show (batchRow sha256 call log batch).payload = batch from rfl, hdatabase] at hbatch
      cases hbatch
    simp [Except.bind, hnot]
  | true =>
    rw [show (batchRow sha256 call log batch).payload = batch from rfl] at hbatch
    cases hfresh : log.batches.any fun stored =>
        decide (stored.batchId = (batchRow sha256 call log batch).batchId) with
    | true => simp [Except.bind]
    | false =>
      simp only [Bool.not_true, Bool.false_eq_true, if_false, Except.bind, hbatch, true_and]
      constructor
      · intro h
        split at h
        · next hnodup => exact ⟨hnodup, (Except.ok.inj h).symm⟩
        · cases h
      · rintro ⟨hnodup, rfl⟩
        rw [if_pos]
        · rfl
        · exact hnodup

theorem le_lastRowId (h : Paging.Increasing (·.id) log.batches) :
    ∀ row ∈ log.batches, row.id ≤ log.lastRowId := by
  intro row hrow
  obtain ⟨before, last, heq⟩ : ∃ before last, log.batches = before ++ [last] := by
    cases eq_nil_or_concat log.batches with
    | inl hnil => rw [hnil] at hrow; cases hrow
    | inr hlast =>
      obtain ⟨before, last, hlast⟩ := hlast
      exact ⟨before, last, by rw [hlast, concat_eq_append]⟩
  have hlast : log.lastRowId = last.id := by
    rw [EventLog.lastRowId, heq, getLast?_concat]
    rfl
  rw [heq] at h hrow
  rw [hlast]
  cases mem_append.mp hrow with
  | inl hbefore => exact ((pairwise_append.mp h).2.2 row hbefore last
      (mem_singleton_self last)).le
  | inr hend => rw [mem_singleton.mp hend]

section

variable (h : LogInvariant sha256 traffic log)
include h

theorem LogInvariant.storedEventIds_eq :
    log.storedEventIds = (log.batches.map (·.payload)).flatMap (·.eventIds) := by
  rw [EventLog.storedEventIds, h.eventIdRows, map_flatMap, flatMap_map]
  apply flatMap_congr
  intro row _
  rw [map_map]
  exact map_id _

theorem LogInvariant.grounded (hbatch : Holds log batch) : Grounded log.storedEventIds batch := by
  obtain ⟨row, hrow, rfl⟩ := hbatch
  rw [h.storedEventIds_eq]
  exact h.parentsFirst.mem (mem_map_of_mem hrow)

theorem LogInvariant.eventIds_mem (hbatch : Holds log batch) :
    ∀ id ∈ batch.eventIds, id ∈ log.storedEventIds := by
  obtain ⟨row, hrow, rfl⟩ := hbatch
  intro id hid
  rw [h.storedEventIds_eq, mem_flatMap]
  exact ⟨row.payload, mem_map_of_mem hrow, hid⟩

theorem LogInvariant.create (hcarried : batch ∈ traffic)
    (hgrounded : Grounded log.storedEventIds batch)
    (hcreate : createBatch sha256 call log batch = .ok appended) :
    LogInvariant sha256 traffic appended := by
  obtain ⟨hdatabase, hfresh, hnodup, rfl⟩ := createBatch_eq_ok.mp hcreate
  have hnext : ∀ row ∈ log.batches, row.id < nextRowId log call.skipped := by
    intro row hrow
    have hle := le_lastRowId h.increasing row hrow
    unfold nextRowId
    omega
  have hrow : ∀ {p : BatchRow → Prop}, (∀ row ∈ log.batches, p row) →
      p (batchRow sha256 call log batch) →
      ∀ row ∈ log.batches ++ [batchRow sha256 call log batch], p row := by
    intro p hold hnew row hmem
    cases mem_append.mp hmem with
    | inl hmem => exact hold row hmem
    | inr hmem => exact mem_singleton.mp hmem ▸ hnew
  refine ⟨?_, hrow h.positive ?_, hrow h.carried hcarried, hrow h.database hdatabase,
    hrow h.batchId rfl, hrow h.payloadHash rfl, ?_, ?_, ?_, ?_⟩
  · refine pairwise_append.mpr ⟨h.increasing, pairwise_singleton _ _, ?_⟩
    intro row hmem other hother
    rw [mem_singleton.mp hother]
    exact hnext row hmem
  · change 0 < nextRowId log call.skipped
    unfold nextRowId
    omega
  · change log.eventIds ++ _ = _
    rw [flatMap_append, flatMap_singleton, h.eventIdRows]
    rfl
  · rw [map_append, map_singleton, nodup_append]
    refine ⟨h.batchIdsDistinct, nodup_singleton _, ?_⟩
    intro id hid other hother
    obtain ⟨row, hmem, rfl⟩ := mem_map.mp hid
    rw [mem_singleton.mp hother]
    exact hfresh row hmem
  · have hstored : EventLog.storedEventIds {
        batches := log.batches ++ [batchRow sha256 call log batch]
        eventIds := log.eventIds ++
          batch.eventIds.map fun eventId => ⟨eventId, nextRowId log call.skipped⟩ } =
        log.storedEventIds ++ batch.eventIds := by
      rw [EventLog.storedEventIds, map_append, map_map]
      exact congrArg _ (map_id _)
    rw [hstored]
    exact hnodup
  · rw [map_append, map_singleton]
    apply h.parentsFirst.append
    rw [← h.storedEventIds_eq]
    exact hgrounded

end

def HashesHeld (sha256 : Text → Text) (hashes : List (Text × Text)) (log : EventLog) : Prop :=
  ∀ batchId hash, hashes.lookup batchId = some hash →
    ∃ row ∈ log.batches, row.payload.batchId = batchId ∧ hashBatch sha256 row.payload = hash

theorem HashesHeld.mono (h : HashesHeld sha256 hashes log)
    (hgrows : log.batches <+: appended.batches) : HashesHeld sha256 hashes appended := by
  intro batchId hash hlookup
  obtain ⟨row, hrow, hheld⟩ := h batchId hash hlookup
  exact ⟨row, hgrows.subset hrow, hheld⟩

theorem Holds.mono (h : Holds log batch) (hgrows : log.batches <+: appended.batches) :
    Holds appended batch := by
  obtain ⟨row, hrow, hpayload⟩ := h
  exact ⟨row, hgrows.subset hrow, hpayload⟩

theorem appendBatch_eq_ok
    (h : appendBatch sha256 sendText documentId call hashes transaction batch = .ok done) :
    ∃ resolved, resolveParents sendText documentId transaction batch = .ok resolved ∧
      done.availableEventIds = batch.eventIds.foldl addId resolved.availableEventIds ∧
      (hashes.lookup batch.batchId = some (hashBatch sha256 batch) ∧ done.log = resolved.log ∨
        createBatch sha256 call resolved.log batch = .ok done.log) := by
  obtain ⟨resolved, hresolved, h⟩ := except_bind_eq_ok.mp h
  refine ⟨resolved, hresolved, ?_⟩
  cases hlookup : hashes.lookup batch.batchId with
  | some existingHash =>
    rw [hlookup] at h
    dsimp only at h
    split at h
    · next hsame =>
        cases h
        exact ⟨rfl, Or.inl ⟨by rw [hsame], rfl⟩⟩
    · cases h
  | none =>
    rw [hlookup] at h
    obtain ⟨log, hlog, h⟩ := except_bind_eq_ok.mp h
    cases h
    exact ⟨rfl, Or.inr hlog⟩

theorem appendBatch_keeps (hsend : SendsDatabaseText sendText)
    (hcollision : CollisionFree sha256 traffic) (hcarried : batch ∈ traffic)
    (hinv : LogInvariant sha256 traffic transaction.log) (havailable : AvailableStored transaction)
    (hhashes : HashesHeld sha256 hashes transaction.log)
    (h : appendBatch sha256 sendText documentId call hashes transaction batch = .ok done) :
    LogInvariant sha256 traffic done.log ∧ AvailableStored done ∧
      transaction.log.batches <+: done.log.batches ∧ Holds done.log batch := by
  obtain ⟨resolved, hresolved, hids, hdone⟩ := appendBatch_eq_ok h
  obtain ⟨hsame, hkept⟩ := resolveParents_eq_ok hresolved
  have hfinish : ∀ (_ : LogInvariant sha256 traffic done.log)
      (_ : transaction.log.batches <+: done.log.batches)
      (_ : ∀ id ∈ transaction.log.storedEventIds, id ∈ done.log.storedEventIds)
      (_ : Holds done.log batch), LogInvariant sha256 traffic done.log ∧ AvailableStored done ∧
        transaction.log.batches <+: done.log.batches ∧ Holds done.log batch := by
    intro hdoneInv hgrows hstored hholds
    refine ⟨hdoneInv, ?_, hgrows, hholds⟩
    intro id hid
    rw [hids] at hid
    cases mem_foldl_addId.mp hid with
    | inl hold =>
      have hresolvedStored := hkept havailable id hold
      rw [hsame] at hresolvedStored
      exact hstored id hresolvedStored
    | inr hnew => exact hdoneInv.eventIds_mem hholds id hnew
  cases hdone with
  | inl hexisting =>
    obtain ⟨hlookup, hlog⟩ := hexisting
    rw [hsame] at hlog
    obtain ⟨row, hrow, -, hhash⟩ := hhashes _ _ hlookup
    have hpayload := hashBatch_injOn hcollision (hinv.carried row hrow) hcarried hhash
    rw [hlog] at hfinish ⊢
    exact hfinish hinv (prefix_refl _) (fun id hid => hid) ⟨row, hrow, hpayload⟩
  | inr hcreate =>
    rw [hsame] at hcreate
    obtain ⟨hdatabase, -, -, hlog⟩ := createBatch_eq_ok.mp hcreate
    have hgrounded := resolveParents_grounded hsend hinv havailable hdatabase hresolved
    refine hfinish (hinv.create hcarried hgrounded hcreate) ?_ ?_ ?_
    · rw [hlog]
      exact prefix_append _ _
    · intro id hid
      rw [hlog, EventLog.storedEventIds, map_append]
      exact mem_append_left _ hid
    · rw [hlog]
      exact ⟨_, mem_append_right _ (mem_singleton_self _), rfl⟩

theorem appendBatches_keep {batches : List RichTextEventBatch} (hsend : SendsDatabaseText sendText)
    (hcollision : CollisionFree sha256 traffic) (hcarried : ∀ batch ∈ batches, batch ∈ traffic)
    (hinv : LogInvariant sha256 traffic transaction.log) (havailable : AvailableStored transaction)
    (hhashes : HashesHeld sha256 hashes transaction.log)
    (h : batches.foldlM (appendBatch sha256 sendText documentId call hashes) transaction =
      .ok done) :
    LogInvariant sha256 traffic done.log ∧ transaction.log.batches <+: done.log.batches ∧
      ∀ batch ∈ batches, Holds done.log batch := by
  induction batches generalizing transaction with
  | nil =>
    cases h
    exact ⟨hinv, prefix_refl _, fun _ hmem => absurd hmem not_mem_nil⟩
  | cons batch batches ih =>
    rw [forall_mem_cons] at hcarried
    rw [foldlM_cons] at h
    obtain ⟨next, hnext, hrest⟩ := except_bind_eq_ok.mp h
    obtain ⟨hnextInv, hnextAvailable, hgrows, hholds⟩ :=
      appendBatch_keeps hsend hcollision hcarried.1 hinv havailable hhashes hnext
    obtain ⟨hdoneInv, hmore, hall⟩ :=
      ih hcarried.2 hnextInv hnextAvailable (hhashes.mono hgrows) hrest
    exact ⟨hdoneInv, hgrows.trans hmore, forall_mem_cons.mpr ⟨hholds.mono hmore, hall⟩⟩

theorem appendTransaction_eq_ok :
    appendTransaction sha256 sendText documentId call log = .ok appended ↔
      (incomingEventIds call.batches).Nodup ∧ hasWriteAccess call.role.toList = true ∧
        ∃ hashes done, existingBatchHashes sendText log call.batches = .ok hashes ∧
          call.batches.foldlM (appendBatch sha256 sendText documentId call hashes) ⟨log, []⟩ =
            .ok done ∧ done.log = appended := by
  unfold appendTransaction
  by_cases hnodup : (incomingEventIds call.batches).Nodup
  · rw [if_neg (not_not.mpr hnodup)]
    cases haccess : hasWriteAccess call.role.toList with
    | false =>
      rw [if_pos (by rfl)]
      constructor
      · intro h
        cases h
      · intro h
        cases h.2.1
    | true =>
      rw [if_neg (by decide)]
      constructor
      · intro h
        obtain ⟨hashes, hhashes, h⟩ := except_bind_eq_ok.mp h
        obtain ⟨done, hdone, h⟩ := except_bind_eq_ok.mp h
        exact ⟨hnodup, rfl, hashes, done, hhashes, hdone, Except.ok.inj h⟩
      · rintro ⟨-, -, hashes, done, hhashes, hdone, rfl⟩
        exact except_bind_eq_ok.mpr ⟨hashes, hhashes, except_bind_eq_ok.mpr ⟨done, hdone, rfl⟩⟩
  · rw [if_pos hnodup]
    constructor
    · intro h
      cases h
    · intro h
      exact absurd h.1 hnodup

theorem appendTransaction_keeps (hsend : SendsDatabaseText sendText)
    (hcollision : CollisionFree sha256 traffic) (hcarried : ∀ batch ∈ call.batches, batch ∈ traffic)
    (hinv : LogInvariant sha256 traffic log)
    (h : appendTransaction sha256 sendText documentId call log = .ok appended) :
    LogInvariant sha256 traffic appended ∧ log.batches <+: appended.batches ∧
      ∀ batch ∈ call.batches, Holds appended batch := by
  obtain ⟨-, -, hashes, done, hhashes, hdone, rfl⟩ := appendTransaction_eq_ok.mp h
  have hheld : HashesHeld sha256 hashes log := fun batchId hash hlookup =>
    existingBatchHashes_mem hinv hhashes hlookup
  exact appendBatches_keep hsend hcollision hcarried hinv
    (fun id hid => absurd hid not_mem_nil) hheld hdone

end Steps

section Resends

variable {sendText : Text → Option Text} {sha256 : Text → Text} {traffic : Set RichTextEventBatch}
  {documentId : Text} {call : AppendCall} {log : EventLog} {batch : RichTextEventBatch}
  {batches : List RichTextEventBatch} {transaction : Transaction} {hashes : List (Text × Text)}

theorem lookup_of_mem {α β : Type} [BEq α] [LawfulBEq α] {entries : List (α × β)} {key : α} {value : β}
    (hkeys : (entries.map Prod.fst).Nodup) (h : (key, value) ∈ entries) :
    entries.lookup key = some value := by
  induction entries with
  | nil => cases h
  | cons entry entries ih =>
    obtain ⟨other, held⟩ := entry
    rw [map_cons, nodup_cons] at hkeys
    cases mem_cons.mp h with
    | inl heq =>
      cases heq
      exact lookup_cons_self
    | inr hmem =>
      have hkey : key ∈ entries.map Prod.fst := mem_map.mpr ⟨(key, value), hmem, rfl⟩
      have hne : key ≠ other := fun heq => hkeys.1 (heq ▸ hkey)
      rw [lookup_cons, beq_false_of_ne hne]
      exact ih hkeys.2 hmem

theorem LogInvariant.database_of_holds (hinv : LogInvariant sha256 traffic log)
    (h : Holds log batch) : isDatabaseBatch batch = true := by
  obtain ⟨row, hrow, rfl⟩ := h
  exact hinv.database row hrow

section

variable (hsend : SendsDatabaseText sendText)
include hsend

theorem existingBatchHashes_of_holds
    (hinv : LogInvariant sha256 traffic log) (h : ∀ batch ∈ batches, Holds log batch) :
    ∃ hashes, existingBatchHashes sendText log batches = .ok hashes ∧
      ∀ batch ∈ batches, hashes.lookup batch.batchId = some (hashBatch sha256 batch) := by
  have hsent : sendTexts sendText (batches.map (·.batchId)) = .ok (batches.map (·.batchId)) := by
    apply sendTexts_database hsend
    intro batchId hbatchId
    obtain ⟨batch, hbatch, rfl⟩ := mem_map.mp hbatchId
    exact isDatabaseText_batchId (hinv.database_of_holds (h batch hbatch))
  refine ⟨_, except_bind_eq_ok.mpr ⟨_, hsent, rfl⟩, ?_⟩
  intro batch hbatch
  obtain ⟨row, hrow, hpayload⟩ := h batch hbatch
  have hbatchId : row.batchId = batch.batchId := by rw [hinv.batchId row hrow, hpayload]
  apply lookup_of_mem
  · rw [map_map]
    exact hinv.batchIdsDistinct.sublist (List.Sublist.map _ filter_sublist)
  · rw [mem_map]
    refine ⟨row, ?_, ?_⟩
    · rw [mem_filter, decide_eq_true_eq, hbatchId]
      exact ⟨hrow, mem_map_of_mem hbatch⟩
    · rw [hbatchId, hinv.payloadHash row hrow, hpayload]

theorem appendBatch_of_holds
    (hinv : LogInvariant sha256 traffic transaction.log) (h : Holds transaction.log batch)
    (hlookup : hashes.lookup batch.batchId = some (hashBatch sha256 batch)) :
    ∃ done, appendBatch sha256 sendText documentId call hashes transaction batch = .ok done ∧
      done.log = transaction.log := by
  have hresolve : ∃ resolved, resolveParents sendText documentId transaction batch = .ok resolved :=
    resolveParents_of_grounded hsend hinv.eventIdsDistinct (hinv.database_of_holds h)
      (hinv.grounded h)
  obtain ⟨resolved, hresolved⟩ := hresolve
  refine ⟨{ resolved with
    availableEventIds := batch.eventIds.foldl addId resolved.availableEventIds },
    except_bind_eq_ok.mpr ⟨resolved, hresolved, ?_⟩, (resolveParents_eq_ok hresolved).1⟩
  rw [hlookup]
  dsimp only
  rw [if_pos rfl]
  rfl

theorem appendBatches_of_holds (hinv : LogInvariant sha256 traffic transaction.log)
    (h : ∀ batch ∈ batches, Holds transaction.log batch)
    (hlookup : ∀ batch ∈ batches, hashes.lookup batch.batchId = some (hashBatch sha256 batch)) :
    ∃ done, batches.foldlM (appendBatch sha256 sendText documentId call hashes) transaction =
      .ok done ∧ done.log = transaction.log := by
  induction batches generalizing transaction with
  | nil => exact ⟨transaction, rfl, rfl⟩
  | cons batch batches ih =>
    rw [forall_mem_cons] at h hlookup
    have hturn : ∃ next, appendBatch sha256 sendText documentId call hashes transaction batch =
        .ok next ∧ next.log = transaction.log :=
      appendBatch_of_holds hsend hinv h.1 hlookup.1
    obtain ⟨next, hnext, hsame⟩ := hturn
    rw [← hsame] at hinv h
    obtain ⟨done, hdone, hlog⟩ := ih hinv h.2 hlookup.2
    rw [foldlM_cons]
    exact ⟨done, except_bind_eq_ok.mpr ⟨next, hnext, hdone⟩, hlog.trans hsame⟩

theorem appendTransaction_of_holds
    (hinv : LogInvariant sha256 traffic log) (hnodup : (incomingEventIds call.batches).Nodup)
    (haccess : hasWriteAccess call.role.toList = true)
    (h : ∀ batch ∈ call.batches, Holds log batch) :
    appendTransaction sha256 sendText documentId call log = .ok log := by
  obtain ⟨hashes, hhashes, hlookup⟩ := existingBatchHashes_of_holds hsend hinv h
  have hwalk : ∃ done, call.batches.foldlM (appendBatch sha256 sendText documentId call hashes)
      ⟨log, []⟩ = .ok done ∧ done.log = log :=
    appendBatches_of_holds hsend hinv h hlookup
  obtain ⟨done, hdone, hlog⟩ := hwalk
  exact appendTransaction_eq_ok.mpr ⟨hnodup, haccess, hashes, done, hhashes, hdone, hlog⟩

end

theorem holds_of_verified (hcollision : CollisionFree sha256 traffic)
    (hcarried : ∀ batch ∈ batches, batch ∈ traffic) (hinv : LogInvariant sha256 traffic log)
    (h : verifyExistingBatches sha256 sendText log batches = .ok true) :
    ∀ batch ∈ batches, Holds log batch := by
  obtain ⟨hashes, hhashes, hall⟩ := except_bind_eq_ok.mp h
  have hall := all_eq_true.mp (Except.ok.inj hall)
  intro batch hbatch
  obtain ⟨row, hrow, -, hhash⟩ :=
    existingBatchHashes_mem hinv hhashes (of_decide_eq_true (hall batch hbatch))
  exact ⟨row, hrow, hashBatch_injOn hcollision (hinv.carried row hrow) (hcarried batch hbatch) hhash⟩

end Resends

end Softmaple.EventStore
