import Softmaple.EventStore.AppendSpec

/-!
The Prisma store and the RPC store on one log. A history grows by accepted
appends of either; on a request the database can hold both answer alike. They
part on text the database refuses, which the RPC meets before every check, and
on the cursor of an empty page, which only the Prisma store gives back as it
came.
-/
namespace Softmaple.EventStore

open BlockModel StateMethod List

section Histories

variable (sha256 : Text → Text) (sendText : Text → Option Text)
  (collation : Text → Text → Prop) [DecidableRel collation] (documentId : Text)
  (traffic : Set RichTextEventBatch)

inductive StoreStep (log appended : EventLog) : Prop where
  | prisma (call : AppendCall) (hcarried : ∀ batch ∈ call.batches, batch ∈ traffic)
      (h : appendTransaction sha256 sendText documentId call log = .ok appended)
  | supabase (call : AppendCall) (hcarried : ∀ batch ∈ call.batches, batch ∈ traffic)
      (ids : List Text) (h : supabaseAppend collation documentId sha256 call log = .ok (appended, ids))

def Follows : EventLog → EventLog → Prop :=
  Relation.ReflTransGen (StoreStep sha256 sendText collation documentId traffic)

end Histories

/-- Both accept with one log and one answer, or both reject with one kind of error. -/
def Agree : Except DocumentEventStoreError (EventLog × List Text) →
    Except DocumentEventStoreError (EventLog × List Text) → Prop
  | .ok done, .ok other => done = other
  | .error error, .error other => error.kind = other.kind ∧ error.conflictType = other.conflictType
  | _, _ => False

section ParsedBatches

variable {isSafeLinkUrl : Text → Bool} {sha256 : Text → Text} {batch : RichTextEventBatch}
  {batches : List RichTextEventBatch}

def leadEventId (batchId : Text) : Text :=
  if batchId = BOOTSTRAP_BATCH_ID then BOOTSTRAP_EVENT_ID else batchId

section

variable (h : parseBatch isSafeLinkUrl batch = .ok batch)
include h

theorem batchId_ne_nil : batch.batchId ≠ [] := by
  obtain ⟨batchId, hbatchId, -⟩ := except_bind_eq_ok.mp h
  exact (asNonEmptyString_eq_ok.mp hbatchId).1

theorem eq_bootstrap (hbatchId : batch.batchId = BOOTSTRAP_BATCH_ID) : batch = BOOTSTRAP_BATCH := by
  obtain ⟨batchId, -, h⟩ := except_bind_eq_ok.mp h
  obtain ⟨parentVersion, -, h⟩ := except_bind_eq_ok.mp h
  obtain ⟨events, -, h⟩ := except_bind_eq_ok.mp h
  cases events with
  | nil => cases h
  | cons first rest =>
    obtain ⟨⟨⟩, -, h⟩ := except_bind_eq_ok.mp h
    obtain ⟨⟨⟩, -, h⟩ := except_bind_eq_ok.mp h
    obtain ⟨⟨⟩, -, h⟩ := except_bind_eq_ok.mp h
    obtain ⟨⟨⟩, hvalid, h⟩ := except_bind_eq_ok.mp h
    have hbatch := Except.ok.inj h
    cases of_decide_eq_true (check_eq_ok.mp hvalid) with
    | inl hne =>
      rw [← hbatch] at hbatchId
      exact absurd hbatchId hne
    | inr hsame => exact hbatch.symm.trans hsame

theorem leadEventId_mem : leadEventId batch.batchId ∈ batch.eventIds := by
  unfold leadEventId
  by_cases hbatchId : batch.batchId = BOOTSTRAP_BATCH_ID
  · rw [if_pos hbatchId, eq_bootstrap h hbatchId]
    exact mem_singleton_self _
  · rw [if_neg hbatchId]
    exact (parseBatch_named h).1.resolve_right hbatchId

end

theorem batchIds_nodup (h : ∀ batch ∈ batches, parseBatch isSafeLinkUrl batch = .ok batch)
    (hnodup : (incomingEventIds batches).Nodup) : (batches.map (·.batchId)).Nodup := by
  have hdisjoint := (nodup_flatMap.mp hnodup).2
  rw [List.Nodup, pairwise_map]
  refine hdisjoint.imp_of_mem ?_
  intro batch other hbatch hother hapart hsame
  have hlead := leadEventId_mem (h other hother)
  rw [← hsame] at hlead
  exact hapart (leadEventId_mem (h batch hbatch)) hlead

theorem wellFormedEntry (hdigest : ∀ value, isPayloadHash (sha256 value) = true)
    (h : parseBatch isSafeLinkUrl batch = .ok batch) : WellFormedEntry sha256 batch where
  batchId := batchId_ne_nil h
  hash := hdigest _

end ParsedBatches

section Prefetch

variable {sendText : Text → Option Text} {log : EventLog} {batches : List RichTextEventBatch}

theorem lookup_stored {rows : List BatchRow} {ids : List Text} {id : Text} (h : id ∈ ids) :
    (((rows.filter fun row => decide (row.batchId ∈ ids)).map fun row =>
      (row.batchId, row.payloadHash)).lookup id) =
      (rows.find? fun row => decide (row.batchId = id)).map (·.payloadHash) := by
  induction rows with
  | nil => rfl
  | cons row rows ih =>
    by_cases hsame : row.batchId = id
    · have hasked : decide (row.batchId ∈ ids) = true := decide_eq_true (hsame ▸ h)
      rw [filter_cons, hasked, if_pos rfl, map_cons, lookup_cons,
        find?_cons, decide_eq_true hsame, beq_iff_eq.mpr hsame.symm]
      rfl
    · rw [find?_cons, decide_eq_false hsame, filter_cons]
      split
      · rw [map_cons, lookup_cons, beq_false_of_ne (Ne.symm hsame)]
        exact ih
      · exact ih

theorem existingBatchHashes_database (hsend : SendsDatabaseText sendText)
    (h : ∀ batch ∈ batches, isDatabaseBatch batch = true) :
    ∃ hashes, existingBatchHashes sendText log batches = .ok hashes ∧
      ∀ batch ∈ batches, Prefetched hashes log batch.batchId := by
  have hsent : sendTexts sendText (batches.map (·.batchId)) = .ok (batches.map (·.batchId)) := by
    apply sendTexts_database hsend
    intro batchId hbatchId
    obtain ⟨batch, hbatch, rfl⟩ := mem_map.mp hbatchId
    exact isDatabaseText_batchId (h batch hbatch)
  refine ⟨_, except_bind_eq_ok.mpr ⟨_, hsent, rfl⟩, ?_⟩
  intro batch hbatch
  exact lookup_stored (mem_map_of_mem hbatch)

end Prefetch

section Verification

variable {sha256 : Text → Text} {sendText : Text → Option Text} {call : AppendCall}
  {traffic : Set RichTextEventBatch} {log later : EventLog} {batch : RichTextEventBatch}
  {batches : List RichTextEventBatch}

theorem storeBatch_eq_storedConflict
    (h : storeBatch sha256 call log batch = .error .storedEventIdConflict) :
    storedRow log batch.batchId = none ∧ ¬ (log.storedEventIds ++ batch.eventIds).Nodup := by
  unfold storeBatch at h
  split at h
  · split at h
    · split at h <;> cases h
    · next hnone =>
        split at h
        · cases h
        · next hclash => exact ⟨hnone, hclash⟩
  · cases h

theorem storeBatches_keep (hcollision : CollisionFree sha256 traffic)
    (hcarried : ∀ batch ∈ batches, batch ∈ traffic)
    (hdatabase : ∀ batch ∈ batches, isDatabaseBatch batch = true)
    (hinv : LogInvariant sha256 traffic log) {appended : EventLog}
    (h : storeBatches sha256 call log batches = .ok appended) :
    LogInvariant sha256 traffic appended ∧ log.batches <+: appended.batches := by
  induction batches generalizing log with
  | nil =>
    cases h
    exact ⟨hinv, prefix_refl _⟩
  | cons batch batches ih =>
    rw [forall_mem_cons] at hcarried hdatabase
    rw [storeBatches, foldlM_cons] at h
    obtain ⟨next, hnext, hrest⟩ := except_bind_eq_ok.mp h
    obtain ⟨hnextInv, hgrows, -⟩ :=
      storeBatch_keeps hcollision hcarried.1 hdatabase.1 hinv hnext
    obtain ⟨hkept, hmore⟩ := ih hcarried.2 hdatabase.2 hnextInv hrest
    exact ⟨hkept, hgrows.trans hmore⟩

theorem LogInvariant.row_unique (hinv : LogInvariant sha256 traffic log) {row other : BatchRow}
    (hrow : row ∈ log.batches) (hother : other ∈ log.batches) {id : Text}
    (hid : id ∈ row.payload.eventIds) (hotherId : id ∈ other.payload.eventIds) : row = other := by
  by_contra hne
  have hdistinct := hinv.eventIdsDistinct
  rw [hinv.storedEventIds_eq, flatMap_map] at hdistinct
  have hapart := (nodup_flatMap.mp hdistinct).2
  have hsymmetric : Std.Symm (Function.onFun List.Disjoint fun row : BatchRow =>
      row.payload.eventIds) := ⟨fun _ _ h => h.symm⟩
  exact hapart.forall hrow hother hne hid hotherId

theorem LogInvariant.exists_row (hinv : LogInvariant sha256 traffic log) {id : Text}
    (hid : id ∈ log.storedEventIds) : ∃ row ∈ log.batches, id ∈ row.payload.eventIds := by
  rw [hinv.storedEventIds_eq, flatMap_map] at hid
  exact mem_flatMap.mp hid

theorem not_held_of_storedConflict (hcollision : CollisionFree sha256 traffic)
    (hcarried : ∀ batch ∈ batches, batch ∈ traffic)
    (hdatabase : ∀ batch ∈ batches, isDatabaseBatch batch = true)
    (hnodup : (incomingEventIds batches).Nodup) (hinv : LogInvariant sha256 traffic log)
    (hlater : LogInvariant sha256 traffic later) (hgrows : log.batches <+: later.batches)
    (h : storeBatches sha256 call log batches = .error .storedEventIdConflict) :
    ¬ ∀ batch ∈ batches, Holds later batch := by
  intro hall
  obtain ⟨before, batch, after, middle, rfl, hbefore, hbatch⟩ := foldlM_eq_error.mp h
  obtain ⟨hnone, hclash⟩ := storeBatch_eq_storedConflict hbatch
  rw [forall_mem_append, forall_mem_cons] at hcarried hdatabase hall
  obtain ⟨hmiddle, hmore⟩ := storeBatches_keep hcollision hcarried.1 hdatabase.1 hinv hbefore
  rw [incomingEventIds, flatMap_append, flatMap_cons] at hnodup
  obtain ⟨-, htail, hapart⟩ := nodup_append.mp hnodup
  have hown : batch.eventIds.Nodup := (nodup_append.mp htail).1
  obtain ⟨id, hstored, hid⟩ : ∃ id ∈ middle.storedEventIds, id ∈ batch.eventIds := by
    by_contra hnot
    refine hclash (nodup_append.mpr ⟨hmiddle.eventIdsDistinct, hown, ?_⟩)
    intro id hid other hother heq
    exact hnot ⟨id, hid, heq ▸ hother⟩
  cases storedEventIds_of_storeBatches hbefore id hstored with
  | inr hincoming => exact hapart id hincoming id (mem_append_left _ hid) rfl
  | inl hold =>
    obtain ⟨row, hrow, hrowId⟩ := hinv.exists_row hold
    obtain ⟨held, hheld, hpayload⟩ := hall.2.1
    have hsame : row = held := by
      apply hlater.row_unique (hgrows.subset hrow) hheld hrowId
      rw [hpayload]
      exact hid
    apply storedRow_none.mp hnone row (hmore.subset hrow)
    rw [hinv.batchId row hrow, hsame, hpayload]

theorem verifyExistingBatchesWithRetry_false (hsend : SendsDatabaseText sendText)
    (hcollision : CollisionFree sha256 traffic) (hcarried : ∀ batch ∈ batches, batch ∈ traffic)
    (hdatabase : ∀ batch ∈ batches, isDatabaseBatch batch = true)
    (hnodup : (incomingEventIds batches).Nodup) (hinv : LogInvariant sha256 traffic log)
    (h : storeBatches sha256 call log batches = .error .storedEventIdConflict)
    {logs : List EventLog}
    (hlogs : ∀ later ∈ logs, LogInvariant sha256 traffic later ∧ log.batches <+: later.batches) :
    verifyExistingBatchesWithRetry sha256 sendText batches logs = .ok false := by
  induction logs with
  | nil => rfl
  | cons later logs ih =>
    rw [forall_mem_cons] at hlogs
    have hprefetch : ∃ hashes, existingBatchHashes sendText later batches = .ok hashes ∧
        ∀ batch ∈ batches, Prefetched hashes later batch.batchId :=
      existingBatchHashes_database hsend hdatabase
    obtain ⟨hashes, hhashes, -⟩ := hprefetch
    have hread : verifyExistingBatches sha256 sendText later batches = .ok (batches.all fun batch =>
        decide (hashes.lookup batch.batchId = some (hashBatch sha256 batch))) :=
      except_bind_eq_ok.mpr ⟨hashes, hhashes, rfl⟩
    have hfalse : verifyExistingBatches sha256 sendText later batches = .ok false := by
      rw [hread]
      cases hall : batches.all fun batch =>
          decide (hashes.lookup batch.batchId = some (hashBatch sha256 batch)) with
      | false => rfl
      | true =>
        rw [hall] at hread
        exact absurd (holds_of_verified hcollision hcarried hlogs.1.1 hread)
          (not_held_of_storedConflict hcollision hcarried hdatabase hnodup hinv hlogs.1.1
            hlogs.1.2 h)
    rw [verifyExistingBatchesWithRetry, hfalse]
    exact ih hlogs.2

end Verification

section Agreement

variable {sha256 : Text → Text} {sendText : Text → Option Text} {isSafeLinkUrl : Text → Bool}
  {collation : Text → Text → Prop} [DecidableRel collation] {documentId : Text}
  {call : AppendCall} {traffic : Set RichTextEventBatch} {log appended : EventLog}

theorem duplicateEventIds_nil {eventIds : List Text} :
    duplicateEventIds collation eventIds = [] ↔ eventIds.Nodup := by
  rw [duplicateEventIds, ← length_eq_zero_iff, length_insertionSort,
    length_eq_zero_iff, dedup_eq_nil, filter_eq_nil_iff, nodup_iff_count_le_one]
  constructor
  · intro h id
    by_cases hid : id ∈ eventIds
    · have hcount := h id hid
      rw [decide_eq_true_eq] at hcount
      omega
    · rw [count_eq_zero_of_not_mem hid]
      omega
  · intro h id _
    have hcount := h id
    rw [decide_eq_true_eq]
    omega

theorem hasWriteAccess_iff (role : Option CollabRole) :
    hasWriteAccess role.toList = true ↔ role = some .owner ∨ role = some .editor := by
  cases role with
  | none => decide
  | some role => cases role <;> decide

theorem incoming_rpcBatches (batches : List RichTextEventBatch) :
    (batches.map (rpcBatch sha256)).flatMap (·.payload.eventIds) = incomingEventIds batches := by
  rw [flatMap_map]
  rfl

theorem bind_pure_eq_map {ε σ τ : Type} {result : Except ε σ} {next : σ → τ} :
    (result >>= fun state => pure (next state)) = result.map next := by
  cases result <;> rfl

theorem appendTransaction_walk (hnodup : (incomingEventIds call.batches).Nodup)
    (haccess : hasWriteAccess call.role.toList = true) {hashes : List (Text × Text)}
    (hhashes : existingBatchHashes sendText log call.batches = .ok hashes) :
    appendTransaction sha256 sendText documentId call log =
      (call.batches.foldlM (appendBatch sha256 sendText documentId call hashes) ⟨log, []⟩).map
        Transaction.log := by
  unfold appendTransaction
  rw [if_neg (not_not.mpr hnodup), haccess, if_neg (by decide), hhashes]
  exact bind_pure_eq_map

/-- What the assumptions of both stores give for one request. -/
structure Request (sha256 : Text → Text) (isSafeLinkUrl : Text → Bool)
    (traffic : Set RichTextEventBatch) (call : AppendCall) : Prop where
  size : 1 ≤ call.batches.length ∧ call.batches.length ≤ 64
  carried : ∀ batch ∈ call.batches, batch ∈ traffic
  parsed : ∀ batch ∈ call.batches, parseBatch isSafeLinkUrl batch = .ok batch
  digest : ∀ value, isPayloadHash (sha256 value) = true

def AllDatabase (call : AppendCall) : Prop := ∀ batch ∈ call.batches, isDatabaseBatch batch = true

section Walks

variable (hsend : SendsDatabaseText sendText) (hcollision : CollisionFree sha256 traffic)
  (hrequest : Request sha256 isSafeLinkUrl traffic call) (hinv : LogInvariant sha256 traffic log)
  (hdatabase : AllDatabase call) (hnodup : (incomingEventIds call.batches).Nodup)

include hsend hcollision hrequest hinv hdatabase hnodup in
theorem appendTransaction_refines (haccess : hasWriteAccess call.role.toList = true) :
    Refines AppendError.conflictOf id (appendTransaction sha256 sendText documentId call log)
      (storeBatches sha256 call log call.batches) := by
  have hprefetch : ∃ hashes, existingBatchHashes sendText log call.batches = .ok hashes ∧
      ∀ batch ∈ call.batches, Prefetched hashes log batch.batchId :=
    existingBatchHashes_database hsend hdatabase
  obtain ⟨hashes, hhashes, hprefetched⟩ := hprefetch
  have hheld : HashesHeld sha256 hashes log := fun batchId hash hlookup =>
    existingBatchHashes_mem hinv hhashes hlookup
  have hwalk : Refines AppendError.conflictOf Transaction.log
      (call.batches.foldlM (appendBatch sha256 sendText documentId call hashes) ⟨log, []⟩)
      (storeBatches sha256 call log call.batches) :=
    appendBatches_refine hsend hcollision hrequest.carried hdatabase
      (batchIds_nodup hrequest.parsed hnodup) hinv (fun id hid => absurd hid not_mem_nil) hheld
      hprefetched
  rw [appendTransaction_walk hnodup haccess hhashes]
  exact hwalk.map fun done => rfl

include hcollision hrequest hinv hdatabase in
theorem rpcWalk_refines : Refines RpcError.conflictOf RpcState.log
        ((call.batches.map (rpcBatch sha256)).foldlM (rpcAppendBatch collation documentId call)
          ⟨log, [], []⟩)
        (storeBatches sha256 call log call.batches) ∧
      ∀ done, (call.batches.map (rpcBatch sha256)).foldlM
          (rpcAppendBatch collation documentId call) ⟨log, [], []⟩ = .ok done →
        done.batchIds = call.batches.map (·.batchId) := by
  have hentries : ∀ batch ∈ call.batches, WellFormedEntry sha256 batch := fun batch hbatch =>
    wellFormedEntry hrequest.digest (hrequest.parsed batch hbatch)
  exact rpcAppendBatches_refine hcollision hrequest.carried hdatabase hentries hinv
    fun id hid => absurd hid not_mem_nil

include hrequest hdatabase in
theorem appendDocumentEventBatches_checked :
    appendDocumentEventBatches collation documentId call (call.batches.map (rpcBatch sha256)) log =
      if duplicateEventIds collation (incomingEventIds call.batches) ≠ [] then
        .error (raiseConflict documentId .duplicateIncomingEventId none
          (some (duplicateEventIds collation (incomingEventIds call.batches))) none)
      else if ¬ (call.role = some .owner ∨ call.role = some .editor) then
        .error (.raised ⟨.authorization, none,
          some (text "actor no longer has document write access"), none, none, none, none⟩)
      else ((call.batches.map (rpcBatch sha256)).foldlM (rpcAppendBatch collation documentId call)
        ⟨log, [], []⟩).map fun state => (state.log, state.batchIds) := by
  have hall : ¬ ((call.batches.map (rpcBatch sha256)).all fun batch =>
      isDatabaseBatch batch.payload) = false := by
    rw [all_map, Bool.not_eq_false]
    exact all_eq_true.mpr hdatabase
  have hsize : ¬ ¬ (1 ≤ (call.batches.map (rpcBatch sha256)).length ∧
      (call.batches.map (rpcBatch sha256)).length ≤ 64) := by
    rw [length_map]
    exact not_not.mpr hrequest.size
  dsimp only [appendDocumentEventBatches]
  rw [if_neg hall, if_neg hsize, incoming_rpcBatches]
  congr 2

end Walks

section Results

variable {logs : List EventLog} {ids : List Text}

theorem prismaAppend_of_ok
    (h : appendTransaction sha256 sendText documentId call log = .ok appended) :
    prismaAppend sha256 sendText documentId call log logs =
      .ok (appended, call.batches.map (·.batchId)) := by
  unfold prismaAppend appendEventBatches
  rw [h]
  rfl

theorem prismaAppend_of_error {error : AppendError}
    (h : appendTransaction sha256 sendText documentId call log = .error error)
    (hne : error ≠ .uniqueViolation) :
    prismaAppend sha256 sendText documentId call log logs = .error (prismaAppendError error) := by
  unfold prismaAppend appendEventBatches
  rw [h]
  cases error with
  | uniqueViolation => exact absurd rfl hne
  | conflict _ _ | authorization _ | database => rfl

theorem prismaAppend_of_uniqueViolation
    (h : appendTransaction sha256 sendText documentId call log = .error .uniqueViolation)
    (hverify : verifyExistingBatchesWithRetry sha256 sendText call.batches logs = .ok false) :
    prismaAppend sha256 sendText documentId call log logs =
      .error (prismaAppendError (storedEventIdConflict documentId call.batches)) := by
  unfold prismaAppend appendEventBatches
  rw [h, hverify]
  rfl

theorem supabaseAppend_of_error {error : RpcError}
    (h : appendDocumentEventBatches collation documentId call (call.batches.map (rpcBatch sha256))
      log = .error error) :
    supabaseAppend collation documentId sha256 call log =
      .error (rpcAppendError documentId error) := by
  dsimp only [supabaseAppend]
  erw [h]

theorem supabaseAppend_of_ok
    (h : appendDocumentEventBatches collation documentId call (call.batches.map (rpcBatch sha256))
      log = .ok (appended, ids)) (hlength : ids.length = call.batches.length) :
    supabaseAppend collation documentId sha256 call log = .ok (appended, ids) := by
  dsimp only [supabaseAppend]
  erw [h]
  exact if_pos hlength

theorem rpcAppendError_conflict {error : RpcError} {conflictType : EventConflictType}
    (h : error.conflictOf = some conflictType) :
    (rpcAppendError documentId error).kind = .conflict ∧
      (rpcAppendError documentId error).conflictType = some conflictType := by
  cases error with
  | failed => cases h
  | raised shape =>
    obtain ⟨kind, named, message, document, batchIds, eventIds, missing⟩ := shape
    cases kind with
    | authorization => cases h
    | unavailable => cases h
    | conflict =>
      have hnamed : named = some conflictType := h
      rw [hnamed]
      exact ⟨rfl, rfl⟩

end Results

theorem agree_of_refined {logs : List EventLog} {walk : Except RpcError RpcState}
    (hchecked : appendDocumentEventBatches collation documentId call
      (call.batches.map (rpcBatch sha256)) log = walk.map fun state => (state.log, state.batchIds))
    (hprisma : Refines AppendError.conflictOf id
      (appendTransaction sha256 sendText documentId call log)
      (storeBatches sha256 call log call.batches))
    (hrpc : Refines RpcError.conflictOf RpcState.log walk
      (storeBatches sha256 call log call.batches))
    (hids : ∀ done, walk = .ok done → done.batchIds = call.batches.map (·.batchId))
    (hverify : storeBatches sha256 call log call.batches = .error .storedEventIdConflict →
      verifyExistingBatchesWithRetry sha256 sendText call.batches logs = .ok false) :
    Agree (prismaAppend sha256 sendText documentId call log logs)
      (supabaseAppend collation documentId sha256 call log) := by
  cases hspec : storeBatches sha256 call log call.batches with
  | ok stored =>
    rw [hspec] at hprisma hrpc
    cases walk with
    | error error => exact hrpc.elim
    | ok state =>
      cases htransaction : appendTransaction sha256 sendText documentId call log with
      | error error =>
        rw [htransaction] at hprisma
        exact hprisma.elim
      | ok appended =>
        rw [htransaction] at hprisma
        have hlog : appended = stored := hprisma
        have hstate : state.log = stored := hrpc
        have hnamed := hids state rfl
        have hlength : state.batchIds.length = call.batches.length := by
          rw [hnamed, length_map]
        rw [prismaAppend_of_ok htransaction, supabaseAppend_of_ok hchecked hlength, hnamed,
          hlog, hstate]
        rfl
  | error conflictType =>
    rw [hspec] at hprisma hrpc
    cases walk with
    | ok state => exact hrpc.elim
    | error rpcError =>
      have hreported : (rpcAppendError documentId rpcError).kind = .conflict ∧
          (rpcAppendError documentId rpcError).conflictType = some conflictType :=
        rpcAppendError_conflict hrpc
      rw [supabaseAppend_of_error hchecked]
      cases htransaction : appendTransaction sha256 sendText documentId call log with
      | ok appended =>
        rw [htransaction] at hprisma
        exact hprisma.elim
      | error error =>
        rw [htransaction] at hprisma
        cases error with
        | authorization message => cases hprisma
        | database => cases hprisma
        | conflict message details =>
          rw [prismaAppend_of_error htransaction (by intro h; cases h)]
          exact ⟨hreported.1.symm, hprisma.trans hreported.2.symm⟩
        | uniqueViolation =>
          have hstored : conflictType = .storedEventIdConflict :=
            (Option.some.inj hprisma).symm
          rw [hstored] at hspec hreported
          rw [prismaAppend_of_uniqueViolation htransaction (hverify hspec)]
          exact ⟨hreported.1.symm, hreported.2.symm⟩

theorem agree_of_database (hsend : SendsDatabaseText sendText)
    (hcollision : CollisionFree sha256 traffic)
    (hrequest : Request sha256 isSafeLinkUrl traffic call) (hinv : LogInvariant sha256 traffic log)
    (hdatabase : AllDatabase call) {logs : List EventLog}
    (hlogs : ∀ later ∈ logs, LogInvariant sha256 traffic later ∧ log.batches <+: later.batches) :
    Agree (prismaAppend sha256 sendText documentId call log logs)
      (supabaseAppend collation documentId sha256 call log) := by
  have hchecked : appendDocumentEventBatches collation documentId call
      (call.batches.map (rpcBatch sha256)) log = _ :=
    appendDocumentEventBatches_checked hrequest hdatabase
  by_cases hnodup : (incomingEventIds call.batches).Nodup
  · rw [if_neg (not_not.mpr (duplicateEventIds_nil.mpr hnodup))] at hchecked
    cases haccess : hasWriteAccess call.role.toList with
    | true =>
      rw [if_neg (not_not.mpr ((hasWriteAccess_iff call.role).mp haccess))] at hchecked
      refine agree_of_refined hchecked
        (appendTransaction_refines hsend hcollision hrequest hinv hdatabase hnodup haccess)
        (rpcWalk_refines hcollision hrequest hinv hdatabase).1
        (rpcWalk_refines hcollision hrequest hinv hdatabase).2 ?_
      intro hspec
      exact verifyExistingBatchesWithRetry_false hsend hcollision hrequest.carried hdatabase hnodup
        hinv hspec hlogs
    | false =>
      have hrole : ¬ (call.role = some .owner ∨ call.role = some .editor) := by
        intro hrole
        rw [(hasWriteAccess_iff call.role).mpr hrole] at haccess
        cases haccess
      rw [if_pos hrole] at hchecked
      have hrefused : appendTransaction sha256 sendText documentId call log =
          .error (.authorization (text "actor no longer has document write access")) := by
        unfold appendTransaction
        rw [if_neg (not_not.mpr hnodup), haccess]
        rfl
      rw [prismaAppend_of_error hrefused (by intro h; cases h), supabaseAppend_of_error hchecked]
      exact ⟨rfl, rfl⟩
  · rw [if_pos fun hnil => hnodup (duplicateEventIds_nil.mp hnil)] at hchecked
    have hrefused : appendTransaction sha256 sendText documentId call log =
        .error (duplicateIncomingEventId documentId call.batches) := by
      unfold appendTransaction
      rw [if_pos hnodup]
      rfl
    have hreported : (rpcAppendError documentId (raiseConflict documentId .duplicateIncomingEventId
        none (some (duplicateEventIds collation (incomingEventIds call.batches))) none)).kind =
          .conflict ∧ _ = some EventConflictType.duplicateIncomingEventId :=
      rpcAppendError_conflict rfl
    rw [prismaAppend_of_error hrefused (by intro h; cases h), supabaseAppend_of_error hchecked]
    exact ⟨hreported.1.symm, hreported.2.symm⟩

section Refused

/-- A request with text the database refuses gets as far as the database: its checks pass, and
either a batch ID cannot be asked for or the walk comes to such a batch without a conflict. -/
def StopsAtDatabase (sha256 : Text → Text) (sendText : Text → Option Text) (documentId : Text)
    (call : AppendCall) (log : EventLog) : Prop :=
  (incomingEventIds call.batches).Nodup ∧ hasWriteAccess call.role.toList = true ∧
    (sendTexts sendText (call.batches.map (·.batchId)) = .error .database ∨
      ∃ hashes before batch after transaction,
        existingBatchHashes sendText log call.batches = .ok hashes ∧
        call.batches = before ++ batch :: after ∧
        before.foldlM (appendBatch sha256 sendText documentId call hashes) ⟨log, []⟩ =
          .ok transaction ∧
        isDatabaseBatch batch = false ∧
        (resolveParents sendText documentId transaction batch = .error .database ∨
          (∃ resolved, resolveParents sendText documentId transaction batch = .ok resolved) ∧
            hashes.lookup batch.batchId = none))

theorem supabaseAppend_refused (h : ¬ AllDatabase call) :
    supabaseAppend collation documentId sha256 call log =
      .error (unavailableStoreError "append") := by
  have hall : ((call.batches.map (rpcBatch sha256)).all fun batch =>
      isDatabaseBatch batch.payload) = false := by
    rw [all_map, ← Bool.not_eq_true]
    exact fun htrue => h (all_eq_true.mp htrue)
  have hfailed : appendDocumentEventBatches collation documentId call
      (call.batches.map (rpcBatch sha256)) log = .error .failed := by
    dsimp only [appendDocumentEventBatches]
    rw [if_pos hall]
  rw [supabaseAppend_of_error hfailed]
  rfl

theorem sendTexts_error {texts : List Text} {error : AppendError}
    (h : sendTexts sendText texts = .error error) : error = .database := by
  induction texts with
  | nil => cases h
  | cons value texts ih =>
    rw [sendTexts, mapM_cons] at h
    cases hvalue : sendText value with
    | none =>
      rw [hvalue] at h
      exact (Except.error.inj h).symm
    | some sent =>
      rw [hvalue] at h
      change (sendTexts sendText texts >>= fun rest => pure (sent :: rest)) = _ at h
      cases hrest : sendTexts sendText texts with
      | ok rest =>
        rw [hrest] at h
        cases h
      | error failure =>
        rw [hrest] at h
        cases h
        exact ih hrest

theorem createBatch_database {batch : RichTextEventBatch} :
    createBatch sha256 call log batch = .error .database ↔ isDatabaseBatch batch = false := by
  have hpayload : (batchRow sha256 call log batch).payload = batch := rfl
  dsimp only [createBatch]
  cases hdatabase : isDatabaseBatch batch with
  | false =>
    have hinsert : insertBatchRow log (batchRow sha256 call log batch) = .error .database := by
      rw [insertBatchRow, hpayload, hdatabase]
      rfl
    rw [hinsert]
    exact ⟨fun _ => rfl, fun _ => rfl⟩
  | true =>
    constructor
    · intro h
      unfold insertBatchRow insertEventIdRows at h
      rw [hpayload, hdatabase, if_neg (by decide)] at h
      split at h
      · cases h
      · change (if _ then _ else _) = _ at h
        split at h <;> cases h
    · intro h
      cases h

section

variable (hsend : SendsDatabaseText sendText)
include hsend

theorem resolveParents_database {transaction : Transaction} {batch : RichTextEventBatch}
    (h : resolveParents sendText documentId transaction batch = .error .database) :
    isDatabaseBatch batch = false := by
  cases hdatabase : isDatabaseBatch batch with
  | false => rfl
  | true =>
    dsimp only [resolveParents] at h
    rw [storedParents_database hsend (isDatabaseText_required hdatabase)] at h
    split at h
    · cases h
    · change (if _ = _ then _ else _) = _ at h
      split at h <;> cases h

theorem appendBatch_database {transaction : Transaction}
    {batch : RichTextEventBatch} {hashes : List (Text × Text)} :
    appendBatch sha256 sendText documentId call hashes transaction batch = .error .database ↔
      isDatabaseBatch batch = false ∧
        (resolveParents sendText documentId transaction batch = .error .database ∨
          (∃ resolved, resolveParents sendText documentId transaction batch = .ok resolved) ∧
            hashes.lookup batch.batchId = none) := by
  unfold appendBatch
  cases hresolve : resolveParents sendText documentId transaction batch with
  | error error =>
    constructor
    · intro h
      cases h
      exact ⟨resolveParents_database hsend hresolve, Or.inl rfl⟩
    · rintro ⟨-, h | ⟨⟨resolved, h⟩, -⟩⟩
      · exact h
      · cases h
  | ok resolved =>
    dsimp only [bind, Except.bind]
    cases hlookup : hashes.lookup batch.batchId with
    | some existingHash =>
      constructor
      · intro h
        dsimp only at h
        split at h <;> cases h
      · rintro ⟨-, h | ⟨-, h⟩⟩ <;> cases h
    | none =>
      dsimp only
      constructor
      · intro h
        refine ⟨?_, Or.inr ⟨⟨resolved, rfl⟩, rfl⟩⟩
        cases hcreate : createBatch sha256 call resolved.log batch with
        | ok created =>
          rw [hcreate] at h
          cases h
        | error error =>
          rw [hcreate] at h
          cases h
          exact createBatch_database.mp hcreate
      · intro h
        rw [createBatch_database.mpr h.1]

omit hsend in
theorem existingBatchHashes_error {error : AppendError}
    (h : existingBatchHashes sendText log call.batches = .error error) :
    error = .database ∧ sendTexts sendText (call.batches.map (·.batchId)) = .error .database := by
  unfold existingBatchHashes at h
  cases hsent : sendTexts sendText (call.batches.map (·.batchId)) with
  | ok sent =>
    rw [hsent] at h
    cases h
  | error failure =>
    rw [hsent] at h
    have hfailure := sendTexts_error hsent
    cases h
    exact ⟨hfailure, congrArg Except.error hfailure⟩

theorem appendTransaction_database :
    appendTransaction sha256 sendText documentId call log = .error .database ↔
      StopsAtDatabase sha256 sendText documentId call log := by
  unfold StopsAtDatabase
  by_cases hnodup : (incomingEventIds call.batches).Nodup
  · cases haccess : hasWriteAccess call.role.toList with
    | false =>
      have hrefused : appendTransaction sha256 sendText documentId call log =
          .error (.authorization (text "actor no longer has document write access")) := by
        unfold appendTransaction
        rw [if_neg (not_not.mpr hnodup), haccess]
        rfl
      rw [hrefused]
      constructor
      · intro h
        cases h
      · intro h
        cases h.2.1
    | true =>
      cases hprefetch : existingBatchHashes sendText log call.batches with
      | error error =>
        obtain ⟨rfl, hsent⟩ := existingBatchHashes_error hprefetch
        have hfailed : appendTransaction sha256 sendText documentId call log =
            .error .database := by
          unfold appendTransaction
          rw [if_neg (not_not.mpr hnodup), haccess, if_neg (by decide), hprefetch]
          rfl
        exact ⟨fun _ => ⟨hnodup, rfl, Or.inl hsent⟩, fun _ => hfailed⟩
      | ok hashes =>
        rw [appendTransaction_walk hnodup haccess hprefetch]
        constructor
        · intro h
          cases hwalk : call.batches.foldlM
              (appendBatch sha256 sendText documentId call hashes) ⟨log, []⟩ with
          | ok done =>
            rw [hwalk] at h
            cases h
          | error error =>
            rw [hwalk] at h
            cases h
            obtain ⟨before, batch, after, transaction, heq, hbefore, hbatch⟩ :=
              foldlM_eq_error.mp hwalk
            exact ⟨hnodup, rfl, Or.inr ⟨hashes, before, batch, after, transaction, rfl, heq,
              hbefore, (appendBatch_database hsend).mp hbatch⟩⟩
        · rintro ⟨-, -, hsent | ⟨found, before, batch, after, transaction, hfound, heq, hbefore,
            hbatch⟩⟩
          · unfold existingBatchHashes at hprefetch
            rw [hsent] at hprefetch
            cases hprefetch
          · cases hfound
            rw [foldlM_eq_error.mpr ⟨before, batch, after, transaction, heq, hbefore,
              (appendBatch_database hsend).mpr hbatch⟩]
            rfl
  · have hrefused : appendTransaction sha256 sendText documentId call log =
        .error (duplicateIncomingEventId documentId call.batches) := by
      unfold appendTransaction
      rw [if_pos hnodup]
      rfl
    rw [hrefused]
    constructor
    · intro h
      cases h
    · intro h
      exact absurd h.1 hnodup

omit hsend in
/-- A verification of a request whose IDs could be asked for does not fail. -/
theorem verify_not_error {sent : List Text} {batches : List RichTextEventBatch}
    (h : sendTexts sendText (batches.map (·.batchId)) = .ok sent) (logs : List EventLog) :
    ∃ verified, verifyExistingBatchesWithRetry sha256 sendText batches logs = .ok verified := by
  induction logs with
  | nil => exact ⟨false, rfl⟩
  | cons later logs ih =>
    have hread : ∃ verified, verifyExistingBatches sha256 sendText later batches =
        .ok verified := by
      unfold verifyExistingBatches existingBatchHashes
      rw [h]
      exact ⟨_, rfl⟩
    obtain ⟨verified, hread⟩ := hread
    rw [verifyExistingBatchesWithRetry, hread]
    cases verified with
    | true => exact ⟨true, rfl⟩
    | false => exact ih

omit hsend in
theorem prefetch_of_uniqueViolation
    (h : appendTransaction sha256 sendText documentId call log = .error .uniqueViolation) :
    ∃ sent, sendTexts sendText (call.batches.map (·.batchId)) = .ok sent := by
  cases hsent : sendTexts sendText (call.batches.map (·.batchId)) with
  | ok sent => exact ⟨sent, rfl⟩
  | error error =>
    have hfailure := sendTexts_error hsent
    unfold appendTransaction existingBatchHashes at h
    rw [hsent] at h
    split at h
    · cases h
    · split at h
      · cases h
      · have hsame : error = .uniqueViolation := Except.error.inj h
        rw [hfailure] at hsame
        cases hsame

theorem prismaAppend_unavailable (logs : List EventLog) :
    (∃ error, prismaAppend sha256 sendText documentId call log logs = .error error ∧
        error.kind = .unavailable) ↔ StopsAtDatabase sha256 sendText documentId call log := by
  rw [← appendTransaction_database hsend]
  cases htransaction : appendTransaction sha256 sendText documentId call log with
  | ok appended =>
    rw [prismaAppend_of_ok htransaction]
    constructor
    · rintro ⟨_, h, -⟩
      cases h
    · intro h
      cases h
  | error error =>
    by_cases hviolation : error = .uniqueViolation
    · rw [hviolation] at htransaction ⊢
      obtain ⟨sent, hsent⟩ := prefetch_of_uniqueViolation htransaction
      have hread : ∃ verified, verifyExistingBatchesWithRetry sha256 sendText call.batches logs =
          .ok verified := verify_not_error hsent logs
      obtain ⟨verified, hverify⟩ := hread
      constructor
      · rintro ⟨error, h, hkind⟩
        cases verified with
        | true =>
          unfold prismaAppend appendEventBatches at h
          rw [htransaction, hverify] at h
          cases h
        | false =>
          rw [prismaAppend_of_uniqueViolation htransaction hverify] at h
          rw [← Except.error.inj h] at hkind
          cases hkind
      · intro h
        cases h
    · rw [prismaAppend_of_error htransaction hviolation]
      constructor
      · rintro ⟨other, h, hkind⟩
        rw [← Except.error.inj h] at hkind
        cases error with
        | uniqueViolation => exact absurd rfl hviolation
        | conflict message details => cases hkind
        | authorization message => cases hkind
        | database => rfl
      · intro h
        cases h
        exact ⟨_, rfl, rfl⟩

theorem agree_refused_iff (h : ¬ AllDatabase call) (logs : List EventLog) :
    Agree (prismaAppend sha256 sendText documentId call log logs)
        (supabaseAppend collation documentId sha256 call log) ↔
      StopsAtDatabase sha256 sendText documentId call log := by
  rw [supabaseAppend_refused h, ← prismaAppend_unavailable hsend logs]
  cases prismaAppend sha256 sendText documentId call log logs with
  | ok done =>
    constructor
    · intro hagree
      exact hagree.elim
    · rintro ⟨_, hother, -⟩
      cases hother
  | error error =>
    constructor
    · intro hagree
      exact ⟨error, rfl, hagree.1⟩
    · rintro ⟨other, hother, hkind⟩
      cases hother
      refine ⟨hkind, ?_⟩
      cases error with
      | conflict message details => cases hkind
      | authorization message => rfl
      | unavailable message => rfl

end

end Refused

end Agreement

end Softmaple.EventStore
