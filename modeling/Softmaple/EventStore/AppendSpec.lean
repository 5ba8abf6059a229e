import Softmaple.EventStore.AppendSteps
import Softmaple.EventStore.RpcAppend

/-!
What an append is for, without the bookkeeping of either store: a batch joins
the log when its parents are there, its ID carries no other payload and its
events are new. Both loops, over a set of available IDs with a prefetched map
of hashes and over arrays with one lookup a turn, refine it.
-/
namespace Softmaple.EventStore

open BlockModel StateMethod List

section Spec

variable (sha256 : Text → Text) (call : AppendCall)

def withBatch (log : EventLog) (batch : RichTextEventBatch) : EventLog where
  batches := log.batches ++ [batchRow sha256 call log batch]
  eventIds := log.eventIds ++ batch.eventIds.map fun eventId => ⟨eventId, nextRowId log call.skipped⟩

def storedRow (log : EventLog) (batchId : Text) : Option BatchRow :=
  log.batches.find? fun row => decide (row.batchId = batchId)

open Classical in
noncomputable def storeBatch (log : EventLog) (batch : RichTextEventBatch) :
    Except EventConflictType EventLog :=
  if Grounded log.storedEventIds batch then
    match storedRow log batch.batchId with
    | some row =>
      if row.payloadHash = hashBatch sha256 batch then .ok log else .error .batchPayloadConflict
    | none =>
      if (log.storedEventIds ++ batch.eventIds).Nodup then .ok (withBatch sha256 call log batch)
      else .error .storedEventIdConflict
  else .error .missingParentHistory

noncomputable def storeBatches (log : EventLog) (batches : List RichTextEventBatch) :
    Except EventConflictType EventLog :=
  batches.foldlM (storeBatch sha256 call) log

def Refines {ε σ : Type} (conflictOf : ε → Option EventConflictType) (logOf : σ → EventLog) :
    Except ε σ → Except EventConflictType EventLog → Prop
  | .ok state, .ok log => logOf state = log
  | .error error, .error conflictType => conflictOf error = some conflictType
  | _, _ => False

/-- Refinement follows the steps of a computation. -/
theorem Refines.bind {ε σ τ : Type} {conflictOf : ε → Option EventConflictType}
    {logOf : σ → EventLog} {lastOf : τ → EventLog} {result : Except ε σ}
    {spec : Except EventConflictType EventLog} {next : σ → Except ε τ}
    {specNext : EventLog → Except EventConflictType EventLog}
    (h : Refines conflictOf logOf result spec)
    (hnext : ∀ state, result = .ok state → spec = .ok (logOf state) →
      Refines conflictOf lastOf (next state) (specNext (logOf state))) :
    Refines conflictOf lastOf (result >>= next) (spec >>= specNext) := by
  cases result with
  | error error =>
    cases spec with
    | error conflictType => exact h
    | ok log => exact h.elim
  | ok state =>
    cases spec with
    | error conflictType => exact h.elim
    | ok log =>
      have hlog : logOf state = log := h
      have hrest := hnext state rfl (by rw [hlog])
      rw [hlog] at hrest
      exact hrest

theorem Refines.map {ε σ τ : Type} {conflictOf : ε → Option EventConflictType}
    {logOf : σ → EventLog} {lastOf : τ → EventLog} {result : Except ε σ}
    {spec : Except EventConflictType EventLog} (h : Refines conflictOf logOf result spec)
    {next : σ → τ} (hnext : ∀ state, lastOf (next state) = logOf state) :
    Refines conflictOf lastOf (result.map next) spec := by
  cases result with
  | error error =>
    cases spec with
    | error conflictType => exact h
    | ok log => exact h.elim
  | ok state =>
    cases spec with
    | error conflictType => exact h.elim
    | ok log => exact (hnext state).trans h

end Spec

section Facts

variable {sha256 : Text → Text} {call : AppendCall} {traffic : Set RichTextEventBatch}
  {log appended : EventLog} {batch : RichTextEventBatch} {isSafeLinkUrl : Text → Bool}

theorem storedRow_some {batchId : Text} {row : BatchRow} (h : storedRow log batchId = some row) :
    row ∈ log.batches ∧ row.batchId = batchId := by
  refine ⟨mem_of_find?_eq_some h, ?_⟩
  simpa using find?_some h

theorem storedRow_none {batchId : Text} :
    storedRow log batchId = none ↔ ∀ row ∈ log.batches, row.batchId ≠ batchId := by
  rw [storedRow, find?_eq_none]
  exact forall_congr' fun row => forall_congr' fun _ => by rw [decide_eq_true_eq]

theorem storedRow_withBatch {batchId : Text} (h : batchId ≠ batch.batchId) :
    storedRow (withBatch sha256 call log batch) batchId = storedRow log batchId := by
  have hnew : decide ((batchRow sha256 call log batch).batchId = batchId) = false :=
    decide_eq_false fun heq => h heq.symm
  rw [storedRow, withBatch, find?_append, find?_cons, hnew]
  exact Option.or_none

theorem storedEventIds_withBatch :
    (withBatch sha256 call log batch).storedEventIds = log.storedEventIds ++ batch.eventIds := by
  rw [EventLog.storedEventIds, withBatch, map_append, map_map]
  exact congrArg _ (map_id _)

section

variable (h : storeBatch sha256 call log batch = .ok appended)
include h

theorem storeBatch_eq_ok : Grounded log.storedEventIds batch ∧
      ((∃ row, storedRow log batch.batchId = some row ∧
          row.payloadHash = hashBatch sha256 batch ∧ appended = log) ∨
        storedRow log batch.batchId = none ∧ (log.storedEventIds ++ batch.eventIds).Nodup ∧
          appended = withBatch sha256 call log batch) := by
  unfold storeBatch at h
  split at h
  · next hgrounded =>
      refine ⟨hgrounded, ?_⟩
      split at h
      · next row hrow =>
          split at h
          · next hhash => exact Or.inl ⟨row, hrow, hhash, (Except.ok.inj h).symm⟩
          · cases h
      · next hnone =>
          split at h
          · next hnodup => exact Or.inr ⟨hnone, hnodup, (Except.ok.inj h).symm⟩
          · cases h
  · cases h

theorem storedRow_of_storeBatch {batchId : Text}
    (hne : batchId ≠ batch.batchId) : storedRow appended batchId = storedRow log batchId := by
  obtain ⟨-, hexisting | hcreated⟩ := storeBatch_eq_ok h
  · obtain ⟨row, -, -, rfl⟩ := hexisting
    rfl
  · rw [hcreated.2.2]
    exact storedRow_withBatch hne

omit h in
theorem storeBatch_keeps (hcollision : CollisionFree sha256 traffic) (hcarried : batch ∈ traffic)
    (hdatabase : isDatabaseBatch batch = true) (hinv : LogInvariant sha256 traffic log)
    (h : storeBatch sha256 call log batch = .ok appended) :
    LogInvariant sha256 traffic appended ∧ log.batches <+: appended.batches ∧
      Holds appended batch := by
  obtain ⟨hgrounded, hexisting | hcreated⟩ := storeBatch_eq_ok h
  · obtain ⟨row, hrow, hhash, rfl⟩ := hexisting
    have hmem := (storedRow_some hrow).1
    rw [hinv.payloadHash row hmem] at hhash
    exact ⟨hinv, prefix_refl _, row, hmem,
      hashBatch_injOn hcollision (hinv.carried row hmem) hcarried hhash⟩
  · obtain ⟨hnone, hnodup, rfl⟩ := hcreated
    have hcreate : createBatch sha256 call log batch = .ok (withBatch sha256 call log batch) :=
      createBatch_eq_ok.mpr ⟨hdatabase, storedRow_none.mp hnone, hnodup, rfl⟩
    exact ⟨hinv.create hcarried hgrounded hcreate, prefix_append _ _, _,
      mem_append_right _ (mem_singleton_self _), rfl⟩

theorem storedEventIds_of_storeBatch :
    ∀ id ∈ appended.storedEventIds, id ∈ log.storedEventIds ∨ id ∈ batch.eventIds := by
  intro id hid
  obtain ⟨-, hexisting | hcreated⟩ := storeBatch_eq_ok h
  · obtain ⟨row, -, -, rfl⟩ := hexisting
    exact Or.inl hid
  · rw [hcreated.2.2, storedEventIds_withBatch] at hid
    exact mem_append.mp hid

end

theorem storedEventIds_of_storeBatches {batches : List RichTextEventBatch}
    (h : storeBatches sha256 call log batches = .ok appended) :
    ∀ id ∈ appended.storedEventIds, id ∈ log.storedEventIds ∨ id ∈ incomingEventIds batches := by
  induction batches generalizing log with
  | nil =>
    cases h
    exact fun id hid => Or.inl hid
  | cons batch batches ih =>
    rw [storeBatches, foldlM_cons] at h
    obtain ⟨next, hnext, hrest⟩ := except_bind_eq_ok.mp h
    intro id hid
    rw [incomingEventIds, flatMap_cons, mem_append]
    cases ih hrest id hid with
    | inl hold =>
      exact (storedEventIds_of_storeBatch hnext id hold).imp_right Or.inl
    | inr hmore => exact Or.inr (Or.inr hmore)

/-- Where a walk fails: a prefix was accepted and the next batch was not. -/
theorem foldlM_eq_error {ε σ α : Type} {step : σ → α → Except ε σ} {items : List α} {state : σ}
    {error : ε} : items.foldlM step state = .error error ↔
      ∃ before item after middle, items = before ++ item :: after ∧
        before.foldlM step state = .ok middle ∧ step middle item = .error error := by
  induction items generalizing state with
  | nil =>
    constructor
    · intro h
      cases h
    · rintro ⟨before, item, after, middle, heq, -⟩
      cases before <;> cases heq
  | cons first items ih =>
    rw [foldlM_cons]
    cases hfirst : step state first with
    | error failure =>
      constructor
      · intro h
        exact ⟨[], first, items, state, rfl, rfl, hfirst.trans h⟩
      · rintro ⟨before, item, after, middle, heq, hbefore, hitem⟩
        cases before with
        | nil =>
          cases heq
          cases hbefore
          exact hfirst.symm.trans hitem
        | cons other before =>
          cases heq
          rw [foldlM_cons, hfirst] at hbefore
          cases hbefore
    | ok next =>
      change items.foldlM step next = _ ↔ _
      rw [ih]
      constructor
      · rintro ⟨before, item, after, middle, heq, hbefore, hitem⟩
        refine ⟨first :: before, item, after, middle, by rw [heq, cons_append], ?_, hitem⟩
        rw [foldlM_cons, hfirst]
        exact hbefore
      · rintro ⟨before, item, after, middle, heq, hbefore, hitem⟩
        cases before with
        | nil =>
          cases heq
          cases hbefore
          rw [hfirst] at hitem
          cases hitem
        | cons other before =>
          cases heq
          rw [foldlM_cons, hfirst] at hbefore
          exact ⟨before, item, after, middle, rfl, hbefore, hitem⟩

end Facts

section Prisma

variable {sha256 : Text → Text} {sendText : Text → Option Text} {documentId : Text}
  {call : AppendCall} {traffic : Set RichTextEventBatch} {log : EventLog}
  {batch : RichTextEventBatch} {batches : List RichTextEventBatch} {transaction : Transaction}
  {hashes : List (Text × Text)} {isSafeLinkUrl : Text → Bool}

def AppendError.conflictOf : AppendError → Option EventConflictType
  | .conflict _ details => some details.conflictType
  | .uniqueViolation => some .storedEventIdConflict
  | .authorization _ | .database => none

def Prefetched (hashes : List (Text × Text)) (log : EventLog) (batchId : Text) : Prop :=
  hashes.lookup batchId = (storedRow log batchId).map (·.payloadHash)

theorem resolveParents_of_not_grounded (hsend : SendsDatabaseText sendText)
    (hinv : LogInvariant sha256 traffic transaction.log) (havailable : AvailableStored transaction)
    (hdatabase : isDatabaseBatch batch = true)
    (h : ¬ Grounded transaction.log.storedEventIds batch) :
    ∃ missing, resolveParents sendText documentId transaction batch =
      .error (missingParentHistory documentId batch missing) := by
  cases hresolve : resolveParents sendText documentId transaction batch with
  | ok resolved =>
    exact absurd (resolveParents_grounded hsend hinv havailable hdatabase hresolve) h
  | error error =>
    dsimp only [resolveParents] at hresolve
    rw [storedParents_database hsend (isDatabaseText_required hdatabase)] at hresolve
    split at hresolve
    · cases hresolve
    · change (if _ = _ then _ else _) = _ at hresolve
      split at hresolve
      · cases hresolve
      · exact ⟨_, congrArg Except.error (Except.error.inj hresolve).symm⟩

theorem insertBatchRow_ok (hdatabase : isDatabaseBatch batch = true)
    (hnone : storedRow log batch.batchId = none) :
    insertBatchRow log (batchRow sha256 call log batch) =
      .ok { log with batches := log.batches ++ [batchRow sha256 call log batch] } := by
  have hany : (log.batches.any fun stored =>
      decide (stored.batchId = (batchRow sha256 call log batch).batchId)) = false := by
    rw [any_eq_false]
    intro row hrow
    rw [decide_eq_true_eq]
    exact storedRow_none.mp hnone row hrow
  have hpayload : isDatabaseBatch (batchRow sha256 call log batch).payload = true := hdatabase
  rw [insertBatchRow, hpayload, if_neg (by decide), hany, if_neg (by decide)]

theorem createBatch_error (hdatabase : isDatabaseBatch batch = true)
    (hnone : storedRow log batch.batchId = none)
    (h : ¬ (log.storedEventIds ++ batch.eventIds).Nodup) :
    createBatch sha256 call log batch = .error .uniqueViolation := by
  dsimp only [createBatch]
  rw [insertBatchRow_ok hdatabase hnone]
  exact if_neg h

theorem appendBatch_refines (hsend : SendsDatabaseText sendText)
    (hinv : LogInvariant sha256 traffic transaction.log) (havailable : AvailableStored transaction)
    (hdatabase : isDatabaseBatch batch = true)
    (hprefetched : Prefetched hashes transaction.log batch.batchId) :
    Refines AppendError.conflictOf Transaction.log
      (appendBatch sha256 sendText documentId call hashes transaction batch)
      (storeBatch sha256 call transaction.log batch) := by
  by_cases hgrounded : Grounded transaction.log.storedEventIds batch
  · have hresolve : ∃ resolved,
        resolveParents sendText documentId transaction batch = .ok resolved :=
      resolveParents_of_grounded hsend hinv.eventIdsDistinct hdatabase hgrounded
    obtain ⟨resolved, hresolved⟩ := hresolve
    have hsame := (resolveParents_eq_ok hresolved).1
    unfold appendBatch storeBatch
    rw [if_pos hgrounded, hresolved]
    dsimp only [bind, Except.bind]
    rw [hprefetched]
    cases hrow : storedRow transaction.log batch.batchId with
    | some row =>
      dsimp only [Option.map_some]
      split
      · exact hsame
      · rfl
    | none =>
      dsimp only [Option.map_none]
      rw [hsame]
      by_cases hnodup : (transaction.log.storedEventIds ++ batch.eventIds).Nodup
      · have hcreate : createBatch sha256 call transaction.log batch =
            .ok (withBatch sha256 call transaction.log batch) :=
          createBatch_eq_ok.mpr ⟨hdatabase, storedRow_none.mp hrow, hnodup, rfl⟩
        rw [if_pos hnodup, hcreate]
        rfl
      · rw [if_neg hnodup, createBatch_error hdatabase hrow hnodup]
        rfl
  · have hmissing : ∃ missing, resolveParents sendText documentId transaction batch =
        .error (missingParentHistory documentId batch missing) :=
      resolveParents_of_not_grounded hsend hinv havailable hdatabase hgrounded
    obtain ⟨missing, hmissing⟩ := hmissing
    unfold appendBatch storeBatch
    rw [if_neg hgrounded, hmissing]
    rfl

theorem appendBatches_refine (hsend : SendsDatabaseText sendText)
    (hcollision : CollisionFree sha256 traffic) (hcarried : ∀ batch ∈ batches, batch ∈ traffic)
    (hdatabase : ∀ batch ∈ batches, isDatabaseBatch batch = true)
    (hdistinct : (batches.map (·.batchId)).Nodup)
    (hinv : LogInvariant sha256 traffic transaction.log) (havailable : AvailableStored transaction)
    (hhashes : HashesHeld sha256 hashes transaction.log)
    (hprefetched : ∀ batch ∈ batches, Prefetched hashes transaction.log batch.batchId) :
    Refines AppendError.conflictOf Transaction.log
      (batches.foldlM (appendBatch sha256 sendText documentId call hashes) transaction)
      (storeBatches sha256 call transaction.log batches) := by
  induction batches generalizing transaction with
  | nil => rfl
  | cons batch batches ih =>
    rw [forall_mem_cons] at hcarried hdatabase hprefetched
    rw [map_cons, nodup_cons] at hdistinct
    rw [storeBatches, foldlM_cons, foldlM_cons]
    apply Refines.bind (appendBatch_refines hsend hinv havailable hdatabase.1 hprefetched.1)
    intro next happend hstore
    obtain ⟨hnextInv, hnextAvailable, hgrows, -⟩ :=
      appendBatch_keeps hsend hcollision hcarried.1 hinv havailable hhashes happend
    apply ih hcarried.2 hdatabase.2 hdistinct.2 hnextInv hnextAvailable (hhashes.mono hgrows)
    intro other hother
    have hne : other.batchId ≠ batch.batchId := fun heq =>
      hdistinct.1 (heq ▸ mem_map_of_mem hother)
    rw [Prefetched, storedRow_of_storeBatch hstore hne]
    exact hprefetched.2 other hother

end Prisma

section Rpc

variable {sha256 : Text → Text} {collation : Text → Text → Prop} [DecidableRel collation]
  {documentId : Text} {call : AppendCall} {traffic : Set RichTextEventBatch} {log : EventLog}
  {batch : RichTextEventBatch} {batches : List RichTextEventBatch} {state done : RpcState}

def RpcError.conflictOf : RpcError → Option EventConflictType
  | .raised shape => match shape.kind with
      | .conflict => shape.conflictType
      | _ => none
  | .failed => none

def rpcBatch (sha256 : Text → Text) (batch : RichTextEventBatch) : RpcBatch :=
  ⟨batch, hashBatch sha256 batch⟩

structure WellFormedEntry (sha256 : Text → Text) (batch : RichTextEventBatch) : Prop where
  batchId : batch.batchId ≠ []
  hash : isPayloadHash (hashBatch sha256 batch) = true

theorem eventNeeds_congr {known seen other : List Text} {events : List RichTextEvent} {id : Text}
    (h : id ∈ seen ↔ id ∈ other) :
    EventNeeds known seen events id ↔ EventNeeds known other events id := by
  unfold EventNeeds
  rw [h]

theorem mem_rpcRequireParents {known required parentVersion : List Text} {id : Text} :
    id ∈ rpcRequireParents known required parentVersion ↔
      id ∈ required ∨ id ∈ parentVersion ∧ id ≠ BOOTSTRAP_EVENT_ID ∧ id ∉ known := by
  rw [rpcRequireParents, mem_append, mem_filter, decide_eq_true_eq]

theorem mem_rpcRequireEventParents {available required seen : List Text}
    {events : List RichTextEvent} {id : Text} :
    id ∈ (rpcRequireEventParents available required seen events).1 ↔
      id ∈ required ∨ EventNeeds available seen events id := by
  induction events generalizing required seen with
  | nil =>
    have hnone : ¬ EventNeeds available seen [] id := by
      rintro ⟨before, event, after, heq, -⟩
      cases before <;> cases heq
    rw [rpcRequireEventParents, or_iff_left hnone]
  | cons event events ih =>
    have hseen : id ∈ seen ++ [event.id] ↔ id ∈ addId seen event.id := by
      rw [mem_append, mem_singleton, mem_addId]
    rw [rpcRequireEventParents, ih, mem_rpcRequireParents, eventNeeds_cons, or_assoc,
      eventNeeds_congr hseen]

theorem rpcRequireEventParents_seen (available required seen : List Text)
    (events : List RichTextEvent) :
    (rpcRequireEventParents available required seen events).2 = seen ++ events.map (·.id) := by
  induction events generalizing required seen with
  | nil => rw [rpcRequireEventParents, map_nil, append_nil]
  | cons event events ih =>
    rw [rpcRequireEventParents, ih, map_cons, append_assoc, singleton_append]

theorem rpcMissingParents_seen (state : RpcState) (batch : RichTextEventBatch) :
    (rpcMissingParents collation state batch).2 = batch.eventIds :=
  rpcRequireEventParents_seen _ _ _ _

theorem rpcMissingParents_nil
    (havailable : ∀ id ∈ state.availableEventIds, id ∈ state.log.storedEventIds) :
    (rpcMissingParents collation state batch).1 = [] ↔
      Grounded state.log.storedEventIds batch := by
  have hnil : (rpcMissingParents collation state batch).1 = [] ↔
      ∀ id ∈ requiredParentIds state.availableEventIds batch, id ∈ state.log.storedEventIds := by
    rw [rpcMissingParents, ← length_eq_zero_iff, length_insertionSort,
      length_eq_zero_iff, filter_eq_nil_iff]
    apply forall_congr'
    intro id
    rw [mem_dedup, mem_rpcRequireEventParents, mem_rpcRequireParents, mem_requiredParentIds,
      mem_nil_iff, false_or, decide_eq_true_eq, not_not]
  rw [hnil]
  constructor
  · intro hstored
    exact grounded_of_required havailable hstored
  · intro hgrounded id hid
    exact required_of_grounded hgrounded hid

theorem rpcRow_rpcBatch (batch : RichTextEventBatch) :
    rpcRow call log (rpcBatch sha256 batch) = batchRow sha256 call log batch := rfl

theorem rpcStoreBatch_refines (hdatabase : isDatabaseBatch batch = true)
    (hgrounded : Grounded log.storedEventIds batch) (seen : List Text) :
    Refines RpcError.conflictOf id (rpcStoreBatch documentId call log (rpcBatch sha256 batch) seen)
      (storeBatch sha256 call log batch) := by
  unfold rpcStoreBatch storeBatch
  rw [if_pos hgrounded]
  rw [show log.batches.find? (fun row => decide (row.batchId = (rpcBatch sha256 batch).payload.batchId)) =
    storedRow log batch.batchId from rfl]
  cases hrow : storedRow log batch.batchId with
  | some row =>
    dsimp only
    by_cases hhash : row.payloadHash = (rpcBatch sha256 batch).payloadHash
    · rw [if_pos hhash, if_pos (show row.payloadHash = hashBatch sha256 batch from hhash)]
      rfl
    · rw [if_neg hhash, if_neg (show ¬ row.payloadHash = hashBatch sha256 batch from hhash)]
      rfl
  | none =>
    unfold rpcInsertBatch
    dsimp only
    rw [rpcRow_rpcBatch, insertBatchRow_ok hdatabase hrow]
    dsimp only [insertEventIdRows, rpcBatch]
    have hstored : (EventLog.mk (log.batches ++ [batchRow sha256 call log batch])
        log.eventIds).storedEventIds = log.storedEventIds := rfl
    rw [hstored]
    by_cases hnodup : (log.storedEventIds ++ batch.eventIds).Nodup
    · rw [if_pos hnodup, if_pos hnodup]
      rfl
    · rw [if_neg hnodup, if_neg hnodup]
      rfl

theorem rpcAppendBatch_refines (hentry : WellFormedEntry sha256 batch)
    (hdatabase : isDatabaseBatch batch = true)
    (havailable : ∀ id ∈ state.availableEventIds, id ∈ state.log.storedEventIds) :
    Refines RpcError.conflictOf RpcState.log
      (rpcAppendBatch collation documentId call state (rpcBatch sha256 batch))
      (storeBatch sha256 call state.log batch) := by
  have hvalid : ¬ ((rpcBatch sha256 batch).payload.batchId = [] ∨
      isPayloadHash (rpcBatch sha256 batch).payloadHash = false) := by
    rw [not_or, Bool.not_eq_false]
    exact ⟨hentry.batchId, hentry.hash⟩
  unfold rpcAppendBatch
  rw [if_neg hvalid]
  dsimp only
  by_cases hmissing : (rpcMissingParents collation state (rpcBatch sha256 batch).payload).1 = []
  · have hgrounded := (rpcMissingParents_nil havailable).mp hmissing
    rw [if_neg (not_not.mpr hmissing), ← bind_pure (storeBatch sha256 call state.log batch)]
    apply Refines.bind (rpcStoreBatch_refines hdatabase hgrounded _)
    intro stored hstored hspec
    rfl
  · rw [if_pos hmissing]
    have hnot : ¬ Grounded state.log.storedEventIds batch := fun hgrounded =>
      hmissing ((rpcMissingParents_nil havailable).mpr hgrounded)
    unfold storeBatch
    rw [if_neg hnot]
    rfl

/-- What a turn that returned leaves beside the log. -/
theorem rpcAppendBatch_eq_ok
    (h : rpcAppendBatch collation documentId call state (rpcBatch sha256 batch) = .ok done) :
    done.availableEventIds = state.availableEventIds ++ batch.eventIds ∧
      done.batchIds = state.batchIds ++ [batch.batchId] := by
  unfold rpcAppendBatch at h
  split at h
  · cases h
  · dsimp only at h
    split at h
    · cases h
    · obtain ⟨log, -, h⟩ := except_bind_eq_ok.mp h
      rw [← Except.ok.inj h]
      exact ⟨congrArg _ (rpcMissingParents_seen state batch), rfl⟩

theorem storedEventIds_subset (hcollision : CollisionFree sha256 traffic)
    (hcarried : batch ∈ traffic) (hdatabase : isDatabaseBatch batch = true)
    (hinv : LogInvariant sha256 traffic log) {appended : EventLog}
    (h : storeBatch sha256 call log batch = .ok appended) :
    ∀ id, id ∈ log.storedEventIds ∨ id ∈ batch.eventIds → id ∈ appended.storedEventIds := by
  obtain ⟨hkept, -, hholds⟩ := storeBatch_keeps hcollision hcarried hdatabase hinv h
  intro id hid
  cases hid with
  | inr hbatch => exact hkept.eventIds_mem hholds id hbatch
  | inl hold =>
    obtain ⟨-, hexisting | hcreated⟩ := storeBatch_eq_ok h
    · obtain ⟨row, -, -, rfl⟩ := hexisting
      exact hold
    · rw [hcreated.2.2, storedEventIds_withBatch]
      exact mem_append_left _ hold

theorem rpcAppendBatches_refine (hcollision : CollisionFree sha256 traffic)
    (hcarried : ∀ batch ∈ batches, batch ∈ traffic)
    (hdatabase : ∀ batch ∈ batches, isDatabaseBatch batch = true)
    (hentries : ∀ batch ∈ batches, WellFormedEntry sha256 batch)
    (hinv : LogInvariant sha256 traffic state.log)
    (havailable : ∀ id ∈ state.availableEventIds, id ∈ state.log.storedEventIds) :
    Refines RpcError.conflictOf RpcState.log
      ((batches.map (rpcBatch sha256)).foldlM (rpcAppendBatch collation documentId call) state)
      (storeBatches sha256 call state.log batches) ∧
    ∀ done, (batches.map (rpcBatch sha256)).foldlM (rpcAppendBatch collation documentId call) state =
      .ok done → done.batchIds = state.batchIds ++ batches.map (·.batchId) := by
  induction batches generalizing state with
  | nil =>
    refine ⟨rfl, ?_⟩
    intro done h
    cases h
    rw [map_nil, append_nil]
  | cons batch batches ih =>
    rw [forall_mem_cons] at hcarried hdatabase hentries
    have hturn : Refines RpcError.conflictOf RpcState.log
        (rpcAppendBatch collation documentId call state (rpcBatch sha256 batch))
        (storeBatch sha256 call state.log batch) :=
      rpcAppendBatch_refines hentries.1 hdatabase.1 havailable
    -- After a turn that returned, the rest of the walk is in the same position.
    have hrest : ∀ next, rpcAppendBatch collation documentId call state (rpcBatch sha256 batch) =
        .ok next → storeBatch sha256 call state.log batch = .ok next.log →
        LogInvariant sha256 traffic next.log ∧
          ∀ id ∈ next.availableEventIds, id ∈ next.log.storedEventIds := by
      intro next happend hstore
      refine ⟨(storeBatch_keeps hcollision hcarried.1 hdatabase.1 hinv hstore).1, ?_⟩
      intro id hid
      rw [(rpcAppendBatch_eq_ok happend).1] at hid
      exact storedEventIds_subset hcollision hcarried.1 hdatabase.1 hinv hstore id
        ((mem_append.mp hid).imp_left (havailable id))
    rw [map_cons, storeBatches, foldlM_cons, foldlM_cons]
    constructor
    · apply Refines.bind hturn
      intro next happend hstore
      obtain ⟨hnextInv, hnextAvailable⟩ := hrest next happend hstore
      exact (ih hcarried.2 hdatabase.2 hentries.2 hnextInv hnextAvailable).1
    · intro done h
      obtain ⟨next, happend, h⟩ := except_bind_eq_ok.mp h
      cases hstore : storeBatch sha256 call state.log batch with
      | error conflictType =>
        rw [happend, hstore] at hturn
        exact hturn.elim
      | ok log =>
        rw [happend, hstore] at hturn
        have hlog : next.log = log := hturn
        rw [← hlog] at hstore
        obtain ⟨hnextInv, hnextAvailable⟩ := hrest next happend hstore
        rw [(ih hcarried.2 hdatabase.2 hentries.2 hnextInv hnextAvailable).2 done h,
          (rpcAppendBatch_eq_ok happend).2, map_cons, append_assoc,
          singleton_append]

end Rpc

end Softmaple.EventStore
