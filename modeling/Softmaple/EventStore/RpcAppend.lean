import Softmaple.EventStore.EventLog

/-!
The same log through the migration `add_cloudflare_collab_rpc`:
`append_document_event_batches` and `read_document_event_page`, as the Worker
calls them (`collab-cloudflare/src/supabase-backend.ts`), and the errors both
hosts hand to the room (`collab-runtime/src/event-store.ts`). The RPC sorts by
the collation of the database.
-/
namespace Softmaple.EventStore

open BlockModel

inductive DocumentEventErrorKind where
  | authorization
  | conflict
  | unavailable
  deriving DecidableEq, Repr

inductive DocumentEventStoreError where
  | authorization (message : Text)
  | conflict (message : Text) (details : EventConflictDetails)
  | unavailable (message : Text)
  deriving DecidableEq, Repr

namespace DocumentEventStoreError

def kind : DocumentEventStoreError → DocumentEventErrorKind
  | .authorization _ => .authorization
  | .conflict _ _ => .conflict
  | .unavailable _ => .unavailable

def conflictType : DocumentEventStoreError → Option EventConflictType
  | .conflict _ details => some details.conflictType
  | _ => none

end DocumentEventStoreError

section Prisma

variable (sha256 : Text → Text) (sendText : Text → Option Text) (documentId : Text)

/-- `verifyExistingBatchesWithRetry` against the logs its reads find. -/
def verifyExistingBatchesWithRetry (batches : List RichTextEventBatch) :
    List EventLog → Except AppendError Bool
  | [] => .ok false
  | log :: later => do
      if ← verifyExistingBatches sha256 sendText log batches then return true
      else verifyExistingBatchesWithRetry batches later

/-- `appendEventBatches` on the log its transaction sees and the logs it may verify against. -/
def appendEventBatches (call : AppendCall) (log : EventLog) (later : List EventLog) :
    Except AppendError (EventLog × List Text) :=
  match appendTransaction sha256 sendText documentId call log with
  | .ok appended => .ok (appended, call.batches.map (·.batchId))
  | .error .uniqueViolation => do
      if ← verifyExistingBatchesWithRetry sha256 sendText call.batches later then
        return (log, call.batches.map (·.batchId))
      else throw (storedEventIdConflict documentId call.batches)
  | .error error => .error error

def unavailableStoreError (operation : String) : DocumentEventStoreError :=
  .unavailable (text s!"Document event {operation} is unavailable")

def prismaAppendError : AppendError → DocumentEventStoreError
  | .authorization message => .authorization message
  | .conflict message details => .conflict message details
  | .uniqueViolation | .database => unavailableStoreError "append"

def prismaAppend (call : AppendCall) (log : EventLog) (later : List EventLog) :
    Except DocumentEventStoreError (EventLog × List Text) :=
  (appendEventBatches sha256 sendText documentId call log later).mapError prismaAppendError

end Prisma

structure RpcErrorShape where
  kind : DocumentEventErrorKind
  conflictType : Option EventConflictType
  message : Option Text
  documentId : Option Text
  batchIds : Option (List Text)
  eventIds : Option (List Text)
  missingParentIds : Option (List Text)
  deriving DecidableEq, Repr

inductive RpcError where
  | raised (shape : RpcErrorShape)
  | failed
  deriving DecidableEq, Repr

structure RpcBatch where
  payload : RichTextEventBatch
  payloadHash : Text
  deriving DecidableEq, Repr

section Rpc

variable (collation : Text → Text → Prop) [DecidableRel collation] (documentId : Text)

def raiseUnavailable (message : String) : RpcError :=
  .raised ⟨.unavailable, none, some (text message), none, none, none, none⟩

def raiseConflict (conflictType : EventConflictType) (batchIds eventIds missingParentIds :
    Option (List Text)) : RpcError :=
  .raised ⟨.conflict, some conflictType, none, some documentId, batchIds, eventIds, missingParentIds⟩

def duplicateEventIds (eventIds : List Text) : List Text :=
  (eventIds.filter fun id => decide (1 < eventIds.count id)).dedup.insertionSort collation

/-- `^[0-9a-f]{64}$` -/
def isPayloadHash (hash : Text) : Bool :=
  decide (hash.length = 64) && hash.all fun unit =>
    Json.isDigit unit || (97 ≤ unit.val && unit.val ≤ 102)

def rpcRequireParents (known : List Text) (required parentVersion : List Text) : List Text :=
  required ++ parentVersion.filter fun id => decide (id ≠ BOOTSTRAP_EVENT_ID ∧ id ∉ known)

/-- The arrays `v_required_parent_ids` and `v_seen_in_batch` after the loop over the events. -/
def rpcRequireEventParents (available : List Text) :
    (required seenInBatch : List Text) → List RichTextEvent → List Text × List Text
  | required, seenInBatch, [] => (required, seenInBatch)
  | required, seenInBatch, event :: events =>
    rpcRequireEventParents available
      (rpcRequireParents (available ++ seenInBatch) required event.parentVersion)
      (seenInBatch ++ [event.id]) events

/-- The loop's variables that outlive a turn. -/
structure RpcState where
  log : EventLog
  availableEventIds : List Text
  batchIds : List Text

def rpcMissingParents (state : RpcState) (batch : RichTextEventBatch) : List Text × List Text :=
  let arrays := rpcRequireEventParents state.availableEventIds
    (rpcRequireParents state.availableEventIds [] batch.parentVersion) [] batch.events
  let missing := arrays.1.dedup.filter fun id => decide (id ∉ state.log.storedEventIds)
  (missing.insertionSort collation, arrays.2)

def rpcRow (call : AppendCall) (log : EventLog) (batch : RpcBatch) : BatchRow where
  id := nextRowId log call.skipped
  batchId := batch.payload.batchId
  schemaVersion := BLOCK_MODEL_SCHEMA_VERSION
  parentVersion := batch.payload.parentVersion
  payload := batch.payload
  payloadHash := batch.payloadHash
  actorId := call.actorId

def rpcPayloadConflict (batch : RpcBatch) : RpcError :=
  raiseConflict documentId .batchPayloadConflict (some [batch.payload.batchId]) none none

def rpcStoredEventIdConflict (batch : RpcBatch) (seenInBatch : List Text) : RpcError :=
  raiseConflict documentId .storedEventIdConflict (some [batch.payload.batchId]) (some seenInBatch)
    none

/-- The two inserts, each with its handler of `unique_violation`. -/
def rpcInsertBatch (call : AppendCall) (log : EventLog) (batch : RpcBatch)
    (seenInBatch : List Text) : Except RpcError EventLog :=
  match insertBatchRow log (rpcRow call log batch) with
  | .error .uniqueViolation => .error (rpcPayloadConflict documentId batch)
  | .error _ => .error .failed
  | .ok created =>
    match insertEventIdRows created (rpcRow call log batch).id batch.payload.eventIds with
    | .error .uniqueViolation => .error (rpcStoredEventIdConflict documentId batch seenInBatch)
    | .error _ => .error .failed
    | .ok log => .ok log

def rpcStoreBatch (call : AppendCall) (log : EventLog) (batch : RpcBatch)
    (seenInBatch : List Text) : Except RpcError EventLog :=
  match log.batches.find? fun row => decide (row.batchId = batch.payload.batchId) with
  | some row =>
    if row.payloadHash = batch.payloadHash then .ok log
    else .error (rpcPayloadConflict documentId batch)
  | none => rpcInsertBatch documentId call log batch seenInBatch

def rpcAppendBatch (call : AppendCall) (state : RpcState) (batch : RpcBatch) :
    Except RpcError RpcState :=
  if batch.payload.batchId = [] ∨ isPayloadHash batch.payloadHash = false then
    .error (raiseUnavailable "invalid event batch payload")
  else
    let (missing, seenInBatch) := rpcMissingParents collation state batch.payload
    if missing ≠ [] then
      .error (raiseConflict documentId .missingParentHistory (some [batch.payload.batchId]) none
        (some missing))
    else do
      let log ← rpcStoreBatch documentId call state.log batch seenInBatch
      return {
        log
        availableEventIds := state.availableEventIds ++ seenInBatch
        batchIds := state.batchIds ++ [batch.payload.batchId] }

/-- The cast to `jsonb` comes before the function; an exception rolls back. -/
def appendDocumentEventBatches (call : AppendCall) (batches : List RpcBatch) (log : EventLog) :
    Except RpcError (EventLog × List Text) :=
  let duplicates := duplicateEventIds collation (batches.flatMap (·.payload.eventIds))
  if (batches.all fun batch => isDatabaseBatch batch.payload) = false then .error .failed
  else if ¬ (1 ≤ batches.length ∧ batches.length ≤ 64) then
    .error (raiseUnavailable "batches must contain between 1 and 64 event batches")
  else if duplicates ≠ [] then
    .error (raiseConflict documentId .duplicateIncomingEventId none (some duplicates) none)
  else if ¬ (call.role = some .owner ∨ call.role = some .editor) then
    .error (.raised ⟨.authorization, none,
      some (text "actor no longer has document write access"), none, none, none, none⟩)
  else do
    let state ← batches.foldlM (rpcAppendBatch collation documentId call) ⟨log, [], []⟩
    return (state.log, state.batchIds)

/-- `appendError` of the Worker. -/
def rpcAppendError : RpcError → DocumentEventStoreError
  | .raised shape =>
    match shape.kind, shape.conflictType with
    | .authorization, _ =>
      .authorization (shape.message.getD (text "actor no longer has document write access"))
    | .conflict, some conflictType =>
      .conflict (text "document event conflict") {
        conflictType
        documentId := shape.documentId.getD documentId
        batchIds := shape.batchIds
        eventIds := shape.eventIds
        missingParentIds := shape.missingParentIds }
    | _, _ => unavailableStoreError "append"
  | .failed => unavailableStoreError "append"

variable (sha256 : Text → Text)

/-- `events.append` of the Worker. -/
def supabaseAppend (call : AppendCall) (log : EventLog) :
    Except DocumentEventStoreError (EventLog × List Text) :=
  let rpcBatches := call.batches.map fun payload => RpcBatch.mk payload (hashBatch sha256 payload)
  match appendDocumentEventBatches collation documentId call rpcBatches log with
  | .error error => .error (rpcAppendError documentId error)
  | .ok (appended, ids) =>
    if ids.length = call.batches.length then .ok (appended, ids)
    else .error (.unavailable (text "Document event append returned an invalid acknowledgement"))

end Rpc

section Read

/-- A text of digits as a `BIGINT` argument. -/
def bigintArgument (cursor : Text) : Option Nat :=
  (bigInt cursor).filter fun value => decide (value < 2 ^ 63)

def pageSize (limit : Option Int) : Nat := (min (max (limit.getD 100) 1) 100).toNat

/-- `read_document_event_page` of an argument that was cast. -/
def readDocumentEventPage (log : EventLog) (afterCursor : Nat) (limit : Option Int) : EventPage :=
  let size := pageSize limit
  let rows := (log.batches.filter fun row => decide (afterCursor < row.id)).take (size + 1)
  let pageRows := rows.take size
  { batches := pageRows.map (·.payload)
    nextCursor := Json.decimal (((pageRows.map (·.id)).max?).getD afterCursor)
    complete := decide (rows.length ≤ size) }

variable (isSafeLinkUrl : Text → Bool)

/-- `events.read` of the Worker; `none` where it throws. -/
def supabaseRead (log : EventLog) (afterCursor : Text) : Option EventPage := do
  let after ← bigintArgument afterCursor
  let page := readDocumentEventPage log after (some 100)
  if page.nextCursor = [] ∨ page.nextCursor.all Json.isDigit = false then none
  let batches ← page.batches.mapM fun batch => (parseBatch isSafeLinkUrl batch).toOption
  return { page with batches }

end Read

end Softmaple.EventStore
