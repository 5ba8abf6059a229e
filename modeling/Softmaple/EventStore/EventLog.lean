import Softmaple.BlockModel.Wire
import Softmaple.EventStore.BatchJson
import Softmaple.Lib.Paging

/-!
The durable event log of one document: the two tables of the migration
`add_document_event_batches`, and the append and the page read of the Nitro
host over them (`collab-nitro/server/utils/event-store.ts`). A transaction is
a function on the log; row IDs come from a sequence that other documents and
rolled back transactions advance too.
-/
namespace Softmaple.EventStore

open BlockModel List

inductive CollabRole where
  | owner
  | editor
  | viewer
  deriving DecidableEq, Repr

structure BatchRow where
  id : Nat
  batchId : Text
  schemaVersion : Nat
  parentVersion : List Text
  payload : RichTextEventBatch
  payloadHash : Text
  actorId : Text
  deriving DecidableEq, Repr

structure EventIdRow where
  eventId : Text
  batchRowId : Nat
  deriving DecidableEq, Repr

/-- `document_event_batches` and `document_event_ids` of one document, in row order. -/
structure EventLog where
  batches : List BatchRow
  eventIds : List EventIdRow
  deriving DecidableEq, Repr

namespace EventLog

def empty : EventLog := ⟨[], []⟩

def storedEventIds (log : EventLog) : List Text := log.eventIds.map (·.eventId)

def lastRowId (log : EventLog) : Nat := (log.batches.getLast?.map (·.id)).getD 0

end EventLog

/-- One append: the batches of the request, the role the member query finds, and how many
numbers of the sequence others took before each row. -/
structure AppendCall where
  actorId : Text
  batches : List RichTextEventBatch
  role : Option CollabRole
  skipped : Nat → Nat

inductive EventConflictType where
  | batchPayloadConflict
  | duplicateIncomingEventId
  | missingParentHistory
  | storedEventIdConflict
  deriving DecidableEq, Repr

structure EventConflictDetails where
  conflictType : EventConflictType
  documentId : Text
  batchIds : Option (List Text)
  eventIds : Option (List Text)
  missingParentIds : Option (List Text)
  deriving DecidableEq, Repr

/-- What `appendEventBatches` throws; `uniqueViolation` is Prisma's P2002 and `database` any
other error of the client. -/
inductive AppendError where
  | conflict (message : Text) (details : EventConflictDetails)
  | authorization (message : Text)
  | uniqueViolation
  | database
  deriving DecidableEq, Repr

section Tables

/-- Neither `text` nor `jsonb` holds U+0000 or an unpaired surrogate. -/
def isDatabaseText (value : Text) : Bool :=
  Utf8.wellFormed value && !value.contains (Utf8.unit 0)

def isDatabaseBatch (batch : RichTextEventBatch) : Bool :=
  Json.allStrings isDatabaseText (batchJson batch)

def nextRowId (log : EventLog) (skipped : Nat → Nat) : Nat :=
  log.lastRowId + 1 + skipped log.batches.length

/-- One row of `document_event_batches`; its batch ID is unique in the document. -/
def insertBatchRow (log : EventLog) (row : BatchRow) : Except AppendError EventLog :=
  if !isDatabaseBatch row.payload then .error .database
  else if log.batches.any fun stored => decide (stored.batchId = row.batchId) then
    .error .uniqueViolation
  else .ok { log with batches := log.batches ++ [row] }

/-- The rows of `document_event_ids` of one batch; an event ID is unique in the document. -/
def insertEventIdRows (log : EventLog) (batchRowId : Nat) (eventIds : List Text) :
    Except AppendError EventLog :=
  if (log.storedEventIds ++ eventIds).Nodup then
    .ok { log with eventIds := log.eventIds ++ eventIds.map fun eventId => ⟨eventId, batchRowId⟩ }
  else .error .uniqueViolation

end Tables

section Append

variable (sha256 : Text → Text) (sendText : Text → Option Text)

def hashBatch (batch : RichTextEventBatch) : Text := sha256 (canonicalJson (batchJson batch))

def sendTexts (texts : List Text) : Except AppendError (List Text) :=
  texts.mapM fun value => match sendText value with
    | some sent => .ok sent
    | none => .error .database

def existingBatchHashes (log : EventLog) (batches : List RichTextEventBatch) :
    Except AppendError (List (Text × Text)) := do
  let batchIds ← sendTexts sendText (batches.map (·.batchId))
  let existing := log.batches.filter fun row => decide (row.batchId ∈ batchIds)
  return existing.map fun row => (row.batchId, row.payloadHash)

def verifyExistingBatches (log : EventLog) (batches : List RichTextEventBatch) :
    Except AppendError Bool := do
  let hashes ← existingBatchHashes sendText log batches
  return batches.all fun batch =>
    decide (hashes.lookup batch.batchId = some (hashBatch sha256 batch))

def hasWriteAccess : List CollabRole → Bool
  | [.owner] | [.editor] => true
  | _ => false

/-- `Set.add` on a list in insertion order. -/
def addId (ids : List Text) (id : Text) : List Text := if id ∈ ids then ids else ids ++ [id]

def requireParents (known : List Text) (required parentVersion : List Text) : List Text :=
  parentVersion.foldl (fun required parentId =>
    if parentId ≠ BOOTSTRAP_EVENT_ID ∧ parentId ∉ known then addId required parentId
    else required) required

def requireEventParents (known : List Text) :
    (seenInBatch required : List Text) → List RichTextEvent → List Text
  | _, required, [] => required
  | seenInBatch, required, event :: events =>
    requireEventParents known (addId seenInBatch event.id)
      (requireParents (known ++ seenInBatch) required event.parentVersion) events

def requiredParentIds (available : List Text) (batch : RichTextEventBatch) : List Text :=
  requireEventParents available [] (requireParents available [] batch.parentVersion) batch.events

/-- The rows of `document_event_ids` a batch's required parents are found in. -/
def storedParents (log : EventLog) (required : List Text) : Except AppendError (List Text) := do
  let sent ← sendTexts sendText required
  return log.storedEventIds.filter fun eventId => decide (eventId ∈ sent)

structure Transaction where
  log : EventLog
  availableEventIds : List Text

variable (documentId : Text)

def missingParentHistory (batch : RichTextEventBatch) (missing : List Text) : AppendError :=
  .conflict (text "event batch references document history that has not been stored")
    { conflictType := .missingParentHistory
      documentId
      batchIds := some [batch.batchId]
      eventIds := none
      missingParentIds := some (missing.insertionSort (· ≤ ·)) }

def batchPayloadConflict (batch : RichTextEventBatch) : AppendError :=
  .conflict (text "conflicting payload for batch " ++ batch.batchId)
    { conflictType := .batchPayloadConflict
      documentId
      batchIds := some [batch.batchId]
      eventIds := none
      missingParentIds := none }

def resolveParents (transaction : Transaction) (batch : RichTextEventBatch) :
    Except AppendError Transaction := do
  let required := requiredParentIds transaction.availableEventIds batch
  if required = [] then return transaction
  else
    let stored ← storedParents sendText transaction.log required
    if stored.length = required.length then
      return { transaction with availableEventIds := stored.foldl addId transaction.availableEventIds }
    else
      throw (missingParentHistory documentId batch (required.filter fun id => decide (id ∉ stored)))

def batchRow (call : AppendCall) (log : EventLog) (batch : RichTextEventBatch) : BatchRow where
  id := nextRowId log call.skipped
  batchId := batch.batchId
  schemaVersion := BLOCK_MODEL_SCHEMA_VERSION
  parentVersion := batch.parentVersion
  payload := batch
  payloadHash := hashBatch sha256 batch
  actorId := call.actorId

/-- `create` and `createMany` of a batch that is new to the log. -/
def createBatch (call : AppendCall) (log : EventLog) (batch : RichTextEventBatch) :
    Except AppendError EventLog := do
  let row := batchRow sha256 call log batch
  let created ← insertBatchRow log row
  insertEventIdRows created row.id batch.eventIds

/-- One turn of the loop over the request. -/
def appendBatch (call : AppendCall) (existingHashes : List (Text × Text))
    (transaction : Transaction) (batch : RichTextEventBatch) :
    Except AppendError Transaction := do
  let resolved ← resolveParents sendText documentId transaction batch
  let available := batch.eventIds.foldl addId resolved.availableEventIds
  match existingHashes.lookup batch.batchId with
  | some existingHash =>
    if existingHash = hashBatch sha256 batch then
      return { resolved with availableEventIds := available }
    else throw (batchPayloadConflict documentId batch)
  | none =>
    let log ← createBatch sha256 call resolved.log batch
    return { log, availableEventIds := available }

def incomingEventIds (batches : List RichTextEventBatch) : List Text :=
  batches.flatMap (·.eventIds)

def duplicateIncomingEventId (batches : List RichTextEventBatch) : AppendError :=
  .conflict (text "duplicate event IDs in incoming batches")
    { conflictType := .duplicateIncomingEventId
      documentId
      batchIds := some (batches.map (·.batchId))
      eventIds := some (incomingEventIds batches)
      missingParentIds := none }

def storedEventIdConflict (batches : List RichTextEventBatch) : AppendError :=
  .conflict (text "event IDs conflict with stored document history")
    { conflictType := .storedEventIdConflict
      documentId
      batchIds := some (batches.map (·.batchId))
      eventIds := some (incomingEventIds batches)
      missingParentIds := none }

/-- `appendEventBatches` up to the end of its transaction; an error rolls back. -/
def appendTransaction (call : AppendCall) (log : EventLog) : Except AppendError EventLog := do
  if ¬ (incomingEventIds call.batches).Nodup then
    throw (duplicateIncomingEventId documentId call.batches)
  else if !hasWriteAccess call.role.toList then
    throw (.authorization (text "actor no longer has document write access"))
  else
    let existingHashes ← existingBatchHashes sendText log call.batches
    let transaction ← call.batches.foldlM
      (appendBatch sha256 sendText documentId call existingHashes) { log, availableEventIds := [] }
    return transaction.log

def CONFLICT_VERIFY_ATTEMPTS : Nat := 3

end Append

section Read

def REPAIR_PAGE_SIZE : Nat := 100

structure EventPage where
  batches : List RichTextEventBatch
  nextCursor : Text
  complete : Bool
  deriving DecidableEq, Repr

def bigInt (cursor : Text) : Option Nat :=
  if cursor ≠ [] ∧ cursor.all Json.isDigit then some (Json.readDecimal cursor) else none

variable (isSafeLinkUrl : Text → Bool)

/-- `readEventPage`; `none` where it throws. -/
def readEventPage (log : EventLog) (afterCursor : Text) : Option EventPage := do
  let after ← bigInt afterCursor
  let rows := (log.batches.filter fun row => decide (after < row.id)).take (REPAIR_PAGE_SIZE + 1)
  let pageRows := rows.take REPAIR_PAGE_SIZE
  let batches ← pageRows.mapM fun row => (parseBatch isSafeLinkUrl row.payload).toOption
  return {
    batches
    nextCursor := (pageRows.getLast?.map fun row => Json.decimal row.id).getD afterCursor
    complete := decide (rows.length ≤ REPAIR_PAGE_SIZE) }

end Read

end Softmaple.EventStore

namespace Softmaple.EventStore

open BlockModel StateMethod List

structure Grounded (stored : List Text) (batch : RichTextEventBatch) : Prop where
  ofBatch : ∀ parentId ∈ batch.parentVersion, parentId = BOOTSTRAP_EVENT_ID ∨ parentId ∈ stored
  ofEvents : ∀ before event after, batch.events = before ++ event :: after →
    ∀ parentId ∈ event.parentVersion,
      parentId = BOOTSTRAP_EVENT_ID ∨ parentId ∈ stored ∨ parentId ∈ before.map (·.id)

def ParentsFirst (batches : List RichTextEventBatch) : Prop :=
  ∀ before batch after, batches = before ++ batch :: after →
    Grounded (before.flatMap (·.eventIds)) batch

structure LogInvariant (sha256 : Text → Text) (traffic : Set RichTextEventBatch)
    (log : EventLog) : Prop where
  increasing : Paging.Increasing (·.id) log.batches
  positive : ∀ row ∈ log.batches, 0 < row.id
  carried : ∀ row ∈ log.batches, row.payload ∈ traffic
  database : ∀ row ∈ log.batches, isDatabaseBatch row.payload = true
  batchId : ∀ row ∈ log.batches, row.batchId = row.payload.batchId
  payloadHash : ∀ row ∈ log.batches, row.payloadHash = hashBatch sha256 row.payload
  eventIdRows : log.eventIds = log.batches.flatMap fun row =>
    row.payload.eventIds.map fun eventId => ⟨eventId, row.id⟩
  batchIdsDistinct : (log.batches.map (·.batchId)).Nodup
  eventIdsDistinct : log.storedEventIds.Nodup
  parentsFirst : ParentsFirst (log.batches.map (·.payload))

/-- No two batches of the traffic share a digest. -/
def CollisionFree (sha256 : Text → Text) (traffic : Set RichTextEventBatch) : Prop :=
  Set.InjOn sha256 ((fun batch => canonicalJson (batchJson batch)) '' traffic)

/-- The driver sends what the database can hold as it is. -/
def SendsDatabaseText (sendText : Text → Option Text) : Prop :=
  ∀ value, isDatabaseText value = true → sendText value = some value

def Holds (log : EventLog) (batch : RichTextEventBatch) : Prop :=
  ∃ row ∈ log.batches, row.payload = batch

theorem hashBatch_injOn {sha256 : Text → Text} {traffic : Set RichTextEventBatch}
    (h : CollisionFree sha256 traffic) {batch other : RichTextEventBatch} (hbatch : batch ∈ traffic)
    (hother : other ∈ traffic) (heq : hashBatch sha256 batch = hashBatch sha256 other) :
    batch = other :=
  canonicalBatch_injective (h (Set.mem_image_of_mem _ hbatch) (Set.mem_image_of_mem _ hother) heq)

section Grounding

variable {batch : RichTextEventBatch}

theorem Grounded.mono {stored more : List Text}
    (h : Grounded stored batch) (hsubset : ∀ id ∈ stored, id ∈ more) : Grounded more batch where
  ofBatch parentId hparent := (h.ofBatch parentId hparent).imp_right (hsubset parentId)
  ofEvents before event after hevents parentId hparent :=
    (h.ofEvents before event after hevents parentId hparent).imp_right
      (Or.imp_left (hsubset parentId))

theorem parentsFirst_nil : ParentsFirst [] := by
  intro before batch after h
  cases before <;> cases h

theorem ParentsFirst.append {batches : List RichTextEventBatch}
    (h : ParentsFirst batches) (hbatch : Grounded (batches.flatMap (·.eventIds)) batch) :
    ParentsFirst (batches ++ [batch]) := by
  intro before other after heq
  cases eq_nil_or_concat after with
  | inl hnil =>
    rw [hnil] at heq
    obtain ⟨hbefore, hother⟩ := append_inj' heq rfl
    rw [← hbefore, ← singleton_inj.mp hother]
    exact hbatch
  | inr hlast =>
    obtain ⟨middle, last, rfl⟩ := hlast
    rw [concat_eq_append, ← cons_append, ← append_assoc] at heq
    exact h before other middle (append_inj' heq rfl).1

theorem ParentsFirst.mem {batches : List RichTextEventBatch} (h : ParentsFirst batches)
    (hmem : batch ∈ batches) :
    Grounded (batches.flatMap (·.eventIds)) batch := by
  obtain ⟨before, after, heq⟩ := append_of_mem hmem
  apply (h before batch after heq).mono
  intro id hid
  rw [heq, flatMap_append]
  exact mem_append_left _ hid

end Grounding

section RequiredParents

variable {id : Text}

theorem mem_addId {ids : List Text} {other : Text} : id ∈ addId ids other ↔ id ∈ ids ∨ id = other := by
  unfold addId
  split
  · next hmem =>
      constructor
      · exact Or.inl
      · intro h
        cases h with
        | inl h => exact h
        | inr h => exact h ▸ hmem
  · rw [mem_append, mem_singleton]

theorem nodup_addId {ids : List Text} (h : ids.Nodup) : (addId ids id).Nodup := by
  unfold addId
  split
  · exact h
  · next hfresh => exact nodup_append.mpr ⟨h, nodup_singleton id, by
      intro held hheld other hother
      rw [mem_singleton.mp hother]
      exact fun heq => hfresh (heq ▸ hheld)⟩

theorem mem_foldl_addId {ids more : List Text} : id ∈ more.foldl addId ids ↔ id ∈ ids ∨ id ∈ more := by
  induction more generalizing ids with
  | nil => rw [foldl_nil, mem_nil_iff, or_false]
  | cons other more ih =>
    rw [foldl_cons, ih, mem_addId, mem_cons, or_assoc]

variable {known : List Text}

variable {required : List Text}

theorem mem_requireParents {parentVersion : List Text} : id ∈ requireParents known required parentVersion ↔
      id ∈ required ∨ id ∈ parentVersion ∧ id ≠ BOOTSTRAP_EVENT_ID ∧ id ∉ known := by
  induction parentVersion generalizing required with
  | nil =>
    rw [requireParents, foldl_nil]
    simp
  | cons parentId parentVersion ih =>
    rw [requireParents, foldl_cons]
    change id ∈ requireParents known _ parentVersion ↔ _
    rw [ih, mem_cons]
    split
    · next hneeded =>
        rw [mem_addId]
        constructor
        · rintro ((hrequired | rfl) | hrest)
          · exact Or.inl hrequired
          · exact Or.inr ⟨Or.inl rfl, hneeded⟩
          · exact Or.inr ⟨Or.inr hrest.1, hrest.2⟩
        · rintro (hrequired | ⟨rfl | hmem, hrest⟩)
          · exact Or.inl (Or.inl hrequired)
          · exact Or.inl (Or.inr rfl)
          · exact Or.inr ⟨hmem, hrest⟩
    · next hneeded =>
        constructor
        · rintro (hrequired | hrest)
          · exact Or.inl hrequired
          · exact Or.inr ⟨Or.inr hrest.1, hrest.2⟩
        · rintro (hrequired | ⟨rfl | hmem, hrest⟩)
          · exact Or.inl hrequired
          · exact absurd hrest hneeded
          · exact Or.inr ⟨hmem, hrest⟩

theorem nodup_requireParents {parentVersion : List Text} (h : required.Nodup) :
    (requireParents known required parentVersion).Nodup := by
  induction parentVersion generalizing required with
  | nil => exact h
  | cons parentId parentVersion ih =>
    rw [requireParents, foldl_cons]
    apply ih
    split
    · exact nodup_addId h
    · exact h

def EventNeeds (known seenInBatch : List Text) (events : List RichTextEvent) (id : Text) : Prop :=
  ∃ before event after, events = before ++ event :: after ∧ id ∈ event.parentVersion ∧
    id ≠ BOOTSTRAP_EVENT_ID ∧ id ∉ known ∧ id ∉ seenInBatch ∧ id ∉ before.map (·.id)

variable {seenInBatch : List Text} {events : List RichTextEvent}

theorem eventNeeds_cons {event : RichTextEvent} : EventNeeds known seenInBatch (event :: events) id ↔
      (id ∈ event.parentVersion ∧ id ≠ BOOTSTRAP_EVENT_ID ∧ id ∉ known ++ seenInBatch) ∨
        EventNeeds known (addId seenInBatch event.id) events id := by
  constructor
  · rintro ⟨before, other, after, heq, hparent, hroot, hknown, hseen, hbefore⟩
    cases before with
    | nil =>
      cases heq
      refine Or.inl ⟨hparent, hroot, ?_⟩
      rw [mem_append, not_or]
      exact ⟨hknown, hseen⟩
    | cons first before =>
      rw [cons_append] at heq
      injection heq with hfirst hrest
      rw [map_cons, mem_cons, not_or] at hbefore
      refine Or.inr ⟨before, other, after, hrest, hparent, hroot, hknown, ?_, hbefore.2⟩
      rw [mem_addId, not_or, hfirst]
      exact ⟨hseen, hbefore.1⟩
  · rintro (⟨hparent, hroot, hknown⟩ | ⟨before, other, after, heq, hparent, hroot, hknown, hseen,
      hbefore⟩)
    · rw [mem_append, not_or] at hknown
      exact ⟨[], event, events, rfl, hparent, hroot, hknown.1, hknown.2, not_mem_nil⟩
    · rw [mem_addId, not_or] at hseen
      refine ⟨event :: before, other, after, by rw [heq, cons_append], hparent, hroot, hknown,
        hseen.1, ?_⟩
      rw [map_cons, mem_cons, not_or]
      exact ⟨hseen.2, hbefore⟩

theorem mem_requireEventParents : id ∈ requireEventParents known seenInBatch required events ↔
      id ∈ required ∨ EventNeeds known seenInBatch events id := by
  induction events generalizing seenInBatch required with
  | nil =>
    have hnone : ¬ EventNeeds known seenInBatch [] id := by
      rintro ⟨before, event, after, heq, -⟩
      cases before <;> cases heq
    rw [requireEventParents, or_iff_left hnone]
  | cons event events ih =>
    rw [requireEventParents, ih, mem_requireParents, eventNeeds_cons, or_assoc]

theorem nodup_requireEventParents (h : required.Nodup) :
    (requireEventParents known seenInBatch required events).Nodup := by
  induction events generalizing seenInBatch required with
  | nil => exact h
  | cons event events ih => exact ih (nodup_requireParents h)

variable {batch : RichTextEventBatch} {available : List Text}

theorem mem_requiredParentIds : id ∈ requiredParentIds available batch ↔
      (id ∈ batch.parentVersion ∧ id ≠ BOOTSTRAP_EVENT_ID ∧ id ∉ available) ∨
        EventNeeds available [] batch.events id := by
  rw [requiredParentIds, mem_requireEventParents, mem_requireParents, mem_nil_iff, false_or]

theorem nodup_requiredParentIds (available : List Text) (batch : RichTextEventBatch) :
    (requiredParentIds available batch).Nodup :=
  nodup_requireEventParents (nodup_requireParents nodup_nil)

theorem grounded_of_required {stored : List Text} (havailable : ∀ id ∈ available, id ∈ stored)
    (hrequired : ∀ id ∈ requiredParentIds available batch, id ∈ stored) :
    Grounded stored batch where
  ofBatch parentId hparent := by
    by_contra hnot
    rw [not_or] at hnot
    refine hnot.2 (hrequired parentId (mem_requiredParentIds.mpr (Or.inl ⟨hparent, hnot.1, ?_⟩)))
    exact fun hmem => hnot.2 (havailable parentId hmem)
  ofEvents before event after hevents parentId hparent := by
    by_contra hnot
    rw [not_or, not_or] at hnot
    refine hnot.2.1 (hrequired parentId (mem_requiredParentIds.mpr (Or.inr ?_)))
    exact ⟨before, event, after, hevents, hparent, hnot.1,
      fun hmem => hnot.2.1 (havailable parentId hmem), not_mem_nil, hnot.2.2⟩

theorem required_of_grounded {stored : List Text}
    (h : Grounded stored batch) (hid : id ∈ requiredParentIds available batch) :
    id ∈ stored := by
  cases mem_requiredParentIds.mp hid with
  | inl hbatch => exact (h.ofBatch id hbatch.1).resolve_left hbatch.2.1
  | inr hevent =>
    obtain ⟨before, event, after, hevents, hparent, hroot, -, -, hbefore⟩ := hevent
    exact ((h.ofEvents before event after hevents id hparent).resolve_left hroot).resolve_right
      hbefore

end RequiredParents

end Softmaple.EventStore
