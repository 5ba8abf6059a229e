import Softmaple.DocSession.Interleaving

/-!
The controller of a document session (`apps/web/modules/docs/use-document-session.ts`)
as far as it decides which batches reach the replica: the batches it knows, the
binding it delivers to, and the repair of what it missed from the stored
history (`collab-nitro/server/utils/event-store.ts`). Frames arrive in any
order and late; an application that throws leaves what was done before it.
-/
namespace Softmaple.DocSession

open BlockModel StateMethod

structure EventRow where
  id : Nat
  batch : RichTextEventBatch
  deriving DecidableEq, Repr

structure EventPage where
  batches : List RichTextEventBatch
  nextCursor : Nat
  complete : Bool
  deriving DecidableEq, Repr

structure RepairRequest where
  requestId : Nat
  afterCursor : Nat
  deriving DecidableEq, Repr

structure RepairResponse where
  requestId : Nat
  page : EventPage
  deriving DecidableEq, Repr

def REPAIR_PAGE_SIZE : Nat := 100

/-- `readEventPage` over the rows in the order of their cursors. -/
def readEventPage (rows : List EventRow) (afterCursor : Nat) : EventPage :=
  let after := rows.filter fun row => decide (afterCursor < row.id)
  let pageRows := after.take REPAIR_PAGE_SIZE
  { batches := pageRows.map (·.batch)
    nextCursor := (pageRows.getLast?.map (·.id)).getD afterCursor
    complete := decide (after.length ≤ REPAIR_PAGE_SIZE) }

structure SessionController (T : Type) where
  shared : SharedReplica T
  /-- Keys of `knownBatches`. -/
  knownBatches : List Text
  /-- `bindingRef.current`, by its place among the bindings. -/
  bindingRef : Option Nat
  /-- `sessionMode === "public"`. -/
  isPublic : Bool
  synced : Bool
  activeRepairRequestId : Option Nat
  repairCursor : Option Nat
  /-- What `crypto.randomUUID` has not given out yet starts here. -/
  nextRequestId : Nat
  /-- The repair requests sent so far. -/
  requests : List RepairRequest

namespace SessionController

variable {T : Type}

abbrev Method (T α : Type) := EStateM BindingError (SessionController T) α

def create (replica : BlockReplica T) (isPublic : Bool) : SessionController T where
  shared := ⟨replica, [], []⟩
  knownBatches := replica.exportEvents.map (·.batchId)
  bindingRef := none
  isPublic
  synced := false
  activeRepairRequestId := none
  repairCursor := none
  nextRequestId := 0
  requests := []

def follow (session : SessionController T) (shared : SharedReplica T) : SessionController T :=
  let announced := shared.announced.drop session.shared.announced.length
  let found := (announced.map (·.batchId)).filter fun batchId =>
    (shared.replica.getBatch batchId).isSome
  { session with
    shared
    knownBatches := if session.isPublic then session.knownBatches
      else session.knownBatches ++ found }

def onShared {α : Type} (method : SharedReplica.Method T α) : Method T α := fun session =>
  match method session.shared with
  | .ok a shared => .ok a (session.follow shared)
  | .error error shared => .error error (session.follow shared)

def requestRepair (afterCursor : Nat) : Method T Unit :=
  modify fun session =>
    { session with
      activeRepairRequestId := some session.nextRequestId
      nextRequestId := session.nextRequestId + 1
      requests := session.requests ++ [⟨session.nextRequestId, afterCursor⟩] }

variable (engine : TextEngine T) (config : ReplicaConfig)

def deliverBatch (bindingRef : Option Nat) (delivery : Delivery) (batch : RichTextEventBatch) :
    SharedReplica.Method T Unit :=
  match bindingRef with
  | none => SharedReplica.deliver engine config delivery [batch]
  | some index => SharedReplica.bindingApply engine config index delivery [batch]

/-- One round of the loop of `applyBatches`. -/
def applyBatch (deliveries : Text → Delivery) (batch : RichTextEventBatch) : Method T Unit := do
  let session ← get
  if batch.batchId ∈ session.knownBatches then pure ()
  else do
    modify fun session => { session with knownBatches := session.knownBatches ++ [batch.batchId] }
    onShared (deliverBatch engine config session.bindingRef (deliveries batch.batchId) batch)

def applyBatches (deliveries : Text → Delivery) (batches : List RichTextEventBatch) :
    Method T Unit :=
  batches.forM (applyBatch engine config deliveries)

def ready : Method T Unit := do
  let session ← get
  modify fun session => { session with synced := false }
  requestRepair (session.repairCursor.getD 0)

def advance (nextCursor : Nat) : Option Nat → Option Nat
  | none => some nextCursor
  | some cursor => some (if cursor < nextCursor then nextCursor else cursor)

def finishRepair (page : EventPage) : Method T Unit := do
  modify fun session => { session with repairCursor := advance page.nextCursor session.repairCursor }
  if page.complete then
    modify fun session => { session with activeRepairRequestId := none, synced := true }
  else requestRepair page.nextCursor

def repairResponse (deliveries : Text → Delivery) (response : RepairResponse) : Method T Unit := do
  let session ← get
  if session.activeRepairRequestId = some response.requestId then do
    applyBatches engine config deliveries response.page.batches
    finishRepair response.page
  else pure ()

/-- `ensureAuth` restores the batches that were left pending in this browser. -/
def restore (delivery : Delivery) (batches : List RichTextEventBatch) : Method T Unit := do
  onShared (SharedReplica.deliver engine config delivery batches)
  modify fun session =>
    { session with knownBatches := session.knownBatches ++ batches.map (·.batchId) }

/-- `close`, `stopWs`. -/
def closed (session : SessionController T) : SessionController T := { session with synced := false }

def bindBinding (binding : Option Nat) (session : SessionController T) : SessionController T :=
  { session with bindingRef := binding }

end SessionController

inductive SessionEvent (T : Type) where
  | ready
  | repairResponse (deliveries : Text → Delivery) (response : RepairResponse)
  /-- An `Event` frame, or the history that the HTTP transport loads. -/
  | event (deliveries : Text → Delivery) (batches : List RichTextEventBatch)
  | restored (delivery : Delivery) (batches : List RichTextEventBatch)
  | closed
  | bound (binding : Option Nat)
  /-- The editor, the composition, the bindings and other users of the replica. -/
  | acted (action : Action T)

def SessionEvent.apply {T : Type} (engine : TextEngine T) (config : ReplicaConfig)
    (session : SessionController T) : SessionEvent T → SessionController T
  | .ready => finalState (SessionController.ready session)
  | .repairResponse deliveries response =>
    finalState (SessionController.repairResponse engine config deliveries response session)
  | .event deliveries batches =>
    finalState (SessionController.applyBatches engine config deliveries batches session)
  | .restored delivery batches =>
    finalState (SessionController.restore engine config delivery batches session)
  | .closed => session.closed
  | .bound binding => session.bindBinding binding
  | .acted action => session.follow (action.apply engine config session.shared)

end Softmaple.DocSession
