import Softmaple.BlockModel.ReplicaState

/-!
The block replica (`block-model/src/replica.ts`): batches that lack a parent
are parked until it arrives, and everything that becomes ready is integrated in
one step. The callback of a transaction is given by the context it leaves and
by how it ended. The wake loop runs on fuel; `unfinished` means it needs more.
-/
namespace Softmaple.BlockModel

structure PendingBatch where
  batch : RichTextEventBatch
  /-- A parent event of the batch that is not integrated yet. -/
  missing : Text
  deriving DecidableEq, Repr

structure IntegrationPlan where
  ready : List RichTextEventBatch
  parked : InsertionMap Text PendingBatch

structure BlockReplica (T : Type) where
  state : ReplicaState T
  batchesById : InsertionMap Text RichTextEventBatch
  eventOwner : InsertionMap Text Text
  /-- Integrated batches but the bootstrap, in the order they were applied. -/
  integrated : List RichTextEventBatch
  pending : InsertionMap Text PendingBatch
  /-- Pending batch IDs keyed by the missing event they wait for. -/
  waiting : InsertionMap Text (List Text)
  /-- Whether anyone subscribed: only then does a change read the document. -/
  listening : Bool

structure ApplyRichTextEventsResult where
  integratedBatchIds : List Text
  pendingBatchIds : List Text
  deriving DecidableEq, Repr

structure ReplicaConfig where
  isSafeLinkUrl : Text → Bool
  replicaId : Text

namespace BlockReplica

variable {T : Type}

abbrev Method (T α : Type) := EStateM ReplicaError (BlockReplica T) α

/-- The plan while it is made; the first of `woken` is popped next. -/
structure Planning where
  ready : List RichTextEventBatch
  parked : InsertionMap Text PendingBatch
  parkedByMissing : InsertionMap Text (List Text)
  planned : List Text
  woken : List Text

def missingParent (state : ReplicaState T) (planned : List Text) (batch : RichTextEventBatch) :
    Option Text :=
  batch.parentVersion.find? fun parent => !state.hasEvent parent && decide (parent ∉ planned)

def Planning.evaluate (state : ReplicaState T) (planning : Planning) (batch : RichTextEventBatch) :
    Planning :=
  match missingParent state planning.planned batch with
  | none =>
    { planning with
      ready := planning.ready ++ [batch]
      parked := planning.parked.erase batch.batchId
      planned := planning.planned ++ batch.eventIds
      woken := batch.eventIds.reverse ++ planning.woken }
  | some missing =>
    { planning with
      parked := planning.parked.set batch.batchId ⟨batch, missing⟩
      parkedByMissing := planning.parkedByMissing.set missing
        ((planning.parkedByMissing.get? missing).getD [] ++ [batch.batchId]) }

def waiters (batches : InsertionMap Text PendingBatch) (batchIds : List Text) :
    Except ReplicaError (List RichTextEventBatch) :=
  batchIds.mapM fun batchId =>
    match batches.get? batchId with
    | some entry => .ok entry.batch
    | none => .error (.undefinedWaiter batchId)

/-- The `while` loop over the events that became available. -/
def wakeLoop (replica : BlockReplica T) : Nat → Planning → Except ReplicaError Planning
  | fuel, planning =>
    match planning.woken with
    | [] => .ok planning
    | eventId :: woken =>
      match fuel with
      | 0 => .error .unfinished
      | fuel + 1 => do
          let waiting ← waiters replica.pending ((replica.waiting.get? eventId).getD [])
          let parked ← waiters planning.parked
            ((planning.parkedByMissing.get? eventId).getD [])
          wakeLoop replica fuel <|
            (waiting ++ parked).foldl (Planning.evaluate replica.state) { planning with
                woken
                parkedByMissing := planning.parkedByMissing.erase eventId }

def planIntegration (fuel : Nat) (replica : BlockReplica T) (staged : List RichTextEventBatch)
    (integratedEventIds : List Text) : Except ReplicaError IntegrationPlan := do
  let start : Planning := ⟨[], .empty, .empty, [], integratedEventIds.reverse⟩
  let planning ← wakeLoop replica fuel (staged.foldl (Planning.evaluate replica.state) start)
  return ⟨planning.ready, planning.parked⟩

def unpark (replica : BlockReplica T) (batchId : Text) : BlockReplica T :=
  match replica.pending.get? batchId with
  | none => replica
  | some entry =>
    { replica with
      pending := replica.pending.erase batchId
      waiting :=
        match replica.waiting.get? entry.missing with
        | none => replica.waiting
        | some batchIds =>
          let left := batchIds.filter fun id => !decide (id = batchId)
          if left = [] then replica.waiting.erase entry.missing
          else replica.waiting.set entry.missing left }

/-- One entry of the plan's `parked`. -/
def park (replica : BlockReplica T) (batchId : Text) (entry : PendingBatch) : BlockReplica T :=
  let unparked := replica.unpark batchId
  let batchIds := (unparked.waiting.get? entry.missing).getD []
  { unparked with
    pending := unparked.pending.set batchId entry
    waiting := unparked.waiting.set entry.missing
      (if batchId ∈ batchIds then batchIds else batchIds ++ [batchId]) }

def store (replica : BlockReplica T) (batch : RichTextEventBatch) : BlockReplica T :=
  { replica with
    batchesById := replica.batchesById.set batch.batchId batch
    eventOwner := replica.eventOwner.setAll (batch.eventIds.map fun id => (id, batch.batchId)) }

def commit (replica : BlockReplica T) (stored integrated : List RichTextEventBatch)
    (plan : IntegrationPlan) : BlockReplica T :=
  let recorded := stored.foldl store replica
  let extended := { recorded with integrated := recorded.integrated ++ integrated }
  let unparked := (plan.ready.map (·.batchId)).foldl unpark extended
  plan.parked.entries.foldl (fun current entry => current.park entry.1 entry.2) unparked

variable (engine : TextEngine T) (config : ReplicaConfig)

/-- Recover from a failed update by replaying the committed batches. -/
def rebuildState (replica : BlockReplica T) : Except ReplicaError (ReplicaState T) := do
  let state ← ReplicaState.create engine
  if replica.integrated = [] then return state
  match ReplicaState.integrateBatches engine replica.integrated state with
  | .ok () rebuilt => return rebuilt
  | .error error _ => throw error

/-- The `catch` branches: a rebuild that throws leaves the state as it is. -/
def recover (error : ReplicaError) : Method T Unit := fun replica =>
  match rebuildState engine replica with
  | .ok state => .error error { replica with state }
  | .error rebuildError => .error rebuildError replica

def integrateReady (plan : IntegrationPlan) : Method T Unit := fun replica =>
  if plan.ready = [] then .ok () replica
  else
    match ReplicaState.integrateBatches engine plan.ready replica.state with
    | .ok () state => .ok () { replica with state }
    | .error error state => recover engine error { replica with state }

/-- `notify` up to the calls of the listeners, whose errors are dropped. -/
def notify : Method T Unit := fun replica =>
  if replica.listening then
    match ReplicaState.liftText engine.document replica.state with
    | .ok _ state => .ok () { replica with state }
    | .error error state => .error error { replica with state }
  else .ok () replica

/-- The checks of a delivery, batch by batch: what it adds and who owns the added events. -/
def stage (replica : BlockReplica T) : InsertionMap Text RichTextEventBatch →
    InsertionMap Text Text → List RichTextEventBatch →
    Except ReplicaError (InsertionMap Text RichTextEventBatch)
  | staged, _, [] => .ok staged
  | staged, stagedOwners, batch :: rest =>
    match (replica.batchesById.get? batch.batchId).orElse fun _ =>
        staged.get? batch.batchId with
    | some existing =>
      if existing = batch then stage replica staged stagedOwners rest
      else .error (.conflictingBatchId batch.batchId)
    | none => do
        let owners ← batch.eventIds.foldlM (fun (owners : InsertionMap Text Text) eventId =>
          match (replica.eventOwner.get? eventId).orElse fun _ => owners.get? eventId with
          | some owner => .error (.eventIdTaken eventId owner)
          | none => .ok (owners.set eventId batch.batchId)) stagedOwners
        stage replica (staged.set batch.batchId batch) owners rest

def parseBatches (input : List RichTextEventBatch) :
    Except ReplicaError (List RichTextEventBatch) :=
  (input.mapM (parseBatch config.isSafeLinkUrl)).mapError .wire

def notifyRemote (newlyIntegrated : List Text) : Method T Unit :=
  if newlyIntegrated = [] then pure () else notify engine

def settleDelivery (staged : List RichTextEventBatch) (plan : IntegrationPlan) :
    Method T ApplyRichTextEventsResult := do
  integrateReady engine plan
  modify fun replica => replica.commit staged plan.ready plan
  let newlyIntegrated := (plan.ready.map (·.batchId)).insertionSort (· ≤ ·)
  notifyRemote engine newlyIntegrated
  return ⟨newlyIntegrated, (← get).pending.keys.insertionSort (· ≤ ·)⟩

def applyRemoteEvents (fuel : Nat) (input : List RichTextEventBatch) :
    Method T ApplyRichTextEventsResult := do
  let replica ← get
  let incoming ← MonadExcept.ofExcept (parseBatches config input)
  let staged ← MonadExcept.ofExcept (stage replica .empty .empty incoming)
  let plan ← MonadExcept.ofExcept (planIntegration fuel replica staged.values [])
  settleDelivery engine staged.values plan

def getBatch (replica : BlockReplica T) (batchId : Text) : Option RichTextEventBatch :=
  replica.batchesById.get? batchId

def exportEvents (replica : BlockReplica T) : List RichTextEventBatch :=
  replica.batchesById.values.insertionSort fun left right => left.batchId ≤ right.batchId

def create : Except ReplicaError (BlockReplica T) := do
  let state ← ReplicaState.create engine
  return {
    state
    batchesById := InsertionMap.empty.set BOOTSTRAP_BATCH_ID BOOTSTRAP_BATCH
    eventOwner := InsertionMap.empty.set BOOTSTRAP_EVENT_ID BOOTSTRAP_BATCH_ID
    integrated := []
    pending := .empty
    waiting := .empty
    listening := false }

/-- `deserialize` of an export: everything but the bootstrap in one delivery. -/
def deserialize (fuel : Nat) (batches : List RichTextEventBatch) :
    Except ReplicaError (BlockReplica T) := do
  let parsed ← parseBatches config batches
  if parsed.find? (fun batch => decide (batch.batchId = BOOTSTRAP_BATCH_ID)) =
      some BOOTSTRAP_BATCH then
    let replica ← create engine
    let rest := parsed.filter fun batch => decide (batch.batchId ≠ BOOTSTRAP_BATCH_ID)
    match applyRemoteEvents engine config fuel rest replica with
    | .ok _ restored => return restored
    | .error error _ => throw error
  else throw (.rejected "missing bootstrap batch")

end BlockReplica

/-- A transaction between two calls of its callback. -/
structure TransactionContext (T : Type) where
  state : ReplicaState T
  events : List RichTextEvent
  initialParentVersion : List Text
  failure : Option ReplicaError
  mutated : Bool

namespace TransactionContext

variable {T : Type}

abbrev Method (T α : Type) := EStateM ReplicaError (TransactionContext T) α

def start (state : ReplicaState T) : TransactionContext T where
  state
  events := []
  initialParentVersion := state.frontier
  failure := none
  mutated := false

def assertUsable : Method T Unit := fun context =>
  match context.failure with
  | none => .ok () context
  | some error => .error error context

def edit (apply : ReplicaState.Method T RichTextEvent) : Method T Unit := do
  assertUsable
  fun context =>
    match apply context.state with
    | .ok event state =>
      .ok () { context with state, events := context.events ++ [event], mutated := true }
    | .error error state =>
      .error error { context with state, failure := some error, mutated := true }

def finish (isSafeLinkUrl : Text → Bool) : Method T (Option RichTextEventBatch) := do
  assertUsable
  let context ← get
  match context.events with
  | [] => return none
  | first :: _ =>
    let batch ← MonadExcept.ofExcept <| (parseBatch isSafeLinkUrl
      { batchId := first.id, parentVersion := context.initialParentVersion,
        events := context.events }).mapError .wire
    return some batch

variable (engine : TextEngine T) (replicaId : Text)

/-- What a callback can make of a context: it reads, which touches nothing but the text's
caches, and edits, and it may catch what an edit throws. -/
inductive CallbackRun : TransactionContext T → TransactionContext T → Prop where
  | done (context : TransactionContext T) : CallbackRun context context
  | read {first last : TransactionContext T} (text : T)
      (rest : CallbackRun { first with state := { first.state with text } } last) :
      CallbackRun first last
  | edited {first next last : TransactionContext T} (timestamp : Int)
      (operation : SerializedTextOperation)
      (effectFor : ReplicaState T → GraphEvent → Except ReplicaError RichTextEffect)
      (rejection : String)
      (result : edit (ReplicaState.editText engine replicaId timestamp operation effectFor
        rejection) first = .ok () next)
      (rest : CallbackRun next last) : CallbackRun first last
  | failed {first next last : TransactionContext T} (timestamp : Int)
      (operation : SerializedTextOperation)
      (effectFor : ReplicaState T → GraphEvent → Except ReplicaError RichTextEffect)
      (rejection : String) (error : ReplicaError)
      (result : edit (ReplicaState.editText engine replicaId timestamp operation effectFor
        rejection) first = .error error next)
      (rest : CallbackRun next last) : CallbackRun first last

end TransactionContext

namespace BlockReplica

variable {T : Type} (engine : TextEngine T) (config : ReplicaConfig)

def settleTransaction (batch : RichTextEventBatch) (plan : IntegrationPlan) :
    Method T (Option RichTextEventBatch) := do
  integrateReady engine plan
  modify fun replica => replica.commit [batch] (batch :: plan.ready) plan
  notify engine
  let clone ← MonadExcept.ofExcept ((parseBatch config.isSafeLinkUrl batch).mapError .wire)
  return some clone

/-- How the `try` block of a transaction ends. -/
def finished (context : TransactionContext T) (outcome : Except ReplicaError Unit) :
    Except ReplicaError (Option RichTextEventBatch) :=
  match outcome with
  | .error error => .error error
  | .ok () =>
    match TransactionContext.finish config.isSafeLinkUrl context with
    | .ok batch _ => .ok batch
    | .error error _ => .error error

/-- `transact` with a callback that leaves `context` and ends with `outcome`. -/
def transact (fuel : Nat) (context : TransactionContext T) (outcome : Except ReplicaError Unit) :
    Method T (Option RichTextEventBatch) := do
  modify fun replica => { replica with state := context.state }
  match finished config context outcome with
  | .error error => if context.mutated then recover engine error *> throw error else throw error
  | .ok none => return none
  | .ok (some batch) =>
    -- A pending batch can wait for an event ID this replica just produced.
    let replica ← get
    let plan ← MonadExcept.ofExcept
      (planIntegration fuel replica [] batch.eventIds)
    settleTransaction engine config batch plan

end BlockReplica
end Softmaple.BlockModel
