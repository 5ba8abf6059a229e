import Softmaple.BlockModel.Wire
import Softmaple.Lib.InsertionMap

/-!
The long-lived state of a block replica (`block-model/src/replica-state.ts`):
the event graph of its EG-walker replica, the causal index and the blocks'
markers. What EG-walker makes of the text, the raw layer and the block fields
and marks derived from it are a parameter: `TextEngine`. A method that throws
leaves the state as far as it got.
-/
namespace Softmaple.BlockModel

inductive ReplicaError where
  | wire (error : WireError)
  | conflictingBatchId (batchId : Text)
  | eventIdTaken (eventId owner : Text)
  | notIntegrated (eventId : Text)
  | alreadyIntegrated (eventId : Text)
  | unknownParent (eventId parent : Text)
  | duplicateBlockId (blockId : BlockId)
  | emptyBlockId
  | cyclicLineage (blockId : BlockId)
  | bootstrapDeleted
  | bootstrapJoined
  | rejected (reason : String)
  | sequenceExhausted (replicaId : Text)
  | undefinedWaiter (batchId : Text)
  | text (reason : String)
  | unfinished
  deriving DecidableEq, Repr

structure TextEngine (T : Type) where
  empty : T
  validateLocalOperation : T → SerializedTextOperation → Except ReplicaError Bool
  /-- What EG-walker does with an event of its own that entered the graph. -/
  advanceWithEvent : GraphEvent → EStateM ReplicaError T Unit
  applyRemoteEvents : List GraphEvent → EStateM ReplicaError T Unit
  integrateRaw : RichTextEvent → EStateM ReplicaError T Unit
  applyEffect : Text → RichTextEffect → EStateM ReplicaError T Unit
  settle : EStateM ReplicaError T Unit
  document : EStateM ReplicaError T BlockDocument

/-- `BlockMeta` as far as block creation reads it; only created blocks have one. -/
structure BlockMarker where
  markerEventId : Text
  sourceBlockId : Option BlockId
  deriving DecidableEq, Repr

structure ReplicaState (T : Type) where
  /-- IDs of the EG-walker replica's event graph. -/
  eventGraph : List Text
  currentVersion : List Text
  nextSequenceNumber : Nat
  causal : List Text
  blocks : InsertionMap BlockId BlockMarker
  text : T

def PER_EVENT_INTEGRATION_LIMIT : Nat := 64

namespace ReplicaState

variable {T : Type}

abbrev Method (T α : Type) := EStateM ReplicaError (ReplicaState T) α

def hasEvent (state : ReplicaState T) (eventId : Text) : Bool := decide (eventId ∈ state.causal)

def hasBlockMarker (state : ReplicaState T) (blockId : BlockId) : Bool := state.blocks.has blockId

def frontier (state : ReplicaState T) : List Text := state.currentVersion.insertionSort (· ≤ ·)

def liftText {α : Type} (method : EStateM ReplicaError T α) : Method T α := fun state =>
  match method state.text with
  | .ok a text => .ok a { state with text }
  | .error error text => .error error { state with text }

/-- `CausalIndex.add`. -/
def addCausal (eventId : Text) (parents : List Text) : Method T Unit := fun state =>
  if eventId ∈ state.causal then .error (.alreadyIntegrated eventId) state
  else
    match parents.find? fun parent => decide (parent ∉ state.causal) with
    | some parent => .error (.unknownParent eventId parent) state
    | none => .ok () { state with causal := state.causal ++ [eventId] }

def sourceOf (blocks : InsertionMap BlockId BlockMarker) (blockId : BlockId) : Option BlockId :=
  (blocks.get? blockId).bind (·.sourceBlockId)

/-- The IDs on the way are distinct and, but for the last, created: the fuel is never short. -/
def assertAcyclicLineage (blocks : InsertionMap BlockId BlockMarker) :
    Nat → List BlockId → Option BlockId → Except ReplicaError Unit
  | _, _, none => .ok ()
  | 0, _, some current => .error (.cyclicLineage current)
  | fuel + 1, seen, some current =>
    if current ∈ seen then .error (.cyclicLineage current)
    else assertAcyclicLineage blocks fuel (current :: seen) (sourceOf blocks current)

def createBlock (eventId : Text) (blockId : BlockId) (sourceBlockId : Option BlockId) :
    Method T Unit := fun state =>
  if state.hasBlockMarker blockId then .error (.duplicateBlockId blockId) state
  else
    let blocks := state.blocks.set blockId ⟨eventId, sourceBlockId⟩
    let next := { state with blocks }
    if sourceBlockId.isNone then .ok () next
    else
      match assertAcyclicLineage blocks (blocks.entries.length + 1) [] (some blockId) with
      | .error error => .error error next
      | .ok () => .ok () next

variable (engine : TextEngine T)

/-- The branches of `applyEffect` that create blocks or throw. -/
def applyMarker (eventId : Text) : RichTextEffect → Method T Unit
  | .bootstrap blockId _ => createBlock eventId blockId none
  | .blockCreate blockId sourceBlockId _ => createBlock eventId blockId sourceBlockId
  | .blockDelete blockId =>
    if blockId = BOOTSTRAP_BLOCK_ID then throw .bootstrapDeleted else pure ()
  | .blockJoin blockId =>
    if blockId = BOOTSTRAP_BLOCK_ID then throw .bootstrapJoined else pure ()
  | .blockSet _ _ | .markSet _ _ _ _ _ | .textInsert _ _ | .textDelete _ => pure ()

def applyEffect (eventId : Text) (effect : RichTextEffect) : Method T Unit := do
  applyMarker eventId effect
  liftText (engine.applyEffect eventId effect)

def integrateEvent (event : RichTextEvent) : Method T Unit := do
  addCausal event.id event.parentVersion
  liftText (engine.integrateRaw event)
  applyEffect engine event.id event.effect

def addEvent (eventId : Text) (parents : List Text) (state : ReplicaState T) : ReplicaState T :=
  { state with
    eventGraph := state.eventGraph ++ [eventId]
    currentVersion := (state.currentVersion.filter fun id => decide (id ∉ parents)) ++ [eventId] }

def addRemoteEvent (event : RichTextEvent) : Method T Unit := fun state =>
  if event.id ∈ state.eventGraph ∨ ∃ parent ∈ event.parentVersion, parent ∉ state.eventGraph then
    .error (.notIntegrated event.id) state
  else .ok () (addEvent event.id event.parentVersion state)

def integrateRemote (events : List RichTextEvent) : Method T Unit := do
  liftText (engine.applyRemoteEvents (events.map toGraphEvent))
  events.forM fun event => do
    addRemoteEvent event
    integrateEvent engine event

/-- One by one up to the limit, beyond it in one EG-walker batch. -/
def integrateEvents (events : List RichTextEvent) : Method T Unit :=
  if events.length ≤ PER_EVENT_INTEGRATION_LIMIT then
    events.forM fun event => integrateRemote engine [event]
  else integrateRemote engine events

def integrateBatches (batches : List RichTextEventBatch) : Method T Unit := do
  integrateEvents engine (batches.flatMap (·.events))
  liftText engine.settle

def blank : ReplicaState T where
  eventGraph := []
  currentVersion := []
  nextSequenceNumber := 0
  causal := []
  blocks := .empty
  text := engine.empty

def create : Except ReplicaError (ReplicaState T) :=
  match integrateBatches engine [BOOTSTRAP_BATCH] (blank engine) with
  | .ok () state => .ok state
  | .error error _ => .error error

/-- `generateEventId`: the first number from `start` on whose ID is not in the graph. One of
the next `eventGraph.length + 1` numbers is free, so only the safe range can run out. -/
def freeSequence (replicaId : Text) (eventGraph : List Text) : Nat → Nat → Option Nat
  | 0, _ => none
  | fuel + 1, sequence =>
    if maxSafeInteger < sequence then none
    else if Codec.formatEventId replicaId sequence ∈ eventGraph then
      freeSequence replicaId eventGraph fuel (sequence + 1)
    else some sequence

def generateEventId (replicaId : Text) : Method T Text := fun state =>
  match freeSequence replicaId state.eventGraph (state.eventGraph.length + 1)
      state.nextSequenceNumber with
  | none => .error (.sequenceExhausted replicaId) state
  | some sequence => .ok (Codec.formatEventId replicaId sequence)
      { state with nextSequenceNumber := min (sequence + 1) maxSafeInteger }

def appendLocal (replicaId : Text) (timestamp : Int) (operation : SerializedTextOperation) :
    Method T GraphEvent := do
  let id ← generateEventId replicaId
  let state ← get
  let event : GraphEvent := { id, parentVersion := state.currentVersion, timestamp, operation }
  set (addEvent id state.currentVersion state)
  liftText (engine.advanceWithEvent event)
  return event

/-- `EgWalkerReplica.applyLocalOperation`. -/
def applyLocalOperation (replicaId : Text) (timestamp : Int) (operation : SerializedTextOperation) :
    Method T (Option GraphEvent) := do
  let state ← get
  let valid ← MonadExcept.ofExcept (engine.validateLocalOperation state.text operation)
  if valid then some <$> appendLocal engine replicaId timestamp operation else return none

def integrateLocal
    (effectFor : ReplicaState T → GraphEvent → Except ReplicaError RichTextEffect)
    (graphEvent : GraphEvent) : Method T RichTextEvent := do
  let state ← get
  let effect ← MonadExcept.ofExcept (effectFor state graphEvent)
  let event := fromGraphEvent graphEvent effect
  integrateEvent engine event
  liftText engine.settle
  return event

/-- `insert` and `delete`: a local edit of the text, integrated with its effect. -/
def editText (replicaId : Text) (timestamp : Int) (operation : SerializedTextOperation)
    (effectFor : ReplicaState T → GraphEvent → Except ReplicaError RichTextEffect)
    (rejection : String) : Method T RichTextEvent := do
  match ← applyLocalOperation engine replicaId timestamp operation with
  | none => throw (.rejected rejection)
  | some graphEvent => integrateLocal engine effectFor graphEvent

end ReplicaState
end Softmaple.BlockModel
