import Softmaple.BlockModel.BlockMetas
import Softmaple.Lib.DoWhile

/-!
What the full materializer computes for the blocks (`block-model/src/materialize.ts`): ancestry by a
search of the parents, field winners by comparing assignments pairwise, and removals by going through
all markers until nothing changes.
-/
namespace Softmaple.BlockModel

open MarkingSearch

structure MarkerEventRecord where
  blockId : BlockId
  eventId : Text
  sourceBlockId : Option BlockId
  deriving DecidableEq, Repr

namespace Materializer

abbrev Parents := InsertionMap Text (List Text)

def parentsOf (events : List RichTextEvent) : Parents :=
  InsertionMap.empty.setAll (events.map fun event => (event.id, event.parentVersion.eraseDups))

def parentsAt (parents : Parents) (eventId : Text) : List Text := (parents.get? eventId).getD []

def ancestorSearch (parents : Parents) (ancestorId : Text) : Search (List Text) Text Text where
  skip _ := false
  found current := decide (current = ancestorId)
  key current := current
  next current := parentsAt parents current
  marked visited current := decide (current ∈ visited)
  mark visited current := visited ++ [current]

/-- No event is visited twice, so the fuel is never short. -/
def isAncestor (ancestorId descendantId : Text) (parents : Parents) : Bool :=
  let stack := (parentsAt parents descendantId).reverse
  let fuel := stack.length + (parents.keys.map fun key => (parentsAt parents key).length).sum
  (run (ancestorSearch parents ancestorId) fuel [] stack).isNone

abbrev FieldAssignments := (field : FieldName) → List (FieldCandidate field.Value)

def addFields (assignments : InsertionMap BlockId FieldAssignments) (blockId : BlockId)
    (eventId : Text) (fields : BlockFieldPatch) : InsertionMap BlockId FieldAssignments :=
  let byField := (assignments.get? blockId).getD fun _ => []
  assignments.set blockId fun field =>
    match fields.get field with
    | none => byField field
    | some value => byField field ++ [⟨eventId, value⟩]

def addAssignments (assignments : InsertionMap BlockId FieldAssignments) (event : RichTextEvent) :
    InsertionMap BlockId FieldAssignments :=
  match event.effect with
  | .bootstrap blockId fields => addFields assignments blockId event.id fields.patch
  | .blockCreate blockId _ fields => addFields assignments blockId event.id fields.patch
  | .blockSet blockId fields => addFields assignments blockId event.id fields
  | _ => assignments

def collectFieldAssignments (events : List RichTextEvent) : InsertionMap BlockId FieldAssignments :=
  events.foldl addAssignments .empty

inductive MaterializeError where
  | noCreationFields (blockId : BlockId)
  | noCausalWinner
  | duplicateBlockId (blockId : BlockId)
  | bootstrapDeleted
  | bootstrapJoined
  deriving DecidableEq, Repr

/-- `known` are the IDs of `eventsById`. -/
def selectCausalMaximal {α : Type} (candidates : List (FieldCandidate α)) (parents : Parents)
    (known : List Text) : Except MaterializeError (FieldCandidate α) :=
  let maxima := candidates.filter fun candidate => !candidates.any fun other =>
    decide (candidate.eventId ≠ other.eventId) && isAncestor candidate.eventId other.eventId parents
  match BlockMetas.largest maxima with
  | none => .error .noCausalWinner
  | some winner => if winner.eventId ∈ known then .ok winner else .error .noCausalWinner

def fieldWinner (assignments : FieldAssignments) (parents : Parents) (known : List Text)
    (field : FieldName) : Except MaterializeError field.Value :=
  match assignments field with
  | [] => .ok (DEFAULT_BLOCK_FIELDS.get field)
  | first :: rest => (selectCausalMaximal (first :: rest) parents known).map (·.value)

def resolveBlockFields (blockId : BlockId) (assignments : Option FieldAssignments) (parents : Parents)
    (known : List Text) : Except MaterializeError CompleteBlockFields :=
  match assignments with
  | none => .error (.noCreationFields blockId)
  | some assignments => do
      let winner := fieldWinner assignments parents known
      let type ← winner .type
      let parentId ← winner .parentId
      let language ← winner .language
      let theme ← winner .theme
      let start ← winner .start
      let value ← winner .value
      let checked ← winner .checked
      return { type, parentId, language, theme, start, value, checked }

/-- The fields of a block, from all events. -/
def fieldsOf (events : List RichTextEvent) (blockId : BlockId) : Except MaterializeError CompleteBlockFields :=
  resolveBlockFields blockId ((collectFieldAssignments events).get? blockId) (parentsOf events)
    (events.map (·.id))

abbrev RemovalCauses := InsertionMap BlockId (List Text)

structure Collected where
  markerEvents : List MarkerEventRecord
  seenBlocks : List BlockId
  removalCauses : RemovalCauses
  joinEvents : InsertionMap BlockId (List Text)

def addTo (sets : InsertionMap BlockId (List Text)) (blockId : BlockId) (eventId : Text) :
    InsertionMap BlockId (List Text) :=
  let values := (sets.get? blockId).getD []
  sets.set blockId (if eventId ∈ values then values else values ++ [eventId])

def collectMarker (collected : Collected) (eventId : Text) (blockId : BlockId)
    (sourceBlockId : Option BlockId) : Except MaterializeError Collected :=
  if blockId ∈ collected.seenBlocks then .error (.duplicateBlockId blockId)
  else .ok { collected with
    markerEvents := collected.markerEvents ++ [⟨blockId, eventId, sourceBlockId⟩]
    seenBlocks := collected.seenBlocks ++ [blockId] }

def collect (collected : Collected) (event : RichTextEvent) : Except MaterializeError Collected :=
  match event.effect with
  | .bootstrap blockId _ => collectMarker collected event.id blockId none
  | .blockCreate blockId sourceBlockId _ => collectMarker collected event.id blockId sourceBlockId
  | .blockDelete blockId =>
    if blockId = BOOTSTRAP_BLOCK_ID then .error .bootstrapDeleted
    else .ok { collected with removalCauses := addTo collected.removalCauses blockId event.id }
  | .blockJoin blockId =>
    if blockId = BOOTSTRAP_BLOCK_ID then .error .bootstrapJoined
    else .ok { collected with
      joinEvents := collected.joinEvents.set blockId
        ((collected.joinEvents.get? blockId).getD [] ++ [event.id]) }
  | _ => .ok collected

def collectAll (events : List RichTextEvent) : Except MaterializeError Collected :=
  events.foldlM collect ⟨[], [], .empty, .empty⟩

def propagateMarker (parents : Parents) (state : RemovalCauses × Bool) (marker : MarkerEventRecord) :
    RemovalCauses × Bool :=
  match marker.sourceBlockId.bind state.1.get? with
  | none => state
  | some sourceCauses =>
    let childCauses := (state.1.get? marker.blockId).getD []
    let added := sourceCauses.filter fun cause =>
      !isAncestor marker.eventId cause parents && !decide (cause ∈ childCauses)
    (if childCauses ++ added = [] then state.1 else state.1.set marker.blockId (childCauses ++ added),
      state.2 || !added.isEmpty)

def propagatePass (parents : Parents) (markers : List MarkerEventRecord) (causes : RemovalCauses) :
    RemovalCauses × Bool :=
  markers.foldl (propagateMarker parents) (causes, false)

/-- Passes until one adds nothing. -/
def propagate (parents : Parents) (markers : List MarkerEventRecord) (fuel : Nat)
    (causes : RemovalCauses) : RemovalCauses :=
  DoWhile.loop (propagatePass parents markers) fuel causes

/-- Each pass but the last adds a removal to a block, so the fuel is never short. -/
def removalCauses (events : List RichTextEvent) : Except MaterializeError RemovalCauses := do
  let collected ← collectAll events
  let fuel := collected.markerEvents.length * events.length + 1
  return propagate (parentsOf events) collected.markerEvents fuel collected.removalCauses

end Materializer
end Softmaple.BlockModel
