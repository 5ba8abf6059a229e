import Softmaple.BlockModel.MaterializedBlocks

/-!
Which blocks own a mark: what a replica state finds once, when it indexes the mark
(`block-model/src/replica-state.ts`), and what the materializer finds every time
(`block-model/src/materialize.ts`). The text around the markers is left out: a new marker may come to
stand anywhere between the others, and where they stand is a parameter of the materializer.
-/
namespace Softmaple.BlockModel

open MarkingSearch

/-- What ownership reads of a mark. -/
structure MarkRecord where
  eventId : Text
  blockId : BlockId
  deriving DecidableEq, Repr

/-- `segments` are the blocks of `segmentList`, in document order. -/
structure MarkState where
  metas : BlockMetas
  segments : List BlockId
  unindexedMarks : List MarkRecord
  marksByOwner : InsertionMap BlockId (List MarkRecord)

/-- The loop of `markOwners` over the segments after the mark's block. -/
def joinedAfter (visible joined : BlockId → Bool) : List BlockId → List BlockId
  | [] => []
  | blockId :: rest =>
    if !visible blockId then joinedAfter visible joined rest
    else if !joined blockId then []
    else blockId :: joinedAfter visible joined rest

def groupOf (visible joined : BlockId → Bool) (segments : List BlockId) (own : BlockId) : List BlockId :=
  match segments.idxOf? own with
  | none => [own]
  | some index =>
    if !visible own then [own]
    else if joined own && (segments.take index).any visible then [own]
    else own :: joinedAfter visible joined (segments.drop (index + 1))

namespace MarkState

def empty : MarkState := ⟨.empty, [], [], .empty⟩

/-- Whether the block existed and was not removed before `eventId`. -/
def visibleAt (state : MarkState) (eventId : Text) (blockId : BlockId) : Bool :=
  let record := BlockMetas.metaOf state.metas.blocks blockId
  state.metas.causal.isAncestor (record.markerEventId.getD []) eventId &&
    !record.causes.any fun cause => state.metas.causal.isAncestor cause eventId

/-- Whether the block was joined to its predecessor before `eventId`. -/
def joinedAt (state : MarkState) (eventId : Text) (blockId : BlockId) : Bool :=
  (BlockMetas.metaOf state.metas.blocks blockId).joins.any fun joinId =>
    state.metas.causal.isAncestor joinId eventId

def markOwners (state : MarkState) (mark : MarkRecord) : List BlockId :=
  groupOf (state.visibleAt mark.eventId) (state.joinedAt mark.eventId) state.segments mark.blockId

def ownedBy (state : MarkState) (owner : BlockId) : List MarkRecord :=
  (state.marksByOwner.get? owner).getD []

def addOwned (mark : MarkRecord) (marksByOwner : InsertionMap BlockId (List MarkRecord))
    (owner : BlockId) : InsertionMap BlockId (List MarkRecord) :=
  marksByOwner.set owner ((marksByOwner.get? owner).getD [] ++ [mark])

/-- One round of `indexMarks`. -/
def indexMark (state : MarkState) : MarkState :=
  match state.unindexedMarks with
  | [] => state
  | mark :: rest =>
    { state with
      marksByOwner := (state.markOwners mark).foldl (addOwned mark) state.marksByOwner
      unindexedMarks := rest }

/-- `integrateEvent` where a new marker comes to stand at a place of the document order. -/
def integrateEvent (state : MarkState) (place : Nat) (event : RichTextEvent) :
    Except ReplicaError MarkState := do
  let metas ← state.metas.integrateEvent event
  return { state with
    metas
    segments := match event.effect.marker with
      | some (blockId, _) => state.segments.insertIdx place blockId
      | none => state.segments
    unindexedMarks := match event.effect with
      | .markSet blockId _ _ _ _ => state.unindexedMarks ++ [⟨event.id, blockId⟩]
      | _ => state.unindexedMarks }

/-- A mark that has been indexed. -/
def Indexed (state : MarkState) (mark : MarkRecord) : Prop := ∃ owner, mark ∈ state.ownedBy owner

/-- Events integrated, marks indexed and fields looked up in any order; `admits` restricts the events. -/
inductive MarkRun (admits : List RichTextEvent → MarkState → RichTextEvent → Prop) :
    List RichTextEvent → MarkState → Prop where
  | empty : MarkRun admits [] empty
  | integrate {events : List RichTextEvent} {event : RichTextEvent} {state next : MarkState} (place : Nat)
      (run : MarkRun admits events state) (admitted : admits events state event)
      (placed : place ≤ state.segments.length)
      (result : state.integrateEvent place event = .ok next) : MarkRun admits (events ++ [event]) next
  | index {events : List RichTextEvent} {state : MarkState} (run : MarkRun admits events state) :
      MarkRun admits events state.indexMark
  | resolve {events : List RichTextEvent} {state : MarkState} (run : MarkRun admits events state)
      (blockId : BlockId) :
      MarkRun admits events { state with metas := (state.metas.resolveFields blockId).2 }

/-- A new block hands no removal in the past of an indexed mark on to a block in that past. -/
def Harmless (events : List RichTextEvent) (state : MarkState) (event : RichTextEvent) : Prop :=
  ∀ {blockId source child : BlockId} {mark : MarkRecord} {delete : Text} {markers : List Text},
    event.effect.marker = some (blockId, some source) → state.Indexed mark →
    RemovedBy events delete source → (historyOf events).Ancestor delete mark.eventId →
    SplitPath events blockId markers child →
    (∀ marker ∈ markers, ¬ (historyOf events).Ancestor marker delete) →
    ∀ marker ∈ markers, ¬ (historyOf events).Ancestor marker mark.eventId

end MarkState

namespace Materializer

def visitSearch (parents : Parents) : Search (List Text) Text Text :=
  { ancestorSearch parents [] with found := fun _ => false }

def collectAncestors (eventId : Text) (parents : Parents) : List Text :=
  let stack := (parentsAt parents eventId).reverse
  let fuel := stack.length + (parents.keys.map fun key => (parentsAt parents key).length).sum
  (run (visitSearch parents) fuel [] stack).getD []

/-- One marker in the loop of `resolveMarkOwnership`: the visible owner and what the block owns. -/
def ownershipStep (blockId : BlockId) (observed : List Text) (removalCauses : RemovalCauses)
    (joinEvents : InsertionMap BlockId (List Text)) (walk : Option BlockId × List BlockId)
    (marker : MarkerEventRecord) : Option BlockId × List BlockId :=
  if marker.eventId ∉ observed then walk
  else if ((removalCauses.get? marker.blockId).getD []).any fun cause => decide (cause ∈ observed) then walk
  else
    let joinedBeforeMark := ((joinEvents.get? marker.blockId).getD []).any fun join => decide (join ∈ observed)
    let owner := if !joinedBeforeMark || walk.1.isNone then some marker.blockId else walk.1
    (owner, if owner = some blockId then walk.2 ++ [marker.blockId] else walk.2)

def resolveMarkOwnership (blockId : BlockId) (observed : List Text) (markers : List MarkerEventRecord)
    (removalCauses : RemovalCauses) (joinEvents : InsertionMap BlockId (List Text)) : List BlockId :=
  let walk := markers.foldl (ownershipStep blockId observed removalCauses joinEvents) (none, [])
  if walk.2.isEmpty then [blockId] else walk.2

def Precedes (position : Text → Nat) (left right : MarkerEventRecord) : Prop :=
  position left.eventId < position right.eventId ∨
    position left.eventId = position right.eventId ∧ left.eventId ≤ right.eventId

instance (position : Text → Nat) : DecidableRel (Precedes position) :=
  fun _ _ => inferInstanceAs (Decidable (_ ∨ _))

/-- The owners of a mark, from all events; `position` is where a marker stands in the text. -/
def markOwnership (events : List RichTextEvent) (position : Text → Nat) (mark : MarkRecord) :
    Except MaterializeError (List BlockId) := do
  let collected ← collectAll events
  let parents := parentsOf events
  let fuel := collected.markerEvents.length * events.length + 1
  let causes := propagate parents collected.markerEvents fuel collected.removalCauses
  let markers := collected.markerEvents.insertionSort (Precedes position)
  return if collected.joinEvents.entries.isEmpty then [mark.blockId]
    else resolveMarkOwnership mark.blockId (collectAncestors mark.eventId parents) markers causes
      collected.joinEvents

end Materializer
end Softmaple.BlockModel
