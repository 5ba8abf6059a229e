import Softmaple.BlockModel.CausalChains

/-!
The block metadata of a replica state (`block-model/src/replica-state.ts`): fields, removal causes,
joins and split children, kept up to date event by event. Only what is derived of it (visible blocks,
their caches and dirty flags) is left out.
-/
namespace Softmaple.BlockModel

open MarkingSearch

inductive FieldName where
  | type
  | parentId
  | language
  | theme
  | start
  | value
  | checked
  deriving DecidableEq, Repr

def FieldName.Value : FieldName → Type
  | .type => BlockType
  | .parentId => Option BlockId
  | .language => Option Text
  | .theme => Option Text
  | .start => Option Nat
  | .value => Option Nat
  | .checked => Option Bool

def BlockFieldPatch.get (patch : BlockFieldPatch) : (field : FieldName) → Option field.Value
  | .type => patch.type
  | .parentId => patch.parentId
  | .language => patch.language
  | .theme => patch.theme
  | .start => patch.start
  | .value => patch.value
  | .checked => patch.checked

def CompleteBlockFields.get (fields : CompleteBlockFields) : (field : FieldName) → field.Value
  | .type => fields.type
  | .parentId => fields.parentId
  | .language => fields.language
  | .theme => fields.theme
  | .start => fields.start
  | .value => fields.value
  | .checked => fields.checked

def CompleteBlockFields.patch (fields : CompleteBlockFields) : BlockFieldPatch where
  type := some fields.type
  parentId := some fields.parentId
  language := some fields.language
  theme := some fields.theme
  start := some fields.start
  value := some fields.value
  checked := some fields.checked

def CompleteBlockFields.ofWinners (winner : (field : FieldName) → field.Value) : CompleteBlockFields where
  type := winner .type
  parentId := winner .parentId
  language := winner .language
  theme := winner .theme
  start := winner .start
  value := winner .value
  checked := winner .checked

structure FieldCandidate (α : Type) where
  eventId : Text
  value : α

structure BlockMeta where
  id : BlockId
  markerEventId : Option Text
  sourceBlockId : Option BlockId
  fields : (field : FieldName) → List (FieldCandidate field.Value)
  resolved : Option CompleteBlockFields
  causes : List Text
  joins : List Text

def BlockMeta.blank (blockId : BlockId) : BlockMeta where
  id := blockId
  markerEventId := none
  sourceBlockId := none
  fields _ := []
  resolved := none
  causes := []
  joins := []

structure BlockMetas where
  causal : CausalIndex
  blocks : InsertionMap BlockId BlockMeta
  children : InsertionMap BlockId (List BlockId)

namespace BlockMetas

def empty : BlockMetas := ⟨.empty, .empty, .empty⟩

def metaOf (blocks : InsertionMap BlockId BlockMeta) (blockId : BlockId) : BlockMeta :=
  (blocks.get? blockId).getD (.blank blockId)

/-- A block's record is changed, or added and changed. -/
def update (state : BlockMetas) (blockId : BlockId) (change : BlockMeta → BlockMeta) : BlockMetas :=
  { state with blocks := state.blocks.set blockId (change (metaOf state.blocks blockId)) }

def childrenOf (state : BlockMetas) (blockId : BlockId) : List BlockId :=
  (state.children.get? blockId).getD []

def sourceOf (blocks : InsertionMap BlockId BlockMeta) (blockId : BlockId) : Option BlockId :=
  (blocks.get? blockId).bind fun record => record.markerEventId.bind fun _ => record.sourceBlockId

/-- The IDs on the way are distinct and, but for the last, created: the fuel is never short. -/
def assertAcyclicLineage (blocks : InsertionMap BlockId BlockMeta) :
    Nat → List BlockId → Option BlockId → Except ReplicaError Unit
  | _, _, none => .ok ()
  | 0, _, some current => .error (.cyclicLineage current)
  | fuel + 1, seen, some current =>
    if current ∈ seen then .error (.cyclicLineage current)
    else assertAcyclicLineage blocks fuel (current :: seen) (sourceOf blocks current)

/-- The search of `addCause`: the blocks that have the cause are marked. A marker never changes, so
the ones at the start are read. -/
def causeSearch (state : BlockMetas) (cause : Text) :
    Search (InsertionMap BlockId BlockMeta) BlockId BlockId where
  skip _ := false
  found _ := false
  key blockId := blockId
  next blockId := (state.childrenOf blockId).filter fun child =>
    !state.causal.isAncestor ((metaOf state.blocks child).markerEventId.getD []) cause
  marked blocks blockId := decide (cause ∈ (metaOf blocks blockId).causes)
  mark blocks blockId :=
    blocks.set blockId { metaOf blocks blockId with causes := (metaOf blocks blockId).causes ++ [cause] }

def addCause (state : BlockMetas) (blockId : BlockId) (cause : Text) : BlockMetas :=
  let fuel := 1 + (state.children.keys.map fun source => (state.childrenOf source).length).sum
  { state with blocks := (run (state.causeSearch cause) fuel state.blocks [blockId]).getD state.blocks }

def assignFields (causal : CausalIndex) (eventId : Text) (patch : BlockFieldPatch) (record : BlockMeta) :
    BlockMeta :=
  { record with
    fields := fun field =>
      match patch.get field with
      | none => record.fields field
      | some value =>
        (record.fields field).filter (fun candidate => !causal.isAncestor candidate.eventId eventId) ++
          [⟨eventId, value⟩]
    resolved := none }

def largest {α : Type} : List (FieldCandidate α) → Option (FieldCandidate α)
  | [] => none
  | first :: rest => some <| rest.foldl
      (fun best candidate => if best.eventId < candidate.eventId then candidate else best) first

def winner (record : BlockMeta) (field : FieldName) : field.Value :=
  match largest (record.fields field) with
  | none => DEFAULT_BLOCK_FIELDS.get field
  | some candidate => candidate.value

/-- The fields of a block, kept in its record. -/
def resolveFields (state : BlockMetas) (blockId : BlockId) : CompleteBlockFields × BlockMetas :=
  let record := metaOf state.blocks blockId
  match record.resolved with
  | some fields => (fields, state)
  | none =>
    let fields := CompleteBlockFields.ofWinners (winner record)
    (fields, state.update blockId fun record => { record with resolved := some fields })

/-- A created child inherits the removals of its source that did not observe it. -/
def inheritCauses (state : BlockMetas) (eventId : Text) (blockId : BlockId) (causes : List Text) :
    BlockMetas :=
  causes.foldl (fun state cause =>
    if state.causal.isAncestor eventId cause then state else state.addCause blockId cause) state

def createBlock (state : BlockMetas) (eventId : Text) (blockId : BlockId)
    (sourceBlockId : Option BlockId) (fields : CompleteBlockFields) : Except ReplicaError BlockMetas :=
  if (metaOf state.blocks blockId).markerEventId.isSome then .error (.duplicateBlockId blockId)
  else
    let state := state.update blockId fun record =>
      assignFields state.causal eventId fields.patch
        { record with markerEventId := some eventId, sourceBlockId }
    match sourceBlockId with
    | none => .ok state
    | some source =>
      let state := { state with
        children := state.children.set source (state.childrenOf source ++ [blockId]) }
      match assertAcyclicLineage state.blocks (state.blocks.entries.length + 1) [] (some blockId) with
      | .error error => .error error
      | .ok () => .ok (state.inheritCauses eventId blockId (metaOf state.blocks source).causes)

def applyEffect (state : BlockMetas) (eventId : Text) : RichTextEffect → Except ReplicaError BlockMetas
  | .bootstrap blockId fields => state.createBlock eventId blockId none fields
  | .blockCreate blockId sourceBlockId fields => state.createBlock eventId blockId sourceBlockId fields
  | .blockSet blockId fields => .ok (state.update blockId (assignFields state.causal eventId fields))
  | .blockDelete blockId =>
    if blockId = BOOTSTRAP_BLOCK_ID then .error .bootstrapDeleted
    else .ok ((state.update blockId id).addCause blockId eventId)
  | .blockJoin blockId =>
    if blockId = BOOTSTRAP_BLOCK_ID then .error .bootstrapJoined
    else .ok (state.update blockId fun record => { record with joins := record.joins ++ [eventId] })
  | .markSet _ _ _ _ _ | .textInsert _ _ | .textDelete _ => .ok state

def integrateEvent (state : BlockMetas) (event : RichTextEvent) : Except ReplicaError BlockMetas := do
  let causal ← state.causal.add event.id event.parentVersion
  { state with causal }.applyEffect event.id event.effect

end BlockMetas
end Softmaple.BlockModel
