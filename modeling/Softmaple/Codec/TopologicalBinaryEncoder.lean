import Softmaple.Codec.Egw4Encoder
import Softmaple.Codec.RemoteEvent

/-!
The two entries of the EGW4 encoder
(`graph/columnar-codec/topological-binary-encoder.ts`): from events in wire
order, and from a graph's columns in a given order of ranks. Each checks its
input, resolves parents to positions and hands the columns to `encodeEgw4`.
-/
namespace Softmaple.Codec

structure TopologicalEventGraphEncoding where
  binary : List Byte
  frontier : List Text
  deriving DecidableEq, Repr

structure CheckedEvent where
  isInsert : Bool
  operationIndex : Nat
  operationLength : Nat
  insertedText : Text
  timestamp : Int
  deriving DecidableEq, Repr

def CheckedEvent.row (checked : CheckedEvent) (overrideParents : Option (List Nat)) : Egw4Row where
  isInsert := checked.isInsert
  operationIndex := checked.operationIndex
  operationLength := checked.operationLength
  timestamp := checked.timestamp
  overrideParents := overrideParents

def checkColumns (id : Text) (timestamp : JsNumber) (operation : Operation) :
    Except CodecError CheckedEvent :=
  match timestamp.safeInteger? with
  | none => .error (.invalidTimestamp id)
  | some timestamp =>
    match operation.index.safeNatural? with
    | none => .error (.invalidOperationIndex id)
    | some index =>
      match operation with
      | .insert _ text =>
        if !Utf8.wellFormed text then .error (.loneSurrogate id)
        else if !isSafeInteger (index + text.length) then .error (.operationEnd id)
        else .ok ⟨true, index, text.length, text, timestamp⟩
      | .delete _ length =>
        match length.safeNatural? with
        | none => .error (.invalidDeleteLength id)
        | some length =>
          if !isSafeInteger (index + length) then .error (.operationEnd id)
          else .ok ⟨false, index, length, [], timestamp⟩

def assertEvent (event : GraphEvent) (eventOffset : Nat) : Except CodecError CheckedEvent :=
  if event.id = [] then .error (.invalidEventId eventOffset)
  else if [] ∈ event.parentVersion.ids then .error (.invalidParentId event.id)
  else checkColumns event.id event.timestamp event.operation

structure EventEncoderState where
  positions : List Text
  hasChild : List Nat
  rows : List Egw4Row
  insertedText : Text
  ids : Egw4IdRuns
  overrideCount : Nat
  deriving DecidableEq, Repr

def EventEncoderState.empty : EventEncoderState := ⟨[], [], [], [], .empty, 0⟩

def parentPositions (positions : List Text) (id : Text) : List Text → Except CodecError (List Nat)
  | [] => .ok []
  | parentId :: rest =>
    match positions.idxOf? parentId with
    | none => .error (.notTopological id parentId)
    | some position => (parentPositions positions id rest).map (position :: ·)

def encodeEvent (state : EventEncoderState) (event : GraphEvent) :
    Except CodecError EventEncoderState :=
  let position := state.positions.length
  match assertEvent event position with
  | .error error => .error error
  | .ok checked =>
    if event.id ∈ state.positions then .error (.duplicateEventId event.id)
    else
      let encoded (parents : List Nat) (isOverride : Bool) : EventEncoderState :=
        { positions := state.positions ++ [event.id]
          hasChild := state.hasChild ++ parents
          rows := state.rows ++ [checked.row (if isOverride then some parents else none)]
          insertedText := state.insertedText ++ checked.insertedText
          ids := state.ids.appendId event.id
          overrideCount := state.overrideCount + if isOverride then 1 else 0 }
      if position ≠ 0 ∧ state.positions.getLast?.map (fun id => [id]) =
          some event.parentVersion.ids then
        .ok (encoded [position - 1] false)
      else
        match parentPositions state.positions event.id event.parentVersion.ids with
        | .error error => .error error
        | .ok parents => .ok (encoded parents (0 < position || parents ≠ []))

def encodeEvents (state : EventEncoderState) : List GraphEvent →
    Except CodecError EventEncoderState
  | [] => .ok state
  | event :: rest =>
    match encodeEvent state event with
    | .error error => .error error
    | .ok state => encodeEvents state rest

def EventEncoderState.frontier (state : EventEncoderState) : List Text :=
  state.positions.zipIdx.filterMap fun (id, position) =>
    if position ∈ state.hasChild then none else some id

def resolveFrontierOrder (frontier : List Text) : Option (List Text) →
    Except CodecError (List Text)
  | none => .ok frontier
  | some order =>
    if order.all (· ∈ frontier) && order.Nodup && order.length = frontier.length then .ok order
    else .error .frontierOrder

section Encode

variable {Metadata : Type} (platform : Platform Metadata)

/-- Encode events that are already in topological wire order. -/
def encodeTopologicallyOrderedEventsBinary (events : List GraphEvent) (metadata : Metadata)
    (frontierOrder : Option (List Text)) : Except CodecError TopologicalEventGraphEncoding :=
  if !platform.isObject metadata then .error .metadataNotObject
  else
    match encodeEvents .empty events with
    | .error error => .error error
    | .ok state =>
      match resolveFrontierOrder state.frontier frontierOrder with
      | .error error => .error error
      | .ok frontier =>
        (encodeEgw4 platform
          { rows := state.rows
            ids := state.ids
            overrideCount := state.overrideCount
            insertedText := state.insertedText
            metadata }).map fun binary => ⟨binary, frontier⟩

structure TopologicalColumnSource where
  count : Nat
  idAt : Nat → Text
  /-- `none` is the source's `-1`: the ID is not canonical. -/
  agentAt : Nat → Option Nat
  agentName : Nat → Text
  sequenceAt : Nat → Nat
  useStringIdAt : Nat → Bool
  isInsertAt : Nat → Bool
  operationIndexAt : Nat → JsNumber
  operationLengthAt : Nat → JsNumber
  insertedTextAt : Nat → Text
  timestampAt : Nat → JsNumber
  parentRanksAt : Nat → List Nat

def assertColumnEvent (source : TopologicalColumnSource) (rank : Nat) :
    Except CodecError CheckedEvent :=
  let id := source.idAt rank
  match (source.timestampAt rank).safeInteger? with
  | none => .error (.invalidTimestamp id)
  | some timestamp =>
    match (source.operationIndexAt rank).safeNatural? with
    | none => .error (.invalidOperationIndex id)
    | some index =>
      if source.isInsertAt rank && !Utf8.wellFormed (source.insertedTextAt rank) then
        .error (.loneSurrogate id)
      else
        match (source.operationLengthAt rank).safeNatural? with
        | none =>
          .error (if source.isInsertAt rank then .operationEnd id
            else .invalidDeleteLength id)
        | some length =>
          if !isSafeInteger (index + length) then .error (.operationEnd id)
          else .ok ⟨source.isInsertAt rank, index, length,
            if source.isInsertAt rank then source.insertedTextAt rank else [], timestamp⟩

structure ColumnEncoderState where
  ranks : List Nat
  hasChild : List Nat
  rows : List Egw4Row
  insertedText : Text
  ids : Egw4IdRuns
  overrideCount : Nat
  deriving DecidableEq, Repr

def ColumnEncoderState.empty : ColumnEncoderState := ⟨[], [], [], [], .empty, 0⟩

def appendColumnId (ids : Egw4IdRuns) (source : TopologicalColumnSource) (rank : Nat) :
    Egw4IdRuns :=
  if source.useStringIdAt rank then ids.appendId (source.idAt rank)
  else
    match source.agentAt rank with
    | none => ids.appendCustom (source.idAt rank)
    | some agent => ids.appendCanonical agent (source.agentName agent) (source.sequenceAt rank)

def rankPositions (source : TopologicalColumnSource) (ranks : List Nat) (rank : Nat) :
    List Nat → Except CodecError (List Nat)
  | [] => .ok []
  | parentRank :: rest =>
    match ranks.idxOf? parentRank with
    | none => .error (.notTopological (source.idAt rank) (source.idAt parentRank))
    | some position => (rankPositions source ranks rank rest).map (position :: ·)

/-- Whether the event's only parent is the one encoded before it. -/
def usesDefaultParentRank (source : TopologicalColumnSource) (ranks : List Nat) (rank : Nat) :
    Bool :=
  match ranks.getLast? with
  | none => source.parentRanksAt rank = []
  | some previous => source.parentRanksAt rank = [previous]

def encodeRank (source : TopologicalColumnSource) (state : ColumnEncoderState) (rank : Nat) :
    Except CodecError ColumnEncoderState :=
  if rank ∈ state.ranks ∨ source.count ≤ rank then .error (.duplicateEventId (source.idAt rank))
  else
    match assertColumnEvent source rank with
    | .error error => .error error
    | .ok checked =>
      match rankPositions source state.ranks rank (source.parentRanksAt rank) with
      | .error error => .error error
      | .ok parents =>
        let isOverride := !usesDefaultParentRank source state.ranks rank
        .ok
          { ranks := state.ranks ++ [rank]
            hasChild := state.hasChild ++ source.parentRanksAt rank
            rows := state.rows ++ [checked.row (if isOverride then some parents else none)]
            insertedText := state.insertedText ++ checked.insertedText
            ids := appendColumnId state.ids source rank
            overrideCount := state.overrideCount + if isOverride then 1 else 0 }

def encodeRanks (source : TopologicalColumnSource) (state : ColumnEncoderState) :
    List Nat → Except CodecError ColumnEncoderState
  | [] => .ok state
  | rank :: rest =>
    match encodeRank source state rank with
    | .error error => .error error
    | .ok state => encodeRanks source state rest

def resolveFrontierRanks (source : TopologicalColumnSource) (frontierRanks : List Nat)
    (state : ColumnEncoderState) : Except CodecError (List Text) :=
  let childless := (List.range source.count).filter (· ∉ state.hasChild)
  if frontierRanks.all (fun rank => rank ∈ childless && rank ∈ state.ranks) &&
      frontierRanks.Nodup && frontierRanks.length = childless.length then
    .ok (frontierRanks.map source.idAt)
  else .error .frontierOrder

/-- Encode a graph's columns; without an order, by insertion rank. -/
def encodeTopologicalColumnsBinary (source : TopologicalColumnSource)
    (order : Option (List Nat)) (metadata : Metadata) (frontierRanks : List Nat) :
    Except CodecError TopologicalEventGraphEncoding :=
  if !platform.isObject metadata then .error .metadataNotObject
  else if (order.map (·.length)).getD source.count ≠ source.count then .error .orderCount
  else
    match encodeRanks source .empty (order.getD (List.range source.count)) with
    | .error error => .error error
    | .ok state =>
      match resolveFrontierRanks source frontierRanks state with
      | .error error => .error error
      | .ok frontier =>
        (encodeEgw4 platform
          { rows := state.rows
            ids := state.ids
            overrideCount := state.overrideCount
            insertedText := state.insertedText
            metadata }).map fun binary => ⟨binary, frontier⟩

end Encode

end Softmaple.Codec
