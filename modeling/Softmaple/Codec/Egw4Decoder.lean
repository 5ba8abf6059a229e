import Softmaple.Codec.Egw4Encoder
import Softmaple.Codec.EventIdRunIndex
import Softmaple.Codec.GraphRuns
import Softmaple.Codec.RemoteEvent

/-!
The EGW4 decoder (`graph/columnar-codec/egw4-decoder.ts`): checksum, then one
column after the other, each checked while it is expanded. A column read into
narrow numbers yields `none` at the first wide one and is read again. Loops over
events have as much fuel as there are events.
-/
namespace Softmaple.Codec

open ListReader

/-- Upper bound on LZ4 output bytes per input byte. -/
def lz4MaxExpansion : Nat := 256

def int32Min : Int := -0x80000000

def int32Max : Int := 0x7fffffff

/-- The number of four little-endian bytes. -/
def uint32LE : List Byte → Nat
  | [a, b, c, d] => a.val + b.val * 0x100 + c.val * 0x10000 + d.val * 0x1000000
  | _ => 0

def verifyChecksum (bytes : List Byte) : Except CodecError (List Byte) :=
  if bytes.length < egw4ChecksumBytes then .error .unexpectedEnd
  else
    let payload := bytes.take (bytes.length - egw4ChecksumBytes)
    if crc32 payload ≠ uint32LE (bytes.drop (bytes.length - egw4ChecksumBytes)) then
      .error .checksumMismatch
    else .ok payload

def readStrictString : BinaryReader Text := do
  let length ← readVarint
  let bytes ← readByteView length
  let text ← lift (decodeTextStrict bytes)
  return text

def readStringsLoop : Nat → List Text → BinaryReader (List Text)
  | 0, strings => return strings
  | left + 1, strings => do
      let string ← readStrictString
      require (string ≠ []) (.emptyIdString strings.length)
      require (string ∉ strings) (.repeatedIdString strings.length)
      readStringsLoop left (strings ++ [string])

def readStrings : BinaryReader (List Text) := do
  let count ← readVarint
  let rest ← remaining
  require (count ≤ rest.length) .unexpectedEnd
  readStringsLoop count []

def readIdRunsLoop (strings : List Text) (count : Nat) :
    Nat → Nat → Nat → List Nat → BinaryReader (List IdRun)
  | 0, _, _, _ => return []
  | fuel + 1, run, covered, nextSequence =>
    if count ≤ covered then return []
    else do
      let head ← readVarint
      match strings[head / 2]? with
      | none => fail (.missingIdString run (head / 2))
      | some string =>
        if head % 2 = 1 then do
          require (parseEventId string).isNone (.canonicalCustomId string)
          let rest ← readIdRunsLoop strings count fuel (run + 1) (covered + 1) nextSequence
          return ⟨string, 0, covered, 1, true⟩ :: rest
        else do
          let packedLength ← readVarint
          let length := packedLength / 2
          require (length ≠ 0 && length ≤ count - covered) (.invalidIdRunLength run length)
          let startSequence ←
            if packedLength % 2 = 1 then readVarint
            else Pure.pure (nextSequence.getD (head / 2) 0)
          let endSequence := numberAdd startSequence length
          require (isSafeInteger (endSequence - 1)) (.idRunSequence run)
          let rest ← readIdRunsLoop strings count fuel (run + 1) (covered + length)
            (nextSequence.set (head / 2) endSequence)
          return ⟨string, startSequence, covered, length, false⟩ :: rest

def readIdRuns (strings : List Text) (count : Nat) : BinaryReader (List IdRun) :=
  readIdRunsLoop strings count count 0 0 (List.replicate strings.length 0)

def readParents (offset : Nat) : Nat → BinaryReader (List Nat)
  | 0 => return []
  | left + 1 => do
      let distance ← readVarint
      require (distance ≠ 0 && distance ≤ offset) (.parentNotBefore offset)
      let rest ← readParents offset left
      return (offset - distance) :: rest

def defaultParents (offset : Nat) : List Nat := if offset = 0 then [] else [offset - 1]

/-- One override, the first that can be at `next`, and the edges counted with it. -/
def readOverride (count next : Nat) (edgeCount : Int) : BinaryReader ((Nat × List Nat) × Int) := do
  let head ← readVarint
  let code := head % 4
  let offset := next + (head - code) / 4
  require (offset < count) (.invalidOverrideOffset offset)
  let eventParents ←
    if code < egw4ManyParents then Pure.pure code
    else (egw4ManyParents + ·) <$> readVarint
  let rest ← remaining
  require (eventParents ≤ offset && eventParents ≤ rest.length)
    (.invalidParentCount offset eventParents)
  let parents ← readParents offset eventParents
  require parents.Nodup (.repeatedParent offset)
  require (parents ≠ defaultParents offset) (.redundantOverride offset)
  let edgeCount : Int := edgeCount + eventParents - if 0 < offset then 1 else 0
  require (edgeCount ≤ uint32Max) .tooManyEdges
  return ((offset, parents), edgeCount)

/-- `next` is the offset after the previous override. -/
def readOverridesLoop (count : Nat) : Nat → Nat → Int → BinaryReader (List (Nat × List Nat))
  | 0, _, _ => return []
  | left + 1, next, edgeCount => do
      let (entry, edgeCount) ← readOverride count next edgeCount
      let rest ← readOverridesLoop count left (entry.1 + 1) edgeCount
      return entry :: rest

def readParentOverrides (count : Nat) : BinaryReader (List (Nat × List Nat)) := do
  let overrideCount ← readVarint
  let rest ← remaining
  require (overrideCount ≤ count && overrideCount ≤ rest.length)
    (.invalidOverrideCount overrideCount)
  readOverridesLoop count overrideCount 0 (count - 1 : Nat)

/-- Values in turn, or `none` at the first above `max`. -/
def readLiterals (max : Nat) : Nat → BinaryReader (Option (List Nat))
  | 0 => return some []
  | left + 1 => do
      let value ← readVarint
      if max < value then return none
      else do
        let rest ← readLiterals max left
        return rest.map (value :: ·)

def readUnsignedRunsInto (max count : Nat) : Nat → Nat → BinaryReader (Option (List Nat))
  | 0, _ => return some []
  | fuel + 1, filled =>
    if count ≤ filled then return some []
    else do
      let head ← readVarint
      let length := head / 2
      require (length ≠ 0 && length ≤ count - filled) (.invalidLengthRun filled length)
      if head % 2 = 0 then do
        let value ← readVarint
        if max < value then return none
        else do
          let rest ← readUnsignedRunsInto max count fuel (filled + length)
          return rest.map (List.replicate length value ++ ·)
      else do
        let rest ← remaining
        require (length ≤ rest.length) .unexpectedEnd
        let values ← readLiterals max length
        match values with
        | none => return none
        | some values => do
            let rest ← readUnsignedRunsInto max count fuel (filled + length)
            return rest.map (values ++ ·)

def readNarrowOrWide {α : Type} (narrow wide : BinaryReader (Option α)) (empty : α) :
    BinaryReader α := do
  let start ← remaining
  let values ← narrow
  match values with
  | some values => return values
  | none => do
      rewind start
      let values ← wide
      return values.getD empty

def readLengths (count : Nat) : BinaryReader (List Nat) :=
  readNarrowOrWide (readUnsignedRunsInto uint32Max count count 0)
    (readUnsignedRunsInto maxSafeInteger count count 0) []

/-- An event's entries in the operation columns. -/
structure OperationEntry where
  isInsert : Bool
  operationIndex : Nat
  insertStart : Nat
  deriving DecidableEq, Repr

def expandInserts (max : Nat) : Nat → Nat → Nat → List Nat →
    Except CodecError (Option (List OperationEntry × Nat × Nat))
  | _, index, inserted, [] => .ok (some ([], index, inserted))
  | filled, index, inserted, length :: rest =>
    if max < index then .ok none
    else if !isSafeInteger (index + length) then .error (.invalidSpanIndex filled)
    else if uint32Max < inserted + length then .error .insertedContentRange
    else
      match expandInserts max (filled + 1) (index + length) (inserted + length) rest with
      | .error error => .error error
      | .ok none => .ok none
      | .ok (some (entries, last)) => .ok (some (⟨true, index, inserted⟩ :: entries, last))

/-- Each delete ends where the one before started; the index after them. -/
def expandBackspaces (max : Nat) : Nat → Nat → List Nat →
    Except CodecError (Option (List OperationEntry × Nat))
  | _, index, [] => .ok (some ([], index))
  | filled, index, length :: rest =>
    if index < length then .error (.invalidSpanIndex filled)
    else if max < index - length then .ok none
    else
      match expandBackspaces max (filled + 1) (index - length) rest with
      | .error error => .error error
      | .ok none => .ok none
      | .ok (some (entries, last)) => .ok (some (⟨false, index - length, 0⟩ :: entries, last))

def readOperationSpansInto (max : Nat) : Nat → Nat → Nat → Nat → List Nat →
    BinaryReader (Option (List OperationEntry × Nat))
  | 0, _, _, inserted, _ => return some ([], inserted)
  | fuel + 1, filled, cursor, inserted, lengths =>
    if lengths = [] then return some ([], inserted)
    else do
      let head ← readVarint
      let kind := head % 4
      let length := (head - kind) / 4
      require (length ≠ 0 && length ≤ lengths.length) (.invalidSpanLength filled length)
      let delta ← readZigZagVarint
      let anchor := unwrapAnchor cursor delta
      if kind = SpanKind.insert.code then do
        let expanded ← lift (expandInserts max filled anchor inserted (lengths.take length))
        match expanded with
        | none => return none
        | some (entries, index, inserted) => do
            let rest ← readOperationSpansInto max fuel (filled + length) index inserted
              (lengths.drop length)
            return rest.map fun (more, total) => (entries ++ more, total)
      else if kind = SpanKind.delete.code then
        if max < anchor then return none
        else do
          let rest ← readOperationSpansInto max fuel (filled + length) anchor inserted
            (lengths.drop length)
          return rest.map fun (more, total) =>
            (List.replicate length ⟨false, anchor, 0⟩ ++ more, total)
      else if kind = SpanKind.backspace.code then do
        let expanded ← lift (expandBackspaces max filled anchor (lengths.take length))
        match expanded with
        | none => return none
        | some (entries, index) => do
            let rest ← readOperationSpansInto max fuel (filled + length) index inserted
              (lengths.drop length)
            return rest.map fun (more, total) => (entries ++ more, total)
      else fail (.unknownSpanKind kind filled)

def readOperations (lengths : List Nat) : BinaryReader (List OperationEntry × Nat) :=
  readNarrowOrWide (readOperationSpansInto uint32Max lengths.length 0 0 0 lengths)
    (readOperationSpansInto maxSafeInteger lengths.length 0 0 0 lengths) ([], 0)

def checkInserts (content : Text) : Nat → List (OperationEntry × Nat) → Except CodecError Unit
  | _, [] => .ok ()
  | offset, (entry, length) :: rest =>
    let splits (position : Nat) (half : CodeUnit → Bool) : Bool :=
      match content[position]? with
      | some codeUnit => half codeUnit
      | none => false
    if entry.isInsert && length ≠ 0 && (splits entry.insertStart isLowSurrogate ||
        splits (entry.insertStart + length - 1) isHighSurrogate) then
      .error (.insertNotWellFormed offset)
    else checkInserts content (offset + 1) rest

def outOfRange {α : Type} (value : Int) (offset : Nat) : Except CodecError (Option α) :=
  if !isSafeInt value then .error (.timestampRange offset) else .ok none

def readDeltas (min max : Int) : Nat → Nat → Int → BinaryReader (Option (List Int))
  | 0, _, _ => return some []
  | left + 1, filled, previous => do
      let delta ← readZigZagVarint
      let value := previous + delta
      if value < min ∨ max < value then lift (outOfRange value filled)
      else do
        let rest ← readDeltas min max left (filled + 1) value
        return rest.map (value :: ·)

def readDeltaSegmentsInto (min max : Int) (count : Nat) :
    Nat → Nat → Int → Int → BinaryReader (Option (List Int))
  | 0, _, _, _ => return some []
  | fuel + 1, filled, previous, step =>
    if count ≤ filled then return some []
    else do
      let head ← readVarint
      let mode := head % 4
      let length := (head - mode) / 4
      require (length ≠ 0 && length ≤ count - filled) (.invalidSegmentLength filled length)
      if mode = SegmentMode.literal.code then do
        let left ← remaining
        require (length ≤ left.length) .unexpectedEnd
        let values ← readDeltas min max length filled previous
        match values with
        | none => return none
        | some values => do
            let rest ← readDeltaSegmentsInto min max count fuel (filled + length)
              (values.getLastD previous) step
            return rest.map (values ++ ·)
      else if mode ≠ SegmentMode.sameStep.code ∧ mode ≠ SegmentMode.newStep.code then
        fail (.unknownSegmentMode mode filled)
      else do
        let delta ← readZigZagVarint
        let first := previous + delta
        let step ← if mode = SegmentMode.newStep.code then readZigZagVarint else Pure.pure step
        if first < min ∨ max < first then lift (outOfRange first filled)
        else
          -- a segment is monotonic, so its ends bound every value in it
          let last := first + step * (length - 1 : Nat)
          if last < min ∨ max < last then lift (outOfRange last (filled + length - 1))
          else do
            let rest ← readDeltaSegmentsInto min max count fuel (filled + length) last step
            return rest.map
              (((List.range length).map fun (position : Nat) => first + step * position) ++ ·)

def readTimestamps (count : Nat) : BinaryReader (List Int) :=
  readNarrowOrWide (readDeltaSegmentsInto int32Min int32Max count count 0 0 0)
    (readDeltaSegmentsInto (-maxSafeInteger) maxSafeInteger count count 0 0 0) []

structure PackedColumns (Metadata : Type) where
  count : Nat
  idRuns : List IdRun
  overrides : List (Nat × List Nat)
  operationLengths : List Nat
  operations : List OperationEntry
  insertedContent : Text
  timestamps : List Int
  metadata : Metadata

structure PackedGraph (Metadata : Type) where
  columns : PackedColumns Metadata
  idIndex : EventIdRunIndex
  runs : GraphRuns
  frontier : List Text

def EventIdSet.ofList (ids : List Text) : EventIdSet := ids.foldl EventIdSet.add .empty

section Decode

variable {Metadata : Type} (platform : Platform Metadata)

def readInsertedContent (operations : List OperationEntry) (expectedLength : Nat)
    (lengths : List Nat) : BinaryReader Text := do
  let compressedLength ← readVarint
  let compressed ← readByteView compressedLength
  let maxBytes := min (expectedLength * 3) (compressed.length * lz4MaxExpansion) + 64
  let decompressed ← lift (platform.decompress compressed maxBytes)
  let content ← lift (decodeTextStrict decompressed)
  require (content.length = expectedLength) (.insertedContentSize expectedLength content.length)
  let _ ← lift (checkInserts content 0 (operations.zip lengths))
  return content

def readMetadata : BinaryReader Metadata where
  run input :=
    match readStrictString.run input with
    | .error _ => .error .invalidMetadata
    | .ok (text, rest) =>
      match platform.parse text with
      | none => .error .invalidMetadata
      | some metadata =>
        if platform.isObject metadata then .ok (metadata, rest) else .error .metadataNotObject

def readColumns (maxEvents : Option Nat) : BinaryReader (PackedColumns Metadata) := do
  let magicLength ← readVarint
  let magic ← readByteView magicLength
  require (magic = egw4Magic) .invalidHeader
  let count ← readVarint
  require (count ≤ egw4MaxEvents) (.tooManyEvents count)
  require (maxEvents.all (count ≤ ·)) (.eventLimit count (maxEvents.getD 0))
  let strings ← readStrings
  let idRuns ← readIdRuns strings count
  let overrides ← readParentOverrides count
  let operationLengths ← readLengths count
  let (operations, insertedLength) ← readOperations operationLengths
  let insertedContent ← readInsertedContent platform operations insertedLength operationLengths
  let timestamps ← readTimestamps count
  let metadata ← readMetadata platform
  let rest ← remaining
  require (rest = []) .trailingBytes
  return ⟨count, idRuns, overrides, operationLengths, operations, insertedContent, timestamps,
    metadata⟩

def checkFrontier (idIndex : EventIdRunIndex) : List Text → Except CodecError Unit
  | [] => .ok ()
  | id :: rest =>
    match idIndex.localVersionOf id with
    | none => .error (.unknownFrontierEvent id)
    | some _ => checkFrontier idIndex rest

def buildGraph (columns : PackedColumns Metadata) : Except CodecError (PackedGraph Metadata) :=
  match EventIdRunIndex.fromRuns columns.idRuns columns.count with
  | .error error => .error error
  | .ok idIndex =>
    let runs :=
      if columns.overrides = [] then GraphRuns.linear columns.count
      else GraphRuns.fromExplicitParents columns.count columns.overrides
    -- only the last event of a run can lack a child
    let childless := (List.range runs.count).filter fun run => runs.childCountOf run = 0
    let frontier := (childless.filterMap fun run => idIndex.idAt (runs.lastOf run)).eraseDups
    match checkFrontier idIndex frontier with
    | .error error => .error error
    | .ok () => .ok ⟨columns, idIndex, runs, frontier⟩

def decodeEgw4GraphSteps (bytes : List Byte) (maxEvents : Option Nat) :
    Except CodecError (PackedGraph Metadata) :=
  match verifyChecksum bytes with
  | .error error => .error error
  | .ok payload =>
    match (readColumns platform maxEvents).run payload with
    | .error error => .error error
    | .ok (columns, _) => buildGraph columns

end Decode

namespace PackedGraph

variable {Metadata : Type}

def operationAt (graph : PackedGraph Metadata) (offset : Nat) : Option Operation :=
  match graph.columns.operations[offset]?, graph.columns.operationLengths[offset]? with
  | some entry, some length =>
    if entry.isInsert then
      some (.insert (.ofInt entry.operationIndex)
        ((graph.columns.insertedContent.drop entry.insertStart).take length))
    else some (.delete (.ofInt entry.operationIndex) (.ofInt length))
  | _, _ => none

def eventAt (graph : PackedGraph Metadata) (offset : Nat) : Option GraphEvent :=
  match graph.idIndex.idAt offset, graph.operationAt offset,
      graph.columns.timestamps[offset]? with
  | some id, some operation, some timestamp =>
    some
      { id
        operation
        parentVersion := .ofList ((graph.runs.parentsAt offset).filterMap graph.idIndex.idAt)
        timestamp := .ofInt timestamp }
  | _, _, _ => none

/-- The events in insertion order. -/
def events (graph : PackedGraph Metadata) : List GraphEvent :=
  (List.range graph.columns.count).filterMap graph.eventAt

end PackedGraph

end Softmaple.Codec
