import Softmaple.Codec.Egw4Format
import Softmaple.Codec.EventIdText

/-!
The EGW4 encoder (`graph/columnar-codec/egw4-encoder.ts`). Each column is cut
into runs, spans or segments by the source's loop, and these are written as
varints one after the other. Loops over positions are loops over the list of
what is left, with as much fuel as there is left.
-/
namespace Softmaple.Codec

abbrev Written := Except CodecError (List Byte)

def concat : List Written → Written
  | [] => .ok []
  | .error error :: _ => .error error
  | .ok bytes :: rest => (concat rest).map (bytes ++ ·)

structure Egw4Row where
  isInsert : Bool
  operationIndex : Nat
  operationLength : Nat
  timestamp : Int
  overrideParents : Option (List Nat)
  deriving DecidableEq, Repr

structure IdRunState where
  string : Nat
  startSequence : Nat
  length : Nat
  custom : Bool
  deriving DecidableEq, Repr

structure Egw4IdRuns where
  strings : List Text
  stringByAgent : List (Nat × Nat)
  runs : List IdRunState
  events : Nat
  deriving DecidableEq, Repr

namespace Egw4IdRuns

def empty : Egw4IdRuns := ⟨[], [], [], 0⟩

def intern (ids : Egw4IdRuns) (string : Text) : Nat × Egw4IdRuns :=
  match ids.strings.idxOf? string with
  | some index => (index, ids)
  | none => (ids.strings.length, { ids with strings := ids.strings ++ [string] })

def pushCanonical (ids : Egw4IdRuns) (string sequence : Nat) : Egw4IdRuns :=
  { ids with
    runs := ⟨string, sequence, 1, false⟩ :: ids.runs
    events := ids.events + 1 }

/-- Append an ID that does not parse as `replicaId:sequence`. -/
def appendCustom (ids : Egw4IdRuns) (id : Text) : Egw4IdRuns :=
  let (string, ids) := ids.intern id
  { ids with
    runs := ⟨string, 0, 1, true⟩ :: ids.runs
    events := ids.events + 1 }

def extend (ids : Egw4IdRuns) (last : IdRunState) (older : List IdRunState) : Egw4IdRuns :=
  { ids with
    runs := { last with length := last.length + 1 } :: older
    events := ids.events + 1 }

def appendId (ids : Egw4IdRuns) (id : Text) : Egw4IdRuns :=
  match parseEventId id with
  | none => ids.appendCustom id
  | some (replicaId, sequence) =>
    let push := let (string, ids) := ids.intern replicaId; ids.pushCanonical string sequence
    match ids.runs with
    | last :: older =>
      if !last.custom && last.startSequence + last.length = sequence &&
          ids.strings[last.string]? = some replicaId then
        ids.extend last older
      else push
    | [] => push

def appendCanonical (ids : Egw4IdRuns) (agent : Nat) (replicaId : Text) (sequence : Nat) :
    Egw4IdRuns :=
  let (string, ids) :=
    match ids.stringByAgent.lookup agent with
    | some string => (string, ids)
    | none =>
      let (string, ids) := ids.intern replicaId
      (string, { ids with stringByAgent := (agent, string) :: ids.stringByAgent })
  match ids.runs with
  | last :: older =>
    if !last.custom && last.string = string && last.startSequence + last.length = sequence then
      ids.extend last older
    else ids.pushCanonical string sequence
  | [] => ids.pushCanonical string sequence

/-- The runs in order; `nextSequence` holds the sequence after each string's last run. -/
def writeRuns : List IdRunState → List Nat → List Written
  | [], _ => []
  | run :: rest, nextSequence =>
    if run.custom then writeVarint (run.string * 2 + 1) :: writeRuns rest nextSequence
    else
      let jumped := run.startSequence ≠ nextSequence.getD run.string 0
      writeVarint (run.string * 2) :: writeVarint (run.length * 2 + if jumped then 1 else 0) ::
        ((if jumped then [writeVarint run.startSequence] else []) ++
          writeRuns rest (nextSequence.set run.string (run.startSequence + run.length)))

def write (ids : Egw4IdRuns) : Written :=
  concat (writeVarint ids.strings.length :: ids.strings.map writeString ++
    writeRuns ids.runs.reverse (List.replicate ids.strings.length 0))

end Egw4IdRuns

def parentOverrides : Nat → List Egw4Row → List (Nat × List Nat)
  | _, [] => []
  | position, row :: rest =>
    match row.overrideParents with
    | some parents => (position, parents) :: parentOverrides (position + 1) rest
    | none => parentOverrides (position + 1) rest

/-- `next` is the position after the previous override. -/
def writeOverrides : Nat → List (Nat × List Nat) → List Written
  | _, [] => []
  | next, (position, parents) :: rest =>
    let gap := position - next
    (if parents.length < egw4ManyParents then [writeVarint (gap * 4 + parents.length)]
      else [writeVarint (gap * 4 + egw4ManyParents),
        writeVarint (parents.length - egw4ManyParents)]) ++
    parents.map (fun parent => writeVarint (position - parent)) ++
    writeOverrides (position + 1) rest

def writeParentOverrides (rows : List Egw4Row) (overrideCount : Nat) : Written :=
  let overrides := parentOverrides 0 rows
  match concat (writeVarint overrideCount :: writeOverrides 0 overrides) with
  | .error error => .error error
  | .ok bytes =>
    if overrides.length = overrideCount then .ok bytes
    else .error (.overrideCount overrideCount overrides.length)

inductive UnsignedRun where
  | repeated (count value : Nat)
  | literal (values : List Nat)
  deriving DecidableEq, Repr

/-- How many leading values equal the first. -/
def groupLength : List Nat → Nat
  | [] => 0
  | value :: rest => (rest.takeWhile (· = value)).length + 1

def literalLength : Nat → List Nat → Nat
  | 0, _ => 0
  | fuel + 1, values =>
    if values = [] ∨ egw4MinRepeat ≤ groupLength values then 0
    else groupLength values + literalLength fuel (values.drop (groupLength values))

def unsignedRuns : Nat → List Nat → List UnsignedRun
  | 0, _ => []
  | _ + 1, [] => []
  | fuel + 1, value :: rest =>
    let values := value :: rest
    let group := groupLength values
    if egw4MinRepeat ≤ group then
      .repeated group value :: unsignedRuns fuel (values.drop group)
    else
      let length := group + literalLength values.length (values.drop group)
      .literal (values.take length) :: unsignedRuns fuel (values.drop length)

def UnsignedRun.write : UnsignedRun → List Written
  | .repeated count value => [writeVarint (count * 2), writeVarint value]
  | .literal values => writeVarint (values.length * 2 + 1) :: values.map writeVarint

def writeUnsignedRuns (values : List Nat) : Written :=
  concat ((unsignedRuns values.length values).flatMap (·.write))

def insertSpan : Nat → List Egw4Row → Nat × Nat
  | cursor, [] => (0, cursor)
  | cursor, row :: rest =>
    if row.isInsert && row.operationIndex = cursor then
      let (count, after) := insertSpan (cursor + row.operationLength) rest
      (count + 1, after)
    else (0, cursor)

def backspaceSpan : Nat → List Egw4Row → Nat × Nat
  | cursor, [] => (0, cursor)
  | cursor, row :: rest =>
    if !row.isInsert && row.operationIndex + row.operationLength = cursor then
      let (count, after) := backspaceSpan row.operationIndex rest
      (count + 1, after)
    else (0, cursor)

def deleteSpan (index : Nat) (rows : List Egw4Row) : Nat :=
  (rows.takeWhile fun row => !row.isInsert && row.operationIndex = index).length

structure OperationSpan where
  kind : SpanKind
  count : Nat
  anchor : Nat
  cursorAfter : Nat
  deriving DecidableEq, Repr

def firstSpan (row : Egw4Row) (rest : List Egw4Row) : OperationSpan :=
  let after := row.operationIndex + row.operationLength
  if row.isInsert then
    let (count, cursorAfter) := insertSpan after rest
    ⟨.insert, count + 1, row.operationIndex, cursorAfter⟩
  else
    match rest with
    | next :: rest' =>
      if !next.isInsert && next.operationIndex ≠ row.operationIndex &&
          next.operationIndex + next.operationLength = row.operationIndex then
        let (count, cursorAfter) := backspaceSpan next.operationIndex rest'
        ⟨.backspace, count + 2, after, cursorAfter⟩
      else ⟨.delete, deleteSpan row.operationIndex rest + 1, row.operationIndex,
        row.operationIndex⟩
    | [] => ⟨.delete, 1, row.operationIndex, row.operationIndex⟩

def operationSpans : Nat → List Egw4Row → List OperationSpan
  | 0, _ => []
  | _ + 1, [] => []
  | fuel + 1, row :: rest =>
    let span := firstSpan row rest
    span :: operationSpans fuel ((row :: rest).drop span.count)

def writeSpans : Nat → List OperationSpan → List Written
  | _, [] => []
  | cursor, span :: rest =>
    writeVarint (span.count * 4 + span.kind.code) ::
      writeZigZagVarint (wrapAnchorDelta span.anchor cursor) :: writeSpans span.cursorAfter rest

def writeOperationSpans (rows : List Egw4Row) : Written :=
  concat (writeSpans 0 (operationSpans rows.length rows))

/-- The difference of two safe integers as a double, which is even beyond 2^53. -/
def numberSub (a b : Int) : Int :=
  let difference := a - b
  if difference.natAbs ≤ 2 ^ 53 ∨ difference % 2 = 0 then difference
  else if difference % 4 = 3 then difference + 1
  else difference - 1

inductive DeltaSegment where
  | steps (length : Nat) (first : Int) (newStep : Option Int)
  | literal (deltas : List Int)
  deriving DecidableEq, Repr

/-- How many values go on from `last` by the step. -/
def stepRun (step : Int) : Int → List Int → Nat
  | _, [] => 0
  | last, value :: rest => if numberSub value last = step then stepRun step value rest + 1 else 0

def flushLiteral (deltas : List Int) : List DeltaSegment :=
  if deltas = [] then [] else [.literal deltas]

/-- `pending` holds the deltas of the open literal run. -/
def deltaSegments : Nat → Int → Int → List Int → List Int → List DeltaSegment
  | 0, _, _, pending, _ => flushLiteral pending
  | _ + 1, _, _, pending, [] => flushLiteral pending
  | fuel + 1, previous, step, pending, value :: rest =>
    let (segmentStep, length) :=
      match rest with
      | [] => (step, 1)
      | next :: rest' => (numberSub next value, stepRun (numberSub next value) next rest' + 2)
    if 3 ≤ length ∨ length = 2 ∧ segmentStep = step then
      flushLiteral pending ++ .steps length (numberSub value previous)
          (if segmentStep = step then none else some segmentStep) ::
        deltaSegments fuel ((value :: rest).getD (length - 1) value) segmentStep []
          ((value :: rest).drop length)
    else
      deltaSegments fuel value step (pending ++ [numberSub value previous]) rest

def DeltaSegment.write : DeltaSegment → List Written
  | .steps length first none =>
    [writeVarint (length * 4 + SegmentMode.sameStep.code), writeZigZagVarint first]
  | .steps length first (some step) =>
    [writeVarint (length * 4 + SegmentMode.newStep.code), writeZigZagVarint first,
      writeZigZagVarint step]
  | .literal deltas =>
    writeVarint (deltas.length * 4 + SegmentMode.literal.code) :: deltas.map writeZigZagVarint

def writeDeltaSegments (values : List Int) : Written :=
  concat ((deltaSegments values.length 0 0 [] values).flatMap (·.write))

/-- Code outside the repository: the LZ4 frame codec and JSON. -/
structure Platform (Metadata : Type) where
  compress : List Byte → List Byte
  decompress : List Byte → Nat → Except CodecError (List Byte)
  stringify : Metadata → Text
  parse : Text → Option Metadata
  isObject : Metadata → Bool

structure Egw4EncodeInput (Metadata : Type) where
  rows : List Egw4Row
  ids : Egw4IdRuns
  overrideCount : Nat
  insertedText : Text
  metadata : Metadata

def encodeEgw4 {Metadata : Type} (platform : Platform Metadata)
    (input : Egw4EncodeInput Metadata) : Written :=
  if egw4MaxEvents < input.rows.length then .error (.tooManyEvents input.rows.length)
  else if input.ids.events ≠ input.rows.length then
    .error (.idRunCount input.ids.events input.rows.length)
  else
    (concat [
      writeBytes egw4Magic,
      writeVarint input.rows.length,
      input.ids.write,
      writeParentOverrides input.rows input.overrideCount,
      writeUnsignedRuns (input.rows.map (·.operationLength)),
      writeOperationSpans input.rows,
      writeBytes (platform.compress (encodeText input.insertedText)),
      writeDeltaSegments (input.rows.map (·.timestamp)),
      writeString (platform.stringify input.metadata)]).map
      fun payload => payload ++ writeUint32LE (crc32 payload)

end Softmaple.Codec
