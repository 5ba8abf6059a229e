import Softmaple.Codec.BinaryIo
import Softmaple.Lib.Json

/-!
Portable snapshots and the proofs that trust them (`core/portable-snapshot.ts`).
Snapshot objects and byte arrays are places that the caller may write to at any
time. A proof is kept by the place, and counts only as long as the object still
holds what was proven.
-/
namespace Softmaple.Snapshot

open Codec (Byte BinaryReader)

structure SnapshotCode where
  Graph : Type
  /-- `new EventGraph()`. -/
  create : Graph
  decodeBinary : (bytes : List Byte) → (maxEvents : Nat) → Option Graph
  /-- The bytes and the frontier in their order. -/
  encodeTopologicalBinary : Graph → Option (List Byte × List Text)
  deserialize : Json .value → Option Graph
  getEventCount : Graph → Nat
  getFrontier : Graph → Finset Text
  getMetadata : Graph → List (Text × Json .value)
  /-- `validateStoredEvents(assertRemoteEventWellFormed)`. -/
  validateStoredEvents : Graph → Bool
  /-- The text of a replica that is made from the initial text and replays the graph. -/
  replay : Graph → (initialText : Text) → Option Text
  /-- The graph and the text of a replica that is made from the initial text and applies the events
  of the graph in topological order. -/
  applyRemoteEvents : Graph → (initialText : Text) → Option (Graph × Text)
  /-- `inferNextSequenceNumber`. -/
  inferNextSequenceNumber : Graph → Nat
  /-- `JSON.parse`. -/
  parse : Text → Option (Json .value)
  /-- `TextDecoder.decode`, which replaces malformed bytes. -/
  decodeText : List Byte → Text

def formatVersion : Text := Json.literal "EGWP1"

/-- A snapshot all of whose fields are as `PortableSnapshot` says. -/
structure PortableSnapshot where
  formatVersion : Text
  text : Text
  initialText : Text
  currentVersion : List Text
  eventCount : Nat
  nextSequenceNumber : Nat
  eventGraph : List Byte
deriving DecidableEq

/-- The fields of an object, none where they are not of their type (for a number, not a safe
integer). `eventGraph` is the place of its byte array. -/
structure SnapshotObject where
  formatVersion : Option Text
  text : Option Text
  initialText : Option Text
  currentVersion : Option (List (Option Text))
  eventCount : Option Int
  nextSequenceNumber : Option Int
  eventGraph : Option Nat

/-- The objects, and the proofs of the two weak maps. -/
structure Heap where
  snapshots : List SnapshotObject
  arrays : List (List Byte)
  trustedSnapshots : Nat → Option PortableSnapshot
  trustedEncodedBytes : Nat → Option PortableSnapshot

namespace Heap

def empty : Heap := ⟨[], [], fun _ => none, fun _ => none⟩

/-- `Array.isArray` and `instanceof Uint8Array` come first. -/
def snapshotMatchesProof (heap : Heap) (snapshot : SnapshotObject) (proof : PortableSnapshot) : Bool :=
  match snapshot.currentVersion, snapshot.eventGraph.bind (heap.arrays[·]?) with
  | some currentVersion, some eventGraph =>
    snapshot.formatVersion = some proof.formatVersion && snapshot.text = some proof.text &&
      snapshot.initialText = some proof.initialText &&
      snapshot.eventCount = some (proof.eventCount : Int) &&
      snapshot.nextSequenceNumber = some (proof.nextSequenceNumber : Int) &&
      currentVersion = proof.currentVersion.map some && eventGraph = proof.eventGraph
  | _, _ => false

def matchingProof (heap : Heap) (place : Nat) : Option PortableSnapshot :=
  match heap.snapshots[place]?, heap.trustedSnapshots place with
  | some snapshot, some proof => if heap.snapshotMatchesProof snapshot proof then some proof else none
  | _, _ => none

def portableSnapshotRequiresTextValidation (heap : Heap) (place : Nat) : Bool :=
  (heap.matchingProof place).isNone

/-- A new object with its own byte array. -/
def addSnapshot (heap : Heap) (snapshot : PortableSnapshot) (proof : Option PortableSnapshot) : Heap :=
  { heap with
    snapshots := heap.snapshots ++
      [⟨some snapshot.formatVersion, some snapshot.text, some snapshot.initialText,
        some (snapshot.currentVersion.map some), some snapshot.eventCount,
        some snapshot.nextSequenceNumber, some heap.arrays.length⟩]
    arrays := heap.arrays ++ [snapshot.eventGraph]
    trustedSnapshots := fun place =>
      if place = heap.snapshots.length then proof else heap.trustedSnapshots place
    trustedEncodedBytes := fun place =>
      if place = heap.arrays.length then none else heap.trustedEncodedBytes place }

def registerTrustedPortableSnapshot (heap : Heap) (snapshot : PortableSnapshot) : Heap :=
  heap.addSnapshot snapshot (some snapshot)

end Heap

def strictEventIds : List (Option Text) → Option (List Text)
  | [] => some []
  | none :: _ => none
  | some id :: rest =>
    match strictEventIds rest with
    | none => none
    | some ids => if id = [] ∨ id ∈ ids then none else some (id :: ids)

def nonNegative : Option Int → Option Nat
  | some value => if value < 0 then none else some value.toNat
  | none => none

/-- A private copy of the object, once its fields are checked. -/
def validatePortableSnapshotHeaderOnly (heap : Heap) (snapshot : SnapshotObject) :
    Option PortableSnapshot := do
  if snapshot.formatVersion ≠ some formatVersion then none
  else
    let text ← snapshot.text
    let initialText ← snapshot.initialText
    if !Utf8.wellFormed text || !Utf8.wellFormed initialText then none
    else
      let currentVersion ← strictEventIds (← snapshot.currentVersion)
      let eventCount ← nonNegative snapshot.eventCount
      let nextSequenceNumber ← nonNegative snapshot.nextSequenceNumber
      let eventGraph ← snapshot.eventGraph.bind (heap.arrays[·]?)
      return ⟨formatVersion, text, initialText, currentVersion, eventCount, nextSequenceNumber,
        eventGraph⟩

def forbiddenRuntimeMetadata : List Text :=
  [Json.literal "sequenceRecords", Json.literal "deleteTargets", Json.literal "checkpoints",
    Json.literal "replayCache", Json.literal "fugueIndex", Json.literal "ropeNodes"]

def portableSnapshotMetadata (metadata : List (Text × Json .value)) : Bool :=
  metadata.all fun entry => entry.1 ∉ forbiddenRuntimeMetadata

def sameIds (left right : Finset Text) : Bool := left.card = right.card && decide (left ⊆ right)

section Graphs

variable (code : SnapshotCode)

def decodePortableSnapshotGraph (snapshot : PortableSnapshot) : Option code.Graph := do
  let graph ← code.decodeBinary snapshot.eventGraph snapshot.eventCount
  if code.getEventCount graph = snapshot.eventCount ∧
      sameIds (code.getFrontier graph) snapshot.currentVersion.toFinset ∧
      portableSnapshotMetadata (code.getMetadata graph) then
    some graph
  else none

/-- `new EgWalkerReplica(_, initialText, graph)`: a graph without events is not replayed. -/
def construct (initialText : Text) (graph : code.Graph) : Option Text :=
  if !Utf8.wellFormed initialText then none
  else if code.getEventCount graph = 0 then some initialText
  else if code.validateStoredEvents graph then code.replay graph initialText
  else none

def validateUntrustedSnapshot (snapshot : PortableSnapshot) : Option PortableSnapshot := do
  let graph ← decodePortableSnapshotGraph code snapshot
  let text ← construct code snapshot.initialText graph
  if text = snapshot.text then some snapshot else none

end Graphs

section Bytes

variable (code : SnapshotCode)

def magic : List Byte := Codec.encodeText formatVersion

def header (snapshot : PortableSnapshot) : Json .value :=
  Json.objectOf [("formatVersion", .string snapshot.formatVersion), ("text", .string snapshot.text),
    ("initialText", .string snapshot.initialText),
    ("currentVersion", .array (Json.ofItems (snapshot.currentVersion.map .string))),
    ("eventCount", .number snapshot.eventCount),
    ("nextSequenceNumber", .number snapshot.nextSequenceNumber)]

def writeSnapshot (snapshot : PortableSnapshot) : Option (List Byte) :=
  match Codec.writeString (header snapshot).stringify, Codec.writeBytes snapshot.eventGraph with
  | .ok text, .ok eventGraph => some (magic ++ text ++ eventGraph)
  | _, _ => none

def encodedProof (heap : Heap) (place : Nat) : Option PortableSnapshot :=
  match heap.matchingProof place with
  | some proof => some proof
  | none => do
      let validated ← validatePortableSnapshotHeaderOnly heap (← heap.snapshots[place]?)
      validateUntrustedSnapshot code validated

def encodePortableSnapshot (heap : Heap) (place : Nat) : Option Heap := do
  let proof ← encodedProof code heap place
  let encoded ← writeSnapshot proof
  return { heap with
    arrays := heap.arrays ++ [encoded]
    trustedSnapshots := fun other =>
      if other = place then some proof else heap.trustedSnapshots other
    trustedEncodedBytes := fun other =>
      if other = heap.arrays.length then some proof else heap.trustedEncodedBytes other }

def items : Json .items → List (Json .value)
  | .nil => []
  | .cons first rest => first :: items rest

def parseHeader (text : Text) (heap : Heap) : Option SnapshotObject := do
  let parsed ← code.parse text
  if !parsed.isRecord then none
  else
    return {
      formatVersion := Json.asString (parsed.get "formatVersion")
      text := Json.asString (parsed.get "text")
      initialText := Json.asString (parsed.get "initialText")
      currentVersion := match parsed.get "currentVersion" with
        | some (.array values) => some ((items values).map fun value => Json.asString (some value))
        | _ => none
      eventCount := Json.asNumber (parsed.get "eventCount")
      nextSequenceNumber := Json.asNumber (parsed.get "nextSequenceNumber")
      eventGraph := some heap.arrays.length }

def readString : BinaryReader Text := do
  let length ← Codec.readVarint
  let bytes ← Codec.readByteView length
  return code.decodeText bytes

def readBytes : BinaryReader (List Byte) := do
  let length ← Codec.readVarint
  Codec.readByteView length

def readSnapshot (bytes : List Byte) : Option PortableSnapshot :=
  if bytes.take magic.length ≠ magic then none
  else
    match (readString code).run (bytes.drop magic.length) with
    | .error _ => none
    | .ok (text, rest) =>
      match readBytes.run rest with
      | .ok (eventGraph, []) =>
        let heap : Heap := { Heap.empty with arrays := [eventGraph] }
        (parseHeader code text Heap.empty).bind (validatePortableSnapshotHeaderOnly heap)
      | _ => none

def decodePortableSnapshot (heap : Heap) (place : Nat) : Option Heap := do
  let snapshot ← readSnapshot code (← heap.arrays[place]?)
  return heap.addSnapshot snapshot ((heap.trustedEncodedBytes place).filter (snapshot = ·))

end Bytes

section Authentication

variable (code : SnapshotCode)

def authenticationContext : List Byte :=
  Codec.encodeText (Json.literal "softmaple eg-walker EGWP1 snapshot authentication v1\x00")

def authenticatedMessage (bytes : List Byte) : List Byte := authenticationContext ++ bytes

def authenticatePortableSnapshot (heap : Heap) (place : Nat) : Option (List Byte) := do
  let bytes ← heap.arrays[place]?
  let snapshot ← readSnapshot code bytes
  if heap.trustedEncodedBytes place = some snapshot then some (authenticatedMessage bytes)
  else
    let _ ← validateUntrustedSnapshot code snapshot
    return authenticatedMessage bytes

/-- What `decodeAuthenticatedPortableSnapshot` does once the tag is verified. -/
def decodeVerified (heap : Heap) (bytes : List Byte) : Option Heap := do
  let snapshot ← readSnapshot code bytes
  return heap.registerTrustedPortableSnapshot snapshot

end Authentication

end Softmaple.Snapshot
