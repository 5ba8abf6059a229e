import Softmaple.Codec.Egw4Format
import Softmaple.Snapshot.PortableSnapshot

/-!
The replicas that give and take snapshots, and the public calls in any order
(`core/replica.ts`, `core/portable-snapshot-codec.ts`). A replica is its text,
its graph and what is left to be decoded of its history; what an edit makes of
the text and the graph is open.
-/
namespace Softmaple.Snapshot

open Codec (Byte)

variable (code : SnapshotCode)

/-- The event graph, or where it comes from once it is needed. -/
inductive History where
  | live (graph : code.Graph)
  /-- With the text to prove, none for a trusted snapshot. -/
  | portable (snapshot : PortableSnapshot) (text : Option Text)
  | native (bytes : List Byte) (eventCount : Nat) (currentVersion : List Text)

structure Replica where
  initialText : Text
  text : Text
  nextSequenceNumber : Nat
  history : History code

/-- The graph section of a native snapshot: its `eventGraph`, the bytes a replica of this process
encoded, or bytes that `NativeSnapshotCodec` decoded and whose graph is still to be decoded. -/
inductive NativeGraph where
  | events (eventGraph : Json .value)
  | encoded (bytes : List Byte)
  | decoded (bytes : List Byte)

structure NativeSnapshot where
  text : Text
  initialText : Text
  currentVersion : List Text
  eventCount : Nat
  nextSequenceNumber : Nat
  eventGraph : NativeGraph

structure SerializedReplica where
  text : Text
  eventGraph : Option (Json .value)

section Replicas

variable {code}

def validateGraphMatchesHeader (graph : code.Graph) (eventCount : Nat) (currentVersion : List Text) :
    Option code.Graph :=
  if code.getEventCount graph = eventCount ∧ code.getFrontier graph = currentVersion.toFinset then
    some graph
  else none

def adopt (replica : Replica code) (graph : code.Graph) : Option (code.Graph × Replica code) :=
  if code.validateStoredEvents graph then some (graph, { replica with history := .live graph })
  else none

/-- The graph, decoded and proven where that is still to be done. -/
def ensureEventGraph (replica : Replica code) : Option (code.Graph × Replica code) :=
  match replica.history with
  | .live graph => some (graph, replica)
  | .portable snapshot expectedText => do
      let (graph, ready) ← adopt replica (← decodePortableSnapshotGraph code snapshot)
      match expectedText with
      | none => return (graph, ready)
      | some text =>
        let replayed ← code.replay graph replica.initialText
        if replayed = text then some (graph, { ready with text := replayed }) else none
  | .native bytes eventCount currentVersion => do
      let graph ← code.decodeBinary bytes eventCount
      adopt replica (← validateGraphMatchesHeader graph eventCount currentVersion)

/-- What `createPortableSnapshot` captures of a replica that has its graph. -/
def captureSnapshot (graph : code.Graph) (replica : Replica code) : Option PortableSnapshot :=
  if portableSnapshotMetadata (code.getMetadata graph) then do
    let (binary, frontier) ← code.encodeTopologicalBinary graph
    return ⟨formatVersion, replica.text, replica.initialText, frontier, code.getEventCount graph,
      replica.nextSequenceNumber, binary⟩
  else none

end Replicas

def fromPortableSnapshot (heap : Heap) (place : Nat) : Option (Replica code) := do
  let validated ← validatePortableSnapshotHeaderOnly heap (← heap.snapshots[place]?)
  -- the private copy is trusted where the snapshot is
  let expectedText :=
    if heap.portableSnapshotRequiresTextValidation place then some validated.text else none
  return ⟨validated.initialText, validated.text, validated.nextSequenceNumber,
    .portable validated expectedText⟩

def fromNativeSnapshot (snapshot : NativeSnapshot) : Option (Replica code) := do
  let history ← match snapshot.eventGraph with
    | .events eventGraph =>
      ((code.deserialize eventGraph).bind fun graph =>
        validateGraphMatchesHeader graph snapshot.eventCount snapshot.currentVersion).map .live
    | .encoded bytes =>
      ((code.decodeBinary bytes snapshot.eventCount).bind fun graph =>
        validateGraphMatchesHeader graph snapshot.eventCount snapshot.currentVersion).map .live
    | .decoded bytes => some (.native bytes snapshot.eventCount snapshot.currentVersion)
  let valid := match history with
    | .live graph => code.getEventCount graph = 0 || code.validateStoredEvents graph
    | _ => true
  if Utf8.wellFormed snapshot.initialText && Utf8.wellFormed snapshot.text && valid then
    some ⟨snapshot.initialText, snapshot.text, snapshot.nextSequenceNumber, history⟩
  else none

def deserializeReplica (serialized : SerializedReplica) : Option (Replica code) :=
  match serialized.eventGraph with
  | none => do
      let text ← construct code serialized.text code.create
      return ⟨serialized.text, text, code.inferNextSequenceNumber code.create, .live code.create⟩
  | some eventGraph => do
      let graph ← code.deserialize eventGraph
      let metadata := Json.object (Json.ofFields (code.getMetadata graph))
      let initialText := (Json.asString (metadata.get "initialText")).getD
        (if code.getEventCount graph = 0 then serialized.text else [])
      let replayed ← construct code initialText graph
      let (graph, text) ←
        if 0 < code.getEventCount graph ∧ replayed ≠ serialized.text then
          code.applyRemoteEvents graph initialText
        else some (graph, replayed)
      let nextSequenceNumber := (Json.asNumber (metadata.get "nextSequenceNumber")).map Int.toNat
      return ⟨initialText, text, nextSequenceNumber.getD (code.inferNextSequenceNumber graph),
        .live graph⟩

/-- One realm: what the caller can reach, and the tags that were made with the key. -/
structure Realm where
  heap : Heap
  replicas : List (Replica code)
  tags : List (Nat × List Byte)

def Realm.empty : Realm code := ⟨.empty, [], []⟩

/-- What the caller does: writes to the objects it holds, and the public calls. A tag is given by
its number, as it cannot be made up. -/
inductive Action where
  | makeSnapshot (snapshot : SnapshotObject)
  | makeArray (bytes : List Byte)
  | writeSnapshot (place : Nat) (snapshot : SnapshotObject)
  | writeArray (place : Nat) (bytes : List Byte)
  | construct (initialText : Text)
  | deserialize (serialized : SerializedReplica)
  | fromNativeSnapshot (snapshot : NativeSnapshot)
  | fromPortableSnapshot (place : Nat)
  | prepare (replica : Nat)
  | edit (replica : Nat) (graph : code.Graph) (text : Text) (nextSequenceNumber : Nat)
  | createPortableSnapshot (replica : Nat)
  | encode (place : Nat)
  | decode (place : Nat)
  | authenticate (place key : Nat)
  | decodeAuthenticated (place key tag : Nat)

namespace Realm

variable {code}

def addReplica (realm : Realm code) : Option (Replica code) → Realm code
  | some replica => { realm with replicas := realm.replicas ++ [replica] }
  | none => realm

def setHeap (realm : Realm code) : Option Heap → Realm code
  | some heap => { realm with heap := heap }
  | none => realm

def ready (realm : Realm code) (replica : Nat) : Option (code.Graph × Replica code) :=
  realm.replicas[replica]?.bind ensureEventGraph

/-- A call that throws leaves everything as it is, but for a history that is decoded by then. -/
def step (realm : Realm code) : Action code → Realm code
  | .makeSnapshot snapshot =>
    { realm with
      heap :=
        { realm.heap with
          snapshots := realm.heap.snapshots ++ [snapshot]
          trustedSnapshots := fun place =>
            if place = realm.heap.snapshots.length then none
            else realm.heap.trustedSnapshots place } }
  | .makeArray bytes =>
    { realm with
      heap :=
        { realm.heap with
          arrays := realm.heap.arrays ++ [bytes]
          trustedEncodedBytes := fun place =>
            if place = realm.heap.arrays.length then none
            else realm.heap.trustedEncodedBytes place } }
  | .writeSnapshot place snapshot =>
    { realm with
      heap := { realm.heap with snapshots := realm.heap.snapshots.set place snapshot } }
  | .writeArray place bytes =>
    { realm with heap := { realm.heap with arrays := realm.heap.arrays.set place bytes } }
  | .construct initialText =>
    realm.addReplica ((Snapshot.construct code initialText code.create).map fun text =>
      ⟨initialText, text, code.inferNextSequenceNumber code.create, .live code.create⟩)
  | .deserialize serialized => realm.addReplica (deserializeReplica code serialized)
  | .fromNativeSnapshot snapshot => realm.addReplica (Snapshot.fromNativeSnapshot code snapshot)
  | .fromPortableSnapshot place => realm.addReplica (Snapshot.fromPortableSnapshot code realm.heap place)
  | .prepare replica =>
    match realm.ready replica with
    | some (_, ready) => { realm with replicas := realm.replicas.set replica ready }
    | none => realm
  | .edit replica graph text nextSequenceNumber =>
    match realm.ready replica with
    | some (_, ready) =>
      { realm with
        replicas := realm.replicas.set replica { ready with
            text := text
            nextSequenceNumber := nextSequenceNumber
            history := .live graph } }
    | none => realm
  | .createPortableSnapshot replica =>
    match realm.ready replica with
    | some (graph, ready) =>
      { realm with replicas := realm.replicas.set replica ready }.setHeap
        ((captureSnapshot graph ready).map realm.heap.registerTrustedPortableSnapshot)
    | none => realm
  | .encode place => realm.setHeap (encodePortableSnapshot code realm.heap place)
  | .decode place => realm.setHeap (decodePortableSnapshot code realm.heap place)
  | .authenticate place key =>
    match authenticatePortableSnapshot code realm.heap place with
    | some message => { realm with tags := realm.tags ++ [(key, message)] }
    | none => realm
  | .decodeAuthenticated place key tag =>
    match realm.heap.arrays[place]? with
    | some bytes =>
      if realm.tags[tag]? = some (key, authenticatedMessage bytes) then
        realm.setHeap (decodeVerified code realm.heap bytes)
      else realm
    | none => realm

def run (actions : List (Action code)) : Realm code := actions.foldl step (.empty code)

end Realm

end Softmaple.Snapshot

namespace Softmaple.Snapshot

open Codec (Byte)

variable (code : SnapshotCode)

def Proven (snapshot : PortableSnapshot) : Prop :=
  ∃ graph, code.decodeBinary snapshot.eventGraph snapshot.eventCount = some graph ∧
    code.getFrontier graph = snapshot.currentVersion.toFinset ∧
    construct code snapshot.initialText graph = some snapshot.text

/-- Only proven snapshots are trusted, and only their bytes get a tag. -/
structure Sound (realm : Realm code) : Prop where
  trusted : ∀ place, realm.heap.portableSnapshotRequiresTextValidation place = false →
    ∃ object snapshot, realm.heap.snapshots[place]? = some object ∧
      realm.heap.snapshotMatchesProof object snapshot = true ∧ Proven code snapshot
  tagged : ∀ key bytes, (key, authenticatedMessage bytes) ∈ realm.tags →
    ∃ snapshot, readSnapshot code bytes = some snapshot ∧ Proven code snapshot

def ShowsReplay (graph : code.Graph) (replica : Replica code) : Prop :=
  ∀ binary frontier, code.encodeTopologicalBinary graph = some (binary, frontier) →
    ∃ decoded, code.decodeBinary binary (code.getEventCount graph) = some decoded ∧
      code.getFrontier decoded = frontier.toFinset ∧
      construct code replica.initialText decoded = some replica.text

/-- A portable snapshot is only taken of a replica that shows the replay of its graph. -/
def Meets (realm : Realm code) : Action code → Prop
  | .createPortableSnapshot replica => ∀ graph ready, realm.ready replica = some (graph, ready) →
      portableSnapshotMetadata (code.getMetadata graph) = true → ShowsReplay code graph ready
  | _ => True

structure Heap.Proven (heap : Heap) : Prop where
  snapshots : ∀ place proof, heap.trustedSnapshots place = some proof → Snapshot.Proven code proof
  arrays : ∀ place proof, heap.trustedEncodedBytes place = some proof → Snapshot.Proven code proof

structure Realm.Proven (realm : Realm code) : Prop where
  heap : realm.heap.Proven code
  tags : ∀ entry ∈ realm.tags, ∃ bytes snapshot, entry.2 = authenticatedMessage bytes ∧
    readSnapshot code bytes = some snapshot ∧ Snapshot.Proven code snapshot

section Objects

variable {code}

theorem matchingProof_eq_some {heap : Heap} {place : Nat} {proof : PortableSnapshot}
    (h : heap.matchingProof place = some proof) :
    heap.trustedSnapshots place = some proof ∧ ∃ object, heap.snapshots[place]? = some object ∧
        heap.snapshotMatchesProof object proof = true := by
  unfold Heap.matchingProof at h
  split at h
  · next object found hobject hfound =>
      split at h
      · next hmatches =>
          cases h
          exact ⟨hfound, object, hobject, hmatches⟩
      · cases h
  · cases h

theorem requiresTextValidation_eq_false {heap : Heap} {place : Nat} :
    heap.portableSnapshotRequiresTextValidation place = false ↔
      ∃ proof, heap.matchingProof place = some proof := by
  unfold Heap.portableSnapshotRequiresTextValidation
  cases heap.matchingProof place with
  | none => exact ⟨fun h => (by cases h), fun h => (by cases h.choose_spec)⟩
  | some proof => exact ⟨fun _ => ⟨proof, rfl⟩, fun _ => rfl⟩

theorem snapshotMatchesProof_self {heap : Heap} {place : Nat} (snapshot : PortableSnapshot)
    (hplace : heap.arrays[place]? = some snapshot.eventGraph) :
    heap.snapshotMatchesProof ⟨some snapshot.formatVersion, some snapshot.text,
      some snapshot.initialText, some (snapshot.currentVersion.map some), some snapshot.eventCount,
      some snapshot.nextSequenceNumber, some place⟩ snapshot = true := by
  unfold Heap.snapshotMatchesProof
  dsimp only [Option.bind_some]
  rw [hplace]
  simp

/-- And nothing else. -/
theorem snapshotMatchesProof_unique {heap : Heap} {object : SnapshotObject}
    {first second : PortableSnapshot} (hfirst : heap.snapshotMatchesProof object first = true)
    (hsecond : heap.snapshotMatchesProof object second = true) : first = second := by
  unfold Heap.snapshotMatchesProof at hfirst hsecond
  split at hfirst
  · next currentVersion eventGraph hversion hgraph =>
      rw [hversion, hgraph] at hsecond
      simp only [Bool.and_eq_true, decide_eq_true_eq] at hfirst hsecond
      obtain ⟨⟨⟨⟨⟨⟨hformat, htext⟩, hinitial⟩, hcount⟩, hnext⟩, hcurrent⟩, hbytes⟩ := hfirst
      obtain ⟨⟨⟨⟨⟨⟨hformat', htext'⟩, hinitial'⟩, hcount'⟩, hnext'⟩, hcurrent'⟩, hbytes'⟩ := hsecond
      have hversions : first.currentVersion = second.currentVersion :=
        List.map_injective_iff.mpr (Option.some_injective Text) (hcurrent.symm.trans hcurrent')
      cases first
      cases second
      dsimp only at *
      rw [PortableSnapshot.mk.injEq]
      exact ⟨Option.some.inj (hformat.symm.trans hformat'), Option.some.inj (htext.symm.trans htext'),
        Option.some.inj (hinitial.symm.trans hinitial'), hversions,
        Int.ofNat.inj (Option.some.inj (hcount.symm.trans hcount')),
        Int.ofNat.inj (Option.some.inj (hnext.symm.trans hnext')), hbytes.symm.trans hbytes'⟩
  · cases hfirst

theorem matchingProof_register (heap : Heap) (snapshot : PortableSnapshot) :
    (heap.registerTrustedPortableSnapshot snapshot).matchingProof heap.snapshots.length =
      some snapshot := by
  have hobject : (heap.registerTrustedPortableSnapshot snapshot).snapshots[heap.snapshots.length]? =
      some ⟨some snapshot.formatVersion, some snapshot.text, some snapshot.initialText,
        some (snapshot.currentVersion.map some), some snapshot.eventCount,
        some snapshot.nextSequenceNumber, some heap.arrays.length⟩ := List.getElem?_concat_length
  have hproof : (heap.registerTrustedPortableSnapshot snapshot).trustedSnapshots
      heap.snapshots.length = some snapshot := if_pos rfl
  unfold Heap.matchingProof
  rw [hobject, hproof]
  exact if_pos (snapshotMatchesProof_self snapshot List.getElem?_concat_length)

theorem validateUntrustedSnapshot_eq_some {snapshot validated : PortableSnapshot}
    (h : validateUntrustedSnapshot code snapshot = some validated) :
    validated = snapshot ∧ Proven code snapshot := by
  obtain ⟨graph, hgraph, hrest⟩ := Option.bind_eq_some_iff.mp h
  obtain ⟨text, htext, hlast⟩ := Option.bind_eq_some_iff.mp hrest
  obtain ⟨decoded, hdecoded, hchecks⟩ := Option.bind_eq_some_iff.mp hgraph
  split at hchecks
  · next hvalid =>
      cases hchecks
      obtain ⟨-, hsame, -⟩ := hvalid
      obtain ⟨hcard, hsubset⟩ := Bool.and_eq_true_iff.mp hsame
      have hfrontier : code.getFrontier graph = snapshot.currentVersion.toFinset :=
        Finset.eq_of_subset_of_card_le (of_decide_eq_true hsubset)
          (Nat.le_of_eq (of_decide_eq_true hcard).symm)
      split at hlast
      · next heq =>
          cases hlast
          exact ⟨rfl, graph, hdecoded, hfrontier, heq ▸ htext⟩
      · cases hlast
  · cases hchecks

end Objects

section Heaps

variable {code} {heap after : Heap} (h : heap.Proven code)
include h

theorem Heap.Proven.addSnapshot (snapshot : PortableSnapshot) {proof : Option PortableSnapshot}
    (hproof : ∀ known, proof = some known → Snapshot.Proven code known) :
    (heap.addSnapshot snapshot proof).Proven code := by
  constructor
  · intro place known hknown
    dsimp only [Heap.addSnapshot] at hknown
    split at hknown
    · exact hproof known hknown
    · exact h.snapshots place known hknown
  · intro place known hknown
    dsimp only [Heap.addSnapshot] at hknown
    split at hknown
    · cases hknown
    · exact h.arrays place known hknown

variable {place : Nat}

theorem Heap.Proven.encodedProof {proof : PortableSnapshot}
    (hproof : encodedProof code heap place = some proof) : Snapshot.Proven code proof := by
  unfold Snapshot.encodedProof at hproof
  split at hproof
  · next known hmatching =>
      cases hproof
      exact h.snapshots place proof (matchingProof_eq_some hmatching).1
  · obtain ⟨object, -, hrest⟩ := Option.bind_eq_some_iff.mp hproof
    obtain ⟨copied, -, hvalidated⟩ := Option.bind_eq_some_iff.mp hrest
    obtain ⟨rfl, hproven⟩ := validateUntrustedSnapshot_eq_some hvalidated
    exact hproven

theorem Heap.Proven.encode (hencode : encodePortableSnapshot code heap place = some after) :
    after.Proven code := by
  obtain ⟨proof, hproof, hrest⟩ := Option.bind_eq_some_iff.mp hencode
  obtain ⟨encoded, -, hafter⟩ := Option.bind_eq_some_iff.mp hrest
  cases hafter
  constructor
  · intro other known hknown
    dsimp only at hknown
    split at hknown
    · cases hknown
      exact h.encodedProof hproof
    · exact h.snapshots other known hknown
  · intro other known hknown
    dsimp only at hknown
    split at hknown
    · cases hknown
      exact h.encodedProof hproof
    · exact h.arrays other known hknown

theorem Heap.Proven.decode (hdecode : decodePortableSnapshot code heap place = some after) :
    after.Proven code := by
  obtain ⟨bytes, -, hrest⟩ := Option.bind_eq_some_iff.mp hdecode
  obtain ⟨snapshot, -, hafter⟩ := Option.bind_eq_some_iff.mp hrest
  cases hafter
  refine h.addSnapshot snapshot fun known hknown => ?_
  obtain ⟨hfound, -⟩ := Option.filter_eq_some_iff.mp hknown
  exact h.arrays place known hfound

theorem Heap.Proven.authenticate {message : List Byte}
    (hauthenticate : authenticatePortableSnapshot code heap place = some message) :
    ∃ bytes snapshot, message = authenticatedMessage bytes ∧
      readSnapshot code bytes = some snapshot ∧ Snapshot.Proven code snapshot := by
  obtain ⟨bytes, -, hrest⟩ := Option.bind_eq_some_iff.mp hauthenticate
  obtain ⟨snapshot, hread, hmore⟩ := Option.bind_eq_some_iff.mp hrest
  split at hmore
  · next htrusted =>
      cases hmore
      exact ⟨bytes, snapshot, rfl, hread, h.arrays place snapshot htrusted⟩
  · obtain ⟨validated, hvalidated, hmessage⟩ := Option.bind_eq_some_iff.mp hmore
    cases hmessage
    exact ⟨bytes, snapshot, rfl, hread, (validateUntrustedSnapshot_eq_some hvalidated).2⟩

end Heaps

section Steps

variable {code} {realm : Realm code}

theorem Realm.Proven.sound (h : realm.Proven code) : Sound code realm := by
  constructor
  · intro place htrusted
    obtain ⟨proof, hproof⟩ := requiresTextValidation_eq_false.mp htrusted
    obtain ⟨hfound, object, hobject, hmatches⟩ := matchingProof_eq_some hproof
    exact ⟨object, proof, hobject, hmatches, h.heap.snapshots place proof hfound⟩
  · intro key bytes hmem
    obtain ⟨other, snapshot, hmessage, hread, hproven⟩ := h.tags _ hmem
    have hbytes : bytes = other := List.append_cancel_left hmessage
    exact ⟨snapshot, hbytes ▸ hread, hproven⟩

theorem Realm.Proven.addReplica (h : realm.Proven code) (replica : Option (Replica code)) :
    (realm.addReplica replica).Proven code := by
  cases replica with
  | none => exact h
  | some replica => exact ⟨h.heap, h.tags⟩

theorem Realm.Proven.setHeap (h : realm.Proven code) {heap : Option Heap}
    (hheap : ∀ after, heap = some after → after.Proven code) : (realm.setHeap heap).Proven code := by
  cases heap with
  | none => exact h
  | some heap => exact ⟨hheap heap rfl, h.tags⟩

theorem proven_captureSnapshot {graph : code.Graph} {replica : Replica code}
    {snapshot : PortableSnapshot} (hcapture : captureSnapshot graph replica = some snapshot)
    (hshows : portableSnapshotMetadata (code.getMetadata graph) = true →
      ShowsReplay code graph replica) : Proven code snapshot := by
  unfold captureSnapshot at hcapture
  split at hcapture
  · next hmetadata =>
      obtain ⟨⟨binary, frontier⟩, hencode, hsnapshot⟩ := Option.bind_eq_some_iff.mp hcapture
      cases hsnapshot
      exact hshows hmetadata binary frontier hencode
  · cases hcapture

theorem Realm.Proven.step (h : realm.Proven code) (action : Action code)
    (hmeets : Meets code realm action) : (realm.step action).Proven code := by
  cases action with
  | makeSnapshot snapshot =>
    refine ⟨⟨fun place known hknown => ?_, h.heap.arrays⟩, h.tags⟩
    dsimp only [Realm.step] at hknown
    split at hknown
    · cases hknown
    · exact h.heap.snapshots place known hknown
  | makeArray bytes =>
    refine ⟨⟨h.heap.snapshots, fun place known hknown => ?_⟩, h.tags⟩
    dsimp only [Realm.step] at hknown
    split at hknown
    · cases hknown
    · exact h.heap.arrays place known hknown
  | writeSnapshot | writeArray => exact ⟨⟨h.heap.snapshots, h.heap.arrays⟩, h.tags⟩
  | construct | deserialize | fromNativeSnapshot | fromPortableSnapshot => exact h.addReplica _
  | prepare replica | edit replica =>
    dsimp only [Realm.step]
    split
    · exact ⟨h.heap, h.tags⟩
    · exact h
  | createPortableSnapshot replica =>
    dsimp only [Realm.step]
    split
    · next graph ready hready =>
        have hadopted : Realm.Proven code
            { realm with replicas := realm.replicas.set replica ready } := ⟨h.heap, h.tags⟩
        refine hadopted.setHeap fun after hafter => ?_
        obtain ⟨snapshot, hcapture, rfl⟩ := Option.map_eq_some_iff.mp hafter
        refine h.heap.addSnapshot snapshot fun known hknown => ?_
        cases hknown
        exact proven_captureSnapshot hcapture (hmeets graph ready hready)
    · exact h
  | encode place => exact h.setHeap fun after hafter => h.heap.encode hafter
  | decode place => exact h.setHeap fun after hafter => h.heap.decode hafter
  | authenticate place key =>
    dsimp only [Realm.step]
    split
    · next message hmessage =>
        refine ⟨h.heap, fun entry hentry => ?_⟩
        cases List.mem_append.mp hentry with
        | inl hold => exact h.tags entry hold
        | inr hnew =>
          rw [List.mem_singleton.mp hnew]
          exact h.heap.authenticate hmessage
    · exact h
  | decodeAuthenticated place key tag =>
    dsimp only [Realm.step]
    split
    · next bytes hbytes =>
        split
        · next htag =>
            refine h.setHeap fun after hafter => ?_
            obtain ⟨snapshot, hread, hsnapshot⟩ := Option.bind_eq_some_iff.mp hafter
            cases hsnapshot
            obtain ⟨known, hknown, hproven⟩ := h.sound.tagged key bytes (List.mem_of_getElem? htag)
            cases hread.symm.trans hknown
            refine h.heap.addSnapshot snapshot fun proof hproof => ?_
            cases hproof
            exact hproven
        · exact h
    · exact h

/-- A snapshot of a replica is trusted at once. -/
theorem meets_of_sound {action : Action code} (h : Sound code (realm.step action)) :
    Meets code realm action := by
  cases action with
  | createPortableSnapshot replica =>
    intro graph ready hready hmetadata binary frontier hencode
    let snapshot : PortableSnapshot := ⟨formatVersion, ready.text, ready.initialText, frontier,
      code.getEventCount graph, ready.nextSequenceNumber, binary⟩
    have hcapture : captureSnapshot graph ready = some snapshot := by
      unfold captureSnapshot
      rw [if_pos hmetadata, hencode]
      rfl
    have hheap : (realm.step (.createPortableSnapshot replica)).heap =
        realm.heap.registerTrustedPortableSnapshot snapshot := by
      dsimp only [Realm.step]
      rw [hready]
      dsimp only
      rw [hcapture]
      rfl
    have hmatching := matchingProof_register realm.heap snapshot
    rw [← hheap] at hmatching
    obtain ⟨-, made, hmade, hself⟩ := matchingProof_eq_some hmatching
    obtain ⟨object, proof, hobject, hmatches, hproven⟩ :=
      h.trusted _ (requiresTextValidation_eq_false.mpr ⟨snapshot, hmatching⟩)
    cases hmade.symm.trans hobject
    rw [snapshotMatchesProof_unique hmatches hself] at hproven
    exact hproven
  | _ => exact True.intro

end Steps

section Sample

/-- A graph without events, and what is done with it. -/
def sampleCode : SnapshotCode where
  Graph := PUnit
  create := ⟨⟩
  decodeBinary bytes _ := if bytes = Codec.egw4Magic then some ⟨⟩ else none
  encodeTopologicalBinary _ := some (Codec.egw4Magic, [])
  deserialize _ := some ⟨⟩
  getEventCount _ := 0
  getFrontier _ := ∅
  getMetadata _ := []
  validateStoredEvents _ := true
  replay _ initialText := some initialText
  applyRemoteEvents graph initialText := some (graph, initialText)
  inferNextSequenceNumber _ := 0
  parse _ := none
  decodeText _ := []

def sampleRestore : List (Action sampleCode) :=
  [.fromNativeSnapshot ⟨Json.literal "forged", [], [], 0, 0,
      .events (Json.objectOf [("version", .array .nil), ("events", .array .nil)])⟩,
    .createPortableSnapshot 0]

end Sample

end Softmaple.Snapshot
