import Softmaple.Codec.EncodeEvents

/-!
The LZ4 frame of a text too short to compress: the header, the text in one
stored block, and the end mark. Graphs without metadata carry an empty object.
-/
namespace Softmaple.Codec

open List

/-- Magic number, version and block size flags, and their checksum. -/
def frameHeader : List Byte := [0x04, 0x22, 0x4d, 0x18, 0x40, 0x70, 0xdf]

def storedFrame (bytes : List Byte) : List Byte :=
  frameHeader ++ ((if bytes = [] then [] else writeUint32LE (2 ^ 31 + bytes.length) ++ bytes) ++
      writeUint32LE 0)

def readStoredFrame (frame : List Byte) : List Byte :=
  let blocks := frame.drop frameHeader.length
  (blocks.drop 4).take (blocks.length - 8)

theorem readStoredFrame_storedFrame (bytes : List Byte) :
    readStoredFrame (storedFrame bytes) = bytes := by
  have hfour : ∀ value : Nat, (writeUint32LE value).length = 4 := fun _ => rfl
  rw [readStoredFrame, storedFrame, drop_left]
  by_cases hempty : bytes = []
  · rw [if_pos hempty, nil_append, hfour, hempty]
    rfl
  · rw [if_neg hempty, append_assoc, ← hfour (2 ^ 31 + bytes.length), drop_left,
      length_append, length_append, hfour, hfour]
    apply take_left'
    omega

/-- Stored frames, and graphs without metadata. -/
def storedPlatform : Platform Unit where
  compress := storedFrame
  decompress frame _ := .ok (readStoredFrame frame)
  stringify _ := ascii "\x7b\x7d"
  parse text := if text = ascii "\x7b\x7d" then some () else none
  isObject _ := true

end Softmaple.Codec

namespace Softmaple.Codec

open List

theorem wellFormedEvent_of_span {event : GraphEvent} {span : Nat × Nat} (hid : event.id ≠ [])
    (hparents : [] ∉ event.parentVersion.ids) (hspan : event.operation.span? = some span)
    (hwell : Utf8.wellFormed event.operation.insertedText = true) : WellFormedEvent event := by
  obtain ⟨id, operation, parentVersion, timestamp⟩ := event
  simp only at hspan hwell hparents hid
  refine ⟨hid, ?_, ?_, ?_, ?_⟩
  · intro parent hparent heq
    rw [heq] at hparent
    exact hparents hparent
  · cases operation with
    | insert index text =>
      simp only [Operation.span?, Option.map_eq_some_iff] at hspan
      obtain ⟨value, hvalue, -⟩ := hspan
      exact ⟨value, hvalue⟩
    | delete index length =>
      simp only [Operation.span?] at hspan
      cases hindex : index.safeNatural? with
      | none => simp [hindex] at hspan
      | some value => exact ⟨value, hindex⟩
  · intro index text heq
    rw [show operation = .insert index text from heq] at hwell
    exact hwell
  · intro index length heq
    rw [show operation = .delete index length from heq] at hspan
    simp only [Operation.span?] at hspan
    cases hlength : length.safeNatural? with
    | none => simp [hlength] at hspan
    | some value => exact ⟨value, rfl⟩

theorem wellFormedEvent_of_assertEvent {event : GraphEvent} {offset : Nat}
    (h : Succeeds (assertEvent event offset)) : WellFormedEvent event := by
  obtain ⟨checked, h⟩ := h
  obtain ⟨hid, hparents, hchecked⟩ := assertEvent_eq_ok h
  obtain ⟨-, hspan, -, hwell, -⟩ := checkColumns_eq_ok.mp hchecked
  exact wellFormedEvent_of_span hid hparents hspan hwell

theorem WellFormedEvent.succeeds_assertEvent {event : GraphEvent} (h : WellFormedEvent event)
    (offset : Nat) : Succeeds (assertEvent event offset) ↔
      (∃ value, event.timestamp.safeInteger? = some value) ∧ event.operation.EndsSafely := by
  have hparents : [] ∉ event.parentVersion.ids := fun hmem => h.parent_ne_nil [] hmem rfl
  have htext : Utf8.wellFormed event.operation.insertedText = true := by
    cases hoperation : event.operation with
    | insert index text => exact h.text index text hoperation
    | delete index length => rfl
  rw [assertEvent, if_neg h.id_ne_nil, if_neg hparents, succeeds_checkColumns]
  constructor
  · exact fun hall => ⟨hall.1, hall.2.1⟩
  · exact fun hall => ⟨hall.1, hall.2, htext⟩

structure AcceptedGraph (events : List GraphEvent) : Prop where
  accepted : ∀ event ∈ events, (∃ candidate, cloneRemoteEvent candidate = .ok event) ∨
    ∃ offset, Succeeds (assertEvent event offset)
  topological : Topological [] events
  count : events.length ≤ egw4MaxEvents

theorem AcceptedGraph.wellFormed {events : List GraphEvent} (h : AcceptedGraph events) :
    ∀ event ∈ events, WellFormedEvent event := by
  intro event hevent
  cases h.accepted event hevent with
  | inl hcloned =>
    obtain ⟨candidate, hcandidate⟩ := hcloned
    exact (cloneRemoteEvent_wellFormed hcandidate).1
  | inr hasserted =>
    obtain ⟨offset, hoffset⟩ := hasserted
    exact wellFormedEvent_of_assertEvent hoffset

section Saving

variable {Metadata : Type} {platform : Platform Metadata}

/-- The graph's numbers fit the columns. -/
structure FitsColumns (platform : Platform Metadata) (events : List GraphEvent)
    (metadata : Metadata) : Prop where
  timestamps : ∃ values, Timestamps events values ∧ ∀ delta ∈ deltas 0 values, ZigZagRange delta
  ends : ∀ event ∈ events, event.operation.EndsSafely
  payload : PayloadFits platform events metadata

variable {events : List GraphEvent}

theorem Timestamps.unique {values other : List Int}
    (h : Timestamps events values) (hother : Timestamps events other) : values = other := by
  apply map_injective_iff.mpr (Option.some_injective Int)
  exact h.symm.trans hother

theorem Timestamps.safe {values : List Int} (h : Timestamps events values) : ∀ event ∈ events, ∃ value,
      event.timestamp.safeInteger? = some value := by
  intro event hevent
  have hmem : event.timestamp.safeInteger? ∈ values.map some := by
    rw [← h]
    exact mem_map_of_mem hevent
  obtain ⟨value, -, heq⟩ := mem_map.mp hmem
  exact ⟨value, heq.symm⟩

variable {frontierOrder : Option (List Text)}

theorem resolveFrontierOrder_perm {frontier : List Text} (hnodup : frontier.Nodup)
    (horder : ∀ order, frontierOrder = some order → order.Perm frontier) :
    Succeeds (resolveFrontierOrder frontier frontierOrder) := by
  cases frontierOrder with
  | none => exact ⟨frontier, rfl⟩
  | some order =>
    have hperm := horder order rfl
    have hall : order.all (fun id => decide (id ∈ frontier)) = true := by
      rw [all_eq_true]
      intro id hid
      exact decide_eq_true (hperm.mem_iff.mp hid)
    refine ⟨order, ?_⟩
    simp [resolveFrontierOrder, hall, hperm.nodup_iff.mpr hnodup, hperm.length_eq]

theorem succeeds_encode_iff
    (hwell : ∀ event ∈ events, WellFormedEvent event) (htopological : Topological [] events)
    (hcount : events.length ≤ egw4MaxEvents) {metadata : Metadata} (hobject : platform.isObject metadata = true)
    (horder : ∀ order, frontierOrder = some order → order.Perm (childless events)) :
    Succeeds (encodeTopologicallyOrderedEventsBinary platform events metadata frontierOrder) ↔
      FitsColumns platform events metadata := by
  rw [encodeTopologicallyOrderedEventsBinary, if_neg (by simp [hobject])]
  have hevents : Succeeds (encodeEvents .empty events) ↔ Topological [] events ∧
      ∀ event ∈ events, ∀ offset, Succeeds (assertEvent event offset) :=
    succeeds_encodeEvents nodup_nil
  cases hencode : encodeEvents .empty events with
  | error error =>
    refine iff_of_false (not_succeeds_error error) fun hfits => ?_
    rw [hencode] at hevents
    apply not_succeeds_error error
    apply hevents.mpr
    refine ⟨htopological, ?_⟩
    intro event hevent offset
    obtain ⟨values, htimestamps, -⟩ := hfits.timestamps
    exact ((hwell event hevent).succeeds_assertEvent offset).mpr
      ⟨htimestamps.safe event hevent, hfits.ends event hevent⟩
  | ok state =>
    have hholds : EncodedHolds state events := encodedHolds_empty.encodeEvents hencode
    have hfrontier : state.frontier.Nodup := by
      rw [hholds.frontier_eq, childless, ← hholds.positions]
      exact hholds.nodup.filter _
    obtain ⟨frontier, hresolved⟩ := resolveFrontierOrder_perm hfrontier (by
      rw [hholds.frontier_eq]
      exact horder)
    simp only
    rw [hresolved]
    simp only
    rw [succeeds_map, hholds.succeeds_encodeEgw4 hcount]
    constructor
    · intro hparts
      refine ⟨⟨_, hholds.timestamps, hparts.1⟩, ?_, hparts.2⟩
      intro event hevent
      rw [hencode] at hevents
      have hasserted := (hevents.mp ⟨state, rfl⟩).2 event hevent 0
      exact (((hwell event hevent).succeeds_assertEvent 0).mp hasserted).2
    · intro hfits
      obtain ⟨values, htimestamps, hrange⟩ := hfits.timestamps
      rw [hholds.timestamps.unique htimestamps]
      exact ⟨hrange, hfits.payload⟩

theorem AcceptedGraph.succeeds_encode (h : AcceptedGraph events)
    {metadata : Metadata} (hobject : platform.isObject metadata = true)
    (horder : ∀ order, frontierOrder = some order → order.Perm (childless events)) :
    Succeeds (encodeTopologicallyOrderedEventsBinary platform events metadata frontierOrder) ↔
      FitsColumns platform events metadata :=
  succeeds_encode_iff h.wellFormed h.topological h.count hobject horder

theorem succeeds_of_toOption {α : Type} {result other : Except CodecError α}
    (h : result.toOption = other.toOption) : Succeeds result ↔ Succeeds other := by
  have hsome : ∀ result : Except CodecError α, Succeeds result ↔ result.toOption ≠ none := by
    intro result
    cases result with
    | error error => simp [not_succeeds_error, Except.toOption]
    | ok value => simp [succeeds_ok, Except.toOption]
  rw [hsome, hsome, h]

/-- An accepted graph is saved by either encoder exactly when its numbers fit. -/
theorem AcceptedGraph.saved_iff {events : List GraphEvent} (h : AcceptedGraph events)
    {metadata : Metadata} (hobject : platform.isObject metadata = true) :
    (∀ frontierOrder, (∀ order, frontierOrder = some order → order.Perm (childless events)) →
      (Succeeds (encodeTopologicallyOrderedEventsBinary platform events metadata frontierOrder) ↔
        FitsColumns platform events metadata)) ∧
    ∀ source graph order frontierRanks, Presents source graph →
      order.Perm (List.range source.count) → eventsInOrder graph order = events →
      (∀ rank ∈ frontierRanks, rank < source.count) →
      (frontierRanks.map source.idAt).Perm (childless events) →
      (Succeeds (encodeTopologicalColumnsBinary platform source (some order) metadata
          frontierRanks) ↔
        FitsColumns platform events metadata) := by
  refine ⟨fun frontierOrder horder => h.succeeds_encode hobject horder, ?_⟩
  intro source graph order frontierRanks hpresents hperm hevents hfrontier hchildless
  have hlength : order.length = source.count := by
    rw [hperm.length_eq, length_range]
  have hlt : ∀ rank ∈ order, rank < source.count :=
    fun rank hrank => mem_range.mp (hperm.mem_iff.mp hrank)
  rw [succeeds_of_toOption (encodeTopologicalColumnsBinary_eq hpresents hlength hlt hfrontier),
    hevents]
  apply h.succeeds_encode hobject
  intro ids heq
  rw [← Option.some.inj heq]
  exact hchildless

end Saving

/-- The first event of a document, with any timestamp. -/
def firstInsert (timestamp : JsNumber) : GraphEvent where
  id := ascii "r:0"
  operation := .insert (.ofInt 0) (ascii "a")
  parentVersion := .empty
  timestamp := timestamp

def firstCandidate (timestamp : JsNumber) : CandidateEvent where
  id := .string (ascii "r:0")
  operation := some
    { type := .string operationTypeInsert
      index := .number (.ofInt 0)
      text := .string (ascii "a")
      length := .other }
  parentVersion := some []
  timestamp := .number timestamp

theorem cloneRemoteEvent_firstCandidate {timestamp : JsNumber} (h : timestamp.isFinite = true)
    {id : Text} (hid : id ≠ []) :
    cloneRemoteEvent { firstCandidate timestamp with id := .string id } =
      .ok { firstInsert timestamp with id } := by
  have hoperation : cloneOperation id
      { type := .string operationTypeInsert
        index := .number (.ofInt 0)
        text := .string (ascii "a")
        length := .other } = .ok (.insert (.ofInt 0) (ascii "a")) := rfl
  have hassert : assertRemoteEventWellFormed { firstInsert timestamp with id } = .ok () := by
    have hindex : (JsNumber.ofInt 0).safeNatural? = some 0 := by decide
    have htext : Utf8.wellFormed (ascii "a") = true := by decide
    rw [assertRemoteEventWellFormed]
    simp only [firstInsert, Operation.index, hindex, htext, if_true]
  rw [cloneRemoteEvent]
  simp only [firstCandidate, cloneParents, h, if_true, hoperation]
  rw [if_neg hid]
  erw [hassert]
  rfl

theorem acceptedGraph_firstInsert {timestamp : JsNumber} (h : timestamp.isFinite = true)
    {id : Text} (hid : id ≠ []) : AcceptedGraph [{ firstInsert timestamp with id }] where
  accepted := by
    intro event hevent
    rw [mem_singleton.mp hevent]
    exact .inl ⟨_, cloneRemoteEvent_firstCandidate h hid⟩
  topological := ⟨by simp, by simp [firstInsert, EventIdSet.empty], trivial⟩
  count := by
    rw [length_singleton]
    decide

theorem fitsColumns_firstInsert {id : Text}
    (hid : (encodeText (idString id)).length ≤ maxSafeInteger) :
    FitsColumns storedPlatform [{ firstInsert (.ofInt 0) with id }] () := by
  constructor
  · refine ⟨[0], rfl, ?_⟩
    intro delta hdelta
    rw [mem_singleton.mp hdelta]
    exact ⟨by decide, by decide⟩
  · intro event hevent
    rw [mem_singleton.mp hevent]
    exact ⟨0, 1, rfl, by decide⟩
  · constructor
    · intro event hevent
      rw [mem_singleton.mp hevent]
      exact hid
    · change (storedPlatform.compress (encodeText (ascii "a"))).length ≤ maxSafeInteger
      decide
    · decide

/-- At timestamp zero it is saved. -/
theorem firstInsert_saved :
    Succeeds (encodeTopologicallyOrderedEventsBinary storedPlatform [firstInsert (.ofInt 0)] ()
      none) :=
  (((acceptedGraph_firstInsert rfl (by decide)).saved_iff rfl).1 none (by simp)).mpr
    (fitsColumns_firstInsert (by decide))

/-- Half a tick is accepted and never saved; nor is a safe timestamp of `2 ^ 52`. -/
theorem firstInsert_not_saved : (AcceptedGraph [firstInsert (.finite (3 / 2))] ∧
      ¬ Succeeds (encodeTopologicallyOrderedEventsBinary storedPlatform
        [firstInsert (.finite (3 / 2))] () none)) ∧
    AcceptedGraph [firstInsert (.ofInt (2 ^ 52))] ∧
    Succeeds (assertEvent (firstInsert (.ofInt (2 ^ 52))) 0) ∧
    ¬ Succeeds (encodeTopologicallyOrderedEventsBinary storedPlatform
      [firstInsert (.ofInt (2 ^ 52))] () none) := by
  have hhalf : AcceptedGraph [firstInsert (.finite (3 / 2))] :=
    acceptedGraph_firstInsert rfl (by decide)
  have hfar : AcceptedGraph [firstInsert (.ofInt (2 ^ 52))] :=
    acceptedGraph_firstInsert rfl (by decide)
  refine ⟨⟨hhalf, ?_⟩, hfar, ?_, ?_⟩
  · intro hsaved
    have hfits := (hhalf.succeeds_encode rfl (by simp)).mp hsaved
    obtain ⟨values, htimestamps, -⟩ := hfits.timestamps
    obtain ⟨value, hvalue⟩ := htimestamps.safe _ (mem_singleton_self _)
    have hnone : (firstInsert (.finite (3 / 2))).timestamp.safeInteger? = none := by decide +kernel
    rw [hnone] at hvalue
    cases hvalue
  · apply ((hfar.wellFormed _ (mem_singleton_self _)).succeeds_assertEvent 0).mpr
    exact ⟨⟨2 ^ 52, by decide⟩, 0, 1, by decide, by decide⟩
  · intro hsaved
    have hfits := (hfar.succeeds_encode rfl (by simp)).mp hsaved
    obtain ⟨values, htimestamps, hrange⟩ := hfits.timestamps
    have hvalues : Timestamps [firstInsert (.ofInt (2 ^ 52))] [2 ^ 52] := by
      rw [Timestamps]
      decide
    rw [htimestamps.unique hvalues] at hrange
    have hdelta := hrange (2 ^ 52) (by decide)
    exact absurd hdelta.2 (by decide)

end Softmaple.Codec
