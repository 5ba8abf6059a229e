import Softmaple.Codec.AcceptedEvents
import Softmaple.Codec.DecodedEvents

/-!
What comes back of an encoded graph. The encoder refuses an insert text with a
lone surrogate, since UTF-8 replaces it, but writes an event ID that has one.
-/
namespace Softmaple.Codec

section Encodes

variable {Metadata : Type} (platform : Platform Metadata) (metadata : Metadata)

/-- Events in wire order and their encoding, from either entry of the encoder. -/
inductive Encodes : List GraphEvent → TopologicalEventGraphEncoding → Prop
  | events {events : List GraphEvent} {frontierOrder : Option (List Text)}
      {encoding : TopologicalEventGraphEncoding} :
      encodeTopologicallyOrderedEventsBinary platform events metadata frontierOrder =
        .ok encoding → Encodes events encoding
  | columns {source : TopologicalColumnSource} {graph : List GraphEvent} {order frontierRanks :
      List Nat} {encoding : TopologicalEventGraphEncoding} :
      Presents source graph → order.Perm (List.range source.count) →
      (∀ rank ∈ frontierRanks, rank < source.count) →
      encodeTopologicalColumnsBinary platform source (some order) metadata frontierRanks =
        .ok encoding → Encodes (eventsInOrder graph order) encoding

variable {platform : Platform Metadata} {metadata parsed : Metadata} {events : List GraphEvent}
  {encoding : TopologicalEventGraphEncoding}

theorem holds_of_encodeEvents {frontierOrder : Option (List Text)}
    (h : encodeTopologicallyOrderedEventsBinary platform events metadata frontierOrder =
      .ok encoding) : ∃ state, EncodedHolds state events ∧
        encodeEgw4 platform ⟨state.rows, state.ids, state.overrideCount, state.insertedText,
          metadata⟩ = .ok encoding.binary := by
  rw [encodeTopologicallyOrderedEventsBinary] at h
  split at h
  · cases h
  cases hencode : encodeEvents .empty events with
  | error error =>
    rw [hencode] at h
    cases h
  | ok state =>
    rw [hencode] at h
    simp only at h
    cases hfrontier : resolveFrontierOrder state.frontier frontierOrder with
    | error error =>
      rw [hfrontier] at h
      cases h
    | ok frontier =>
      rw [hfrontier] at h
      obtain ⟨binary, hbinary, heq⟩ := map_eq_ok.mp h
      rw [← heq]
      exact ⟨state, encodedHolds_empty.encodeEvents hencode, hbinary⟩

theorem Encodes.holds (h : Encodes platform metadata events encoding) :
    ∃ state, EncodedHolds state events ∧
      encodeEgw4 platform ⟨state.rows, state.ids, state.overrideCount, state.insertedText,
        metadata⟩ = .ok encoding.binary := by
  cases h with
  | events hencode => exact holds_of_encodeEvents hencode
  | @columns source graph order frontierRanks _ hpresents hperm hfrontier hencode =>
    have hlength : order.length = source.count := by
      rw [hperm.length_eq, List.length_range]
    have hlt : ∀ rank ∈ order, rank < source.count :=
      fun rank hrank => List.mem_range.mp (hperm.mem_iff.mp hrank)
    have hsame : (encodeTopologicalColumnsBinary platform source (some order) metadata
          frontierRanks).toOption =
        (encodeTopologicallyOrderedEventsBinary platform (eventsInOrder graph order) metadata
          (some (frontierRanks.map source.idAt))).toOption :=
      encodeTopologicalColumnsBinary_eq hpresents hlength hlt hfrontier
    rw [hencode] at hsame
    cases hevents : encodeTopologicallyOrderedEventsBinary platform (eventsInOrder graph order)
        metadata (some (frontierRanks.map source.idAt)) with
    | error error =>
      rw [hevents] at hsame
      cases hsame
    | ok other =>
      rw [hevents] at hsame
      rw [Option.some.inj hsame]
      exact holds_of_encodeEvents hevents

end Encodes

section Decode

variable {Metadata : Type} {platform : Platform Metadata} {metadata parsed : Metadata}
  {events : List GraphEvent} {encoding : TopologicalEventGraphEncoding}

/-- The payload decodes to the events, the metadata as JSON gives it back, and the
childless events. -/
def DecodesTo (platform : Platform Metadata) (binary : List Byte) (maxEvents : Option Nat)
    (events : List GraphEvent) (metadata : Metadata) : Prop :=
  ∃ graph, decodeEgw4GraphSteps platform binary maxEvents = .ok graph ∧ graph.events = events ∧
    graph.columns.metadata = metadata ∧ graph.frontier = childless events

theorem EncodedHolds.decodesTo {state : EventEncoderState} (h : EncodedHolds state events)
    (hback : ReadsBack events) (hframes : LosslessFrames platform)
    (hjson : JsonReturns platform metadata parsed) {maxEvents : Option Nat}
    (hlimit : ∀ limit, maxEvents = some limit → events.length ≤ limit) {binary : List Byte}
    (hwrite : encodeEgw4 platform ⟨state.rows, state.ids, state.overrideCount,
      state.insertedText, metadata⟩ = .ok binary) :
    DecodesTo platform binary maxEvents events parsed := by
  have hcount : events.length ≤ egw4MaxEvents := h.length_rows ▸ (encodeEgw4_eq_ok hwrite).1
  exact ⟨_, h.decode hback hframes hjson hlimit hwrite, h.graph_events hcount parsed, rfl,
    h.graph_frontier parsed⟩

theorem readsBack_of_decodesTo {binary : List Byte} {maxEvents : Option Nat}
    (hnodup : (events.map (·.id)).Nodup)
    (h : DecodesTo platform binary maxEvents events parsed) : ReadsBack events := by
  obtain ⟨graph, hdecode, hevents, -⟩ := h
  obtain ⟨hread, hbuild⟩ := decodeEgw4GraphSteps_eq_ok hdecode
  rw [← hevents] at hnodup ⊢
  exact readsBack_events hread hbuild hnodup

/-- An encoded graph comes back exactly when the decoder can read it back. -/
theorem Encodes.decodesTo_iff (hframes : LosslessFrames platform)
    (hjson : JsonReturns platform metadata parsed) (h : Encodes platform metadata events encoding)
    {maxEvents : Option Nat} (hlimit : ∀ limit, maxEvents = some limit → events.length ≤ limit) :
    DecodesTo platform encoding.binary maxEvents events parsed ↔ ReadsBack events := by
  obtain ⟨state, hholds, hwrite⟩ := h.holds
  constructor
  · apply readsBack_of_decodesTo
    rw [← hholds.positions]
    exact hholds.nodup
  · intro hback
    exact hholds.decodesTo hback hframes hjson hlimit hwrite

end Decode

section Stored

theorem losslessFrames_stored : LosslessFrames storedPlatform where
  decompress bytes _ _ := congrArg Except.ok (readStoredFrame_storedFrame bytes)
  expansion bytes := by
    have hlength : bytes.length ≤ (storedFrame bytes).length := by
      rw [storedFrame]
      by_cases hempty : bytes = []
      · rw [hempty]
        exact Nat.zero_le _
      · rw [if_neg hempty]
        simp only [List.length_append]
        omega
    exact Nat.le_trans hlength (Nat.le_mul_of_pos_right _ (by decide))

theorem jsonReturns_stored : JsonReturns storedPlatform () () where
  wellFormed := by decide
  parse := by decide
  isObject := rfl

theorem encodes_firstInsert {id : Text} (hid : id ≠ [])
    (hlength : (encodeText (idString id)).length ≤ maxSafeInteger) :
    ∃ encoding, Encodes storedPlatform () [{ firstInsert (.ofInt 0) with id }] encoding := by
  have hgraph : AcceptedGraph [{ firstInsert (.ofInt 0) with id }] :=
    acceptedGraph_firstInsert rfl hid
  have hnone : ∀ order : List Text, none = some order →
      order.Perm (childless [{ firstInsert (.ofInt 0) with id }]) := by simp
  obtain ⟨encoding, hencode⟩ :=
    (hgraph.succeeds_encode rfl hnone).mpr (fitsColumns_firstInsert hlength)
  exact ⟨encoding, .events hencode⟩

/-- The first insert comes back. -/
theorem firstInsert_decodes : ∃ encoding,
    Encodes storedPlatform () [firstInsert (.ofInt 0)] encoding ∧
      DecodesTo storedPlatform encoding.binary none [firstInsert (.ofInt 0)] () := by
  have hid : (encodeText (idString (ascii "r:0"))).length ≤ maxSafeInteger := by decide
  obtain ⟨encoding, hencodes⟩ := encodes_firstInsert (by decide) hid
  refine ⟨encoding, hencodes, ?_⟩
  apply (Encodes.decodesTo_iff losslessFrames_stored jsonReturns_stored hencodes (by simp)).mpr
  refine ⟨?_, by decide, by decide⟩
  intro event hevent
  rw [List.mem_singleton.mp hevent]
  decide

/-- Half a surrogate pair. -/
def loneId : Text := [⟨0xd800, by decide⟩]

/-- An event so named is accepted and encoded, and does not come back. -/
theorem loneId_lost : ∃ event, event.id = loneId ∧
    (∃ candidate, cloneRemoteEvent candidate = .ok event) ∧
    ∃ encoding, Encodes storedPlatform () [event] encoding ∧
      ¬ DecodesTo storedPlatform encoding.binary none [event] () := by
  have hid : (encodeText (idString loneId)).length ≤ maxSafeInteger := by decide
  obtain ⟨encoding, hencodes⟩ := encodes_firstInsert (by decide) hid
  refine ⟨_, rfl, ⟨_, cloneRemoteEvent_firstCandidate rfl (by decide)⟩, encoding, hencodes, ?_⟩
  intro hdecodes
  have hnodup : ([{ firstInsert (.ofInt 0) with id := loneId }].map (·.id)).Nodup :=
    List.nodup_singleton loneId
  have hwell := (readsBack_of_decodesTo hnodup hdecodes).ids _ (List.mem_singleton_self _)
  exact absurd hwell (by decide)

end Stored

end Softmaple.Codec
