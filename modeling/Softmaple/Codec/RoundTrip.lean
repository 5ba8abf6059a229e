import Softmaple.Codec.ReadContent
import Softmaple.Codec.EventOverrides

/-!
The graph over decoded columns: its checksum, its runs and its frontier. Where
the ID runs and the overrides are valid, building it asks only for distinct IDs.
-/
namespace Softmaple.Codec

open List

section Lists

variable {α β : Type}

theorem eraseDups_of_nodup {values : List Text} (h : values.Nodup) : values.eraseDups = values := by
  induction values with
  | nil => rfl
  | cons value rest ih =>
    obtain ⟨hnot, hrest⟩ := nodup_cons.mp h
    have hfilter : (rest.filter fun other => !other == value) = rest := by
      apply filter_eq_self.mpr
      intro other hother
      have hne : other ≠ value := fun heq => hnot (heq ▸ hother)
      simp [hne]
    rw [eraseDups_cons, hfilter, ih hrest]

theorem filterMap_range_getElem? (values : List α) :
    (List.range values.length).filterMap (values[·]?) = values := by
  induction values with
  | nil => rfl
  | cons value rest ih =>
    rw [length_cons, range_succ_eq_map, filterMap_cons]
    simp only [getElem?_cons_zero, filterMap_map]
    congr 1

theorem filterMap_filter_range (values : List α) {keep : Nat → Bool} {keepValue : α → Bool}
    (h : ∀ position value, values[position]? = some value → keep position = keepValue value) :
    ((List.range values.length).filter keep).filterMap (values[·]?) = values.filter keepValue := by
  rw [filterMap_filter]
  conv_rhs => rw [← filterMap_range_getElem? values, filter_filterMap]
  apply filterMap_congr
  intro position hposition
  have hget := getElem?_eq_getElem (mem_range.mp hposition)
  rw [hget, Option.filter_some, h position _ hget]

end Lists

theorem uint32LE_writeUint32LE {value : Nat} (h : value < 2 ^ 32) :
    uint32LE (writeUint32LE value) = value := by
  rw [writeUint32LE, uint32LE, Utf8.byte, Utf8.byte, Utf8.byte, Utf8.byte]
  simp only
  omega

theorem verifyChecksum_append (payload : List Byte) :
    verifyChecksum (payload ++ writeUint32LE (crc32 payload)) = .ok payload := by
  have hlength : (payload ++ writeUint32LE (crc32 payload)).length - egw4ChecksumBytes =
      payload.length := by
    rw [length_append]
    rfl
  have hcrc := uint32LE_writeUint32LE (crc32_lt payload)
  rw [verifyChecksum, if_neg (by rw [length_append]; simp [writeUint32LE, egw4ChecksumBytes]),
    hlength, take_left, drop_left, hcrc]
  simp

theorem checkFrontier_eq_ok {idIndex : EventIdRunIndex} {frontier : List Text}
    (h : ∀ id ∈ frontier, ∃ lv, idIndex.localVersionOf id = some lv) :
    checkFrontier idIndex frontier = .ok () := by
  induction frontier with
  | nil => rfl
  | cons id rest ih =>
    obtain ⟨⟨lv, hlv⟩, hrest⟩ := forall_mem_cons.mp h
    rw [checkFrontier, hlv]
    exact ih hrest

structure GraphColumns {Metadata : Type} (columns : PackedColumns Metadata) : Prop where
  count : columns.count ≤ egw4MaxEvents
  idRuns : ∀ run ∈ columns.idRuns, run.Valid
  tiles : Tiles 0 columns.idRuns columns.count
  overrides : OverridesValid columns.count 0 columns.overrides

namespace PackedColumns

variable {Metadata : Type} {columns : PackedColumns Metadata}

def ids (columns : PackedColumns Metadata) : List Text := columns.idRuns.flatMap (·.ids)

/-- The graph that columns with distinct IDs make up. -/
def graph (columns : PackedColumns Metadata) : PackedGraph Metadata where
  columns := columns
  idIndex := ⟨columns.idRuns, columns.count⟩
  runs := GraphRuns.fromExplicitParents columns.count columns.overrides
  frontier := ((List.range columns.count).filter fun lv =>
    ∀ other < columns.count, lv ∉ explicitParents columns.overrides other).filterMap
      (columns.ids[·]?)

theorem length_ids (h : GraphColumns columns) : columns.ids.length = columns.count := by
  have hlength := EventIdRunIndex.length_ids_of_tiles h.idRuns h.tiles
  rwa [Nat.zero_add] at hlength

theorem graph_frontier_sublist (h : GraphColumns columns) :
    columns.graph.frontier.Sublist columns.ids := by
  have hall := filterMap_range_getElem? columns.ids
  rw [length_ids h] at hall
  conv_rhs => rw [← hall]
  exact List.Sublist.filterMap _ filter_sublist

theorem buildGraph_eq_ok (h : GraphColumns columns) {graph : PackedGraph Metadata} :
    buildGraph columns = .ok graph ↔ columns.ids.Nodup ∧ graph = columns.graph := by
  have hsafe : columns.count ≤ maxSafeInteger := by
    have := small_safe h.count
    omega
  have hfrom : ∀ index, EventIdRunIndex.fromRuns columns.idRuns columns.count = .ok index ↔
      columns.ids.Nodup ∧ index = ⟨columns.idRuns, columns.count⟩ := fun index =>
    EventIdRunIndex.fromRuns_eq_ok hsafe h.idRuns h.tiles
  have hruns : (if columns.overrides = [] then GraphRuns.linear columns.count
      else GraphRuns.fromExplicitParents columns.count columns.overrides) =
      GraphRuns.fromExplicitParents columns.count columns.overrides := by
    split
    · next hnil => rw [hnil, ExplicitParents.linear_eq]
    · rfl
  have hids : (fun lv => EventIdRunIndex.idAt ⟨columns.idRuns, columns.count⟩ lv) =
      fun lv => columns.ids[lv]? := by
    funext lv
    exact EventIdRunIndex.idAt_eq h.idRuns h.tiles lv
  rw [buildGraph]
  cases hindex : EventIdRunIndex.fromRuns columns.idRuns columns.count with
  | error error =>
    refine iff_of_false (by simp) fun hboth => ?_
    have hok := (hfrom _).mpr ⟨hboth.1, rfl⟩
    rw [hindex] at hok
    cases hok
  | ok index =>
    obtain ⟨hnodup, rfl⟩ := (hfrom index).mp hindex
    have hfrontier : (((List.range (GraphRuns.fromExplicitParents columns.count
        columns.overrides).count).filter fun run =>
          (GraphRuns.fromExplicitParents columns.count columns.overrides).childCountOf run =
            0).filterMap fun run => EventIdRunIndex.idAt ⟨columns.idRuns, columns.count⟩
          ((GraphRuns.fromExplicitParents columns.count columns.overrides).lastOf run)).eraseDups
        = columns.graph.frontier := by
      have hmap : ∀ runs : List Nat, (runs.filterMap fun run =>
          EventIdRunIndex.idAt ⟨columns.idRuns, columns.count⟩
            ((GraphRuns.fromExplicitParents columns.count columns.overrides).lastOf run)) =
          (runs.map (GraphRuns.fromExplicitParents columns.count
            columns.overrides).lastOf).filterMap (columns.ids[·]?) := by
        intro runs
        rw [filterMap_map, ← hids]
        rfl
      rw [hmap, h.overrides.explicit.frontier_eq]
      exact eraseDups_of_nodup ((graph_frontier_sublist h).nodup hnodup)
    have hcheck : checkFrontier ⟨columns.idRuns, columns.count⟩ columns.graph.frontier =
        .ok () := by
      apply checkFrontier_eq_ok
      intro id hid
      obtain ⟨lv, hget⟩ := mem_iff_getElem?.mp ((graph_frontier_sublist h).subset hid)
      refine ⟨lv, ?_⟩
      apply EventIdRunIndex.localVersionOf_of_idAt h.idRuns hnodup
      exact (EventIdRunIndex.idAt_eq h.idRuns h.tiles lv).trans hget
    simp only [hruns, hfrontier, hcheck, Except.ok.injEq]
    constructor
    · exact fun heq => ⟨hnodup, heq.symm⟩
    · exact fun hboth => hboth.2.symm

end PackedColumns

end Softmaple.Codec

namespace Softmaple.Codec

open ListReader List

section Strings

variable {ids : Egw4IdRuns} {all : List Text}

theorem wellFormed_idString {id : Text} (h : Utf8.wellFormed id = true) :
    Utf8.wellFormed (idString id) = true := by
  rw [idString]
  cases hparse : parseEventId id with
  | none => exact h
  | some parsed =>
    obtain ⟨replicaId, sequence⟩ := parsed
    obtain ⟨heq, -, -⟩ := parseEventId_eq_some hparse
    rw [heq, formatEventId] at h
    refine (Utf8.wellFormed_cut h ?_).1
    intro high _ low hlow _
    rw [← Option.some.inj hlow]
    decide

theorem IdRunsHold.totalLength_eq (h : IdRunsHold ids all) :
    totalLength ids.runs.reverse = all.length := by
  have hlength : ∀ runs : List IdRunState, (∀ run ∈ runs, RunShape ids.strings run) →
      (runs.flatMap (·.ids ids.strings)).length = totalLength runs := by
    intro runs
    induction runs with
    | nil => exact fun _ => rfl
    | cons run rest ih =>
      intro hshapes
      obtain ⟨hrun, hrest⟩ := forall_mem_cons.mp hshapes
      have hown : (run.ids ids.strings).length = run.length := by
        rw [IdRunState.ids]
        cases hcustom : run.custom with
        | true => simp [(hrun.custom hcustom).1]
        | false => simp
      rw [flatMap_cons, length_append, ih hrest, hown, totalLength_cons]
  rw [← hlength _ fun run hrun => h.shape run (mem_reverse.mp hrun), h.ids_eq]

theorem reads_ids (h : IdRunsHold ids all) (hwell : ∀ id ∈ all, Utf8.wellFormed id = true)
    {bytes : List Byte} (hwrite : ids.write = .ok bytes) :
    ∃ first second, bytes = first ++ second ∧ Reads readStrings first ids.strings ∧
      Reads (readIdRuns ids.strings all.length) second
        (placeRuns ids.strings 0 ids.runs.reverse) := by
  rw [Egw4IdRuns.write, cons_append] at hwrite
  obtain ⟨head, tail, hhead, htail, rfl⟩ := concat_cons_eq_ok.mp hwrite
  obtain ⟨strings, runs, hstrings, hruns, rfl⟩ := concat_append_eq_ok.mp htail
  refine ⟨head ++ strings, runs, (append_assoc _ _ _).symm, ?_, ?_⟩
  · have hcount : ids.strings.length ≤ strings.length := by
      have hle : (ids.strings.map writeString).length ≤ strings.length := by
        apply length_le_concat hstrings
        intro own hmem
        obtain ⟨string, -, hstring⟩ := mem_map.mp hmem
        rw [(writeBytes_eq_ok.mp hstring).2, length_append]
        exact Nat.lt_of_lt_of_le (varintBytes_pos _ _) (Nat.le_add_right _ _)
      rwa [length_map] at hle
    have hwellStrings : ∀ string ∈ ids.strings, Utf8.wellFormed string = true := by
      intro string hstring
      obtain ⟨id, hid, rfl⟩ := (h.mem_strings string).mp hstring
      exact wellFormed_idString (hwell id hid)
    have hloop : Reads (readStringsLoop ids.strings.length []) strings ids.strings :=
      reads_stringsLoop hstrings h.strings_nodup h.strings_ne_nil hwellStrings
    apply (reads_writeVarint hhead).bind
    apply Reads.of_remaining
    intro rest
    apply Reads.require
    · rw [decide_eq_true_eq, length_append]
      omega
    · exact hloop
  · have htotal := h.totalLength_eq
    rw [readIdRuns]
    apply reads_idRunsLoop hruns
    · intro run hrun
      exact h.shape run (mem_reverse.mp hrun)
    · rw [Nat.zero_add, htotal]
    · exact Nat.le_of_eq htotal

end Strings

/-- What the decoder asks of a graph beyond the encoder's checks. -/
structure ReadsBack (events : List GraphEvent) : Prop where
  ids : ∀ event ∈ events, Utf8.wellFormed event.id = true
  content : (events.flatMap (·.operation.insertedText)).length ≤ uint32Max
  edges : ∀ position < events.length,
    ((events.take (position + 1)).map (·.parentVersion.ids.length)).sum +
      (events.length - 1 - position) ≤ uint32Max

theorem edgesAt_eq {events : List GraphEvent} {overrides : List (Nat × List Nat)}
    (h : ∀ position event, events[position]? = some event →
      (explicitParents overrides position).length = event.parentVersion.ids.length)
    {lv : Nat} (hlv : lv < events.length) :
    edgesAt events.length overrides lv =
      ((events.take (lv + 1)).map (·.parentVersion.ids.length)).sum +
        (events.length - 1 - lv) := by
  have hsum : ∀ n ≤ events.length, ∑ j ∈ Finset.range n, (explicitParents overrides j).length =
      ((events.take n).map (·.parentVersion.ids.length)).sum := by
    intro n
    induction n with
    | zero => exact fun _ => rfl
    | succ n ih =>
      intro hn
      rw [Finset.sum_range_succ, ih (Nat.le_of_succ_le hn),
        h n _ (getElem?_eq_getElem (Nat.lt_of_succ_le hn)),
        take_succ_eq_append_getElem (Nat.lt_of_succ_le hn), map_append,
        sum_append, map_singleton, sum_singleton]
  rw [edgesAt, hsum _ (Nat.succ_le_of_lt hlv)]

section Columns

variable {Metadata : Type} {platform : Platform Metadata} {state : EventEncoderState}
  {events : List GraphEvent}

/-- The columns of what was encoded. -/
def EventEncoderState.columns (state : EventEncoderState) (metadata : Metadata) :
    PackedColumns Metadata where
  count := state.rows.length
  idRuns := placeRuns state.ids.strings 0 state.ids.runs.reverse
  overrides := parentOverrides 0 state.rows
  operationLengths := state.rows.map (·.operationLength)
  operations := entriesFrom 0 state.rows
  insertedContent := state.insertedText
  timestamps := state.rows.map (·.timestamp)
  metadata := metadata

section

variable (h : EncodedHolds state events)
include h

theorem EncodedHolds.edges_iff (hcount : events.length ≤ egw4MaxEvents) :
    EdgesFit (events.length - 1 : Nat) (parentOverrides 0 state.rows) ↔ ∀ position < events.length,
        ((events.take (position + 1)).map (·.parentVersion.ids.length)).sum +
          (events.length - 1 - position) ≤ uint32Max := by
  have hvalid := h.overridesValid
  rw [edgesFit_iff_edgesAt hvalid.ascending (fun entry hentry => (hvalid.bounds entry hentry).2)
    hcount]
  have hparents : ∀ position event, events[position]? = some event →
      (explicitParents (parentOverrides 0 state.rows) position).length =
        event.parentVersion.ids.length := by
    intro position event hevent
    rw [h.explicitParents_eq hevent, length_map]
  constructor
  · intro hall position hposition
    rw [← edgesAt_eq hparents hposition]
    exact hall position hposition
  · intro hall position hposition
    rw [edgesAt_eq hparents hposition]
    exact hall position hposition

omit h in
theorem encodeEgw4_eq_ok {input : Egw4EncodeInput Metadata} {binary : List Byte}
    (h : encodeEgw4 platform input = .ok binary) :
    input.rows.length ≤ egw4MaxEvents ∧ ∃ magic count ids overrides lengths spans content
      timestamps metadata payload,
      writeBytes egw4Magic = .ok magic ∧ writeVarint input.rows.length = .ok count ∧
      input.ids.write = .ok ids ∧
      writeParentOverrides input.rows input.overrideCount = .ok overrides ∧
      writeUnsignedRuns (input.rows.map (·.operationLength)) = .ok lengths ∧
      writeOperationSpans input.rows = .ok spans ∧
      writeBytes (platform.compress (encodeText input.insertedText)) = .ok content ∧
      writeDeltaSegments (input.rows.map (·.timestamp)) = .ok timestamps ∧
      writeString (platform.stringify input.metadata) = .ok metadata ∧
      payload = magic ++ (count ++ (ids ++ (overrides ++ (lengths ++ (spans ++ (content ++
        (timestamps ++ metadata))))))) ∧
      binary = payload ++ writeUint32LE (crc32 payload) := by
  rw [encodeEgw4] at h
  split at h
  · cases h
  next hmax =>
    split at h
    · cases h
    obtain ⟨payload, hpayload, hbinary⟩ := map_eq_ok.mp h
    obtain ⟨magic, tail0, hmagic, htail0, rfl⟩ := concat_cons_eq_ok.mp hpayload
    obtain ⟨count, tail1, hcount, htail1, rfl⟩ := concat_cons_eq_ok.mp htail0
    obtain ⟨ids, tail2, hids, htail2, rfl⟩ := concat_cons_eq_ok.mp htail1
    obtain ⟨overrides, tail3, hoverrides, htail3, rfl⟩ := concat_cons_eq_ok.mp htail2
    obtain ⟨lengths, tail4, hlengths, htail4, rfl⟩ := concat_cons_eq_ok.mp htail3
    obtain ⟨spans, tail5, hspans, htail5, rfl⟩ := concat_cons_eq_ok.mp htail4
    obtain ⟨content, tail6, hcontent, htail6, rfl⟩ := concat_cons_eq_ok.mp htail5
    obtain ⟨timestamps, tail7, htimestamps, htail7, rfl⟩ := concat_cons_eq_ok.mp htail6
    obtain ⟨metadata, tail8, hmetadata, htail8, rfl⟩ := concat_cons_eq_ok.mp htail7
    cases htail8
    rw [append_nil] at hbinary
    exact ⟨Nat.not_lt.mp hmax, magic, count, ids, overrides, lengths, spans, content, timestamps,
      metadata, _, hmagic, hcount, hids, hoverrides, hlengths, hspans, hcontent, htimestamps,
      hmetadata, rfl, hbinary.symm⟩

theorem EncodedHolds.wellFormed_text : Utf8.wellFormed state.insertedText = true := by
  have hall : ∀ (others : List GraphEvent) (rows : List Egw4Row),
      List.Forall₂ RowMatches others rows →
        Utf8.wellFormed (others.flatMap (·.operation.insertedText)) = true := by
    intro others rows hmatches
    induction hmatches with
    | nil => rfl
    | cons hrow _ ih => rw [flatMap_cons, Utf8.wellFormed_append hrow.wellFormed, ih]
  rw [h.text]
  exact hall events state.rows h.rowMatches

theorem EncodedHolds.readColumns (hback : ReadsBack events)
    (hframes : LosslessFrames platform) {metadata parsed : Metadata}
    (hjson : JsonReturns platform metadata parsed) {maxEvents : Option Nat}
    (hlimit : ∀ limit, maxEvents = some limit → events.length ≤ limit) {binary : List Byte}
    (hwrite : encodeEgw4 platform ⟨state.rows, state.ids, state.overrideCount,
      state.insertedText, metadata⟩ = .ok binary) :
    ∃ payload, binary = payload ++ writeUint32LE (crc32 payload) ∧
      (Codec.readColumns platform maxEvents).run payload = .ok (state.columns parsed, []) := by
  obtain ⟨hmax, magic, count, ids, overrides, lengths, spans, content, timestamps, json, payload,
    hmagic, hcount, hids, hoverrides, hlengths, hspans, hcontent, htimestamps, hmetadata, hpayload,
    hbinary⟩ := encodeEgw4_eq_ok hwrite
  simp only at hmax hcount hids hoverrides hlengths hspans hcontent htimestamps hmetadata
  refine ⟨payload, hbinary, ?_⟩
  have hmatches := h.rowMatches
  have hpositions : state.positions.length = state.rows.length := by
    rw [h.positions, length_map, h.length_rows]
  have htotal : insertedTotal state.rows = state.insertedText.length := by
    rw [insertedTotal_eq hmatches, h.text]
  -- one column after the other
  obtain ⟨hmagicSafe, rfl⟩ := writeBytes_eq_ok.mp hmagic
  have hreadMagic := reads_bytes hmagicSafe
  have hreadCount := reads_writeVarint hcount
  have hidsWell : ∀ id ∈ state.positions, Utf8.wellFormed id = true := by
    intro id hid
    rw [h.positions] at hid
    obtain ⟨event, hevent, rfl⟩ := mem_map.mp hid
    exact hback.ids event hevent
  obtain ⟨strings, runs, rfl, hreadStrings, hreadRuns⟩ := reads_ids h.ids hidsWell hids
  rw [hpositions] at hreadRuns
  have hreadOverrides : Reads (readParentOverrides state.rows.length) overrides
      (parentOverrides 0 state.rows) := by
    have hedges := (h.edges_iff (h.length_rows ▸ hmax)).mpr hback.edges
    have hvalid := h.overridesValid
    rw [← h.length_rows] at hedges hvalid
    rw [writeParentOverrides, h.overrideCount] at hoverrides
    split at hoverrides
    · cases hoverrides
    next own hown =>
      rw [if_pos rfl] at hoverrides
      cases hoverrides
      exact reads_parentOverrides hown hvalid hedges
  have hreadLengths : Reads (readLengths state.rows.length) lengths
      (state.rows.map (·.operationLength)) := by
    have hread := reads_lengths hlengths (by
      intro length hlength
      obtain ⟨row, hrow, rfl⟩ := mem_map.mp hlength
      exact Nat.le_trans (Nat.le_add_left _ _) (h.rowsSafe row hrow))
    rwa [length_map] at hread
  have hreadOperations := reads_operations hspans h.rowsSafe (by
    rw [htotal, h.text]
    exact hback.content)
  have hreadContent : Reads (readInsertedContent platform (entriesFrom 0 state.rows)
      (insertedTotal state.rows) (state.rows.map (·.operationLength))) content
      state.insertedText := by
    have hcheck := checkInserts_eq_ok hmatches [] 0
    rw [nil_append, length_nil, ← h.text] at hcheck
    rw [htotal]
    exact reads_insertedContent hframes hcontent h.wellFormed_text hcheck
  have hreadTimestamps : Reads (readTimestamps state.rows.length) timestamps
      (state.rows.map (·.timestamp)) := by
    have hread := reads_timestamps htimestamps (by rwa [length_map]) (by
      intro value hvalue
      obtain ⟨row, hrow, rfl⟩ := mem_map.mp hvalue
      obtain ⟨position, hget⟩ := mem_iff_getElem?.mp hrow
      obtain ⟨event, -, checked, hchecked, -, rfl⟩ := h.rowAt hget
      exact (JsNumber.eq_ofInt_of_safeInteger? (checkColumns_eq_ok.mp hchecked).1).2)
    rwa [length_map] at hread
  have hreadMetadata := reads_metadata hmetadata hjson []
  rw [append_nil] at hreadMetadata
  have htake : Reads (readByteView egw4Magic.length) egw4Magic egw4Magic := reads_take _ _
  have hlimits : maxEvents.all (fun limit => decide (state.rows.length ≤ limit)) = true := by
    cases maxEvents with
    | none => rfl
    | some limit => exact decide_eq_true (h.length_rows ▸ hlimit limit rfl)
  rw [hpayload, Codec.readColumns, append_assoc, append_assoc,
    run_bind_of_ok (reads_varint hmagicSafe _), run_bind_of_ok (htake _),
    run_bind_of_ok (run_require_of (decide_eq_true rfl)), run_bind_of_ok (hreadCount _),
    run_bind_of_ok (run_require_of (decide_eq_true hmax)), run_bind_of_ok (run_require_of hlimits),
    run_bind_of_ok (hreadStrings _), run_bind_of_ok (hreadRuns _),
    run_bind_of_ok (hreadOverrides _), run_bind_of_ok (hreadLengths _),
    run_bind_of_ok (hreadOperations _)]
  simp only
  rw [run_bind_of_ok (hreadContent _), run_bind_of_ok (hreadTimestamps _),
    run_bind_of_ok hreadMetadata,
    run_bind_of_ok (show remaining.run [] = .ok _ from rfl),
    run_bind_of_ok (run_require_of (decide_eq_true rfl))]
  rfl

theorem EncodedHolds.graphColumns (hcount : events.length ≤ egw4MaxEvents) (metadata : Metadata) :
    GraphColumns (state.columns metadata) := by
  have hpositions : state.positions.length = state.rows.length := by
    rw [h.positions, length_map, h.length_rows]
  have hshapes : ∀ run ∈ state.ids.runs.reverse, RunShape state.ids.strings run :=
    fun run hrun => h.ids.shape run (mem_reverse.mp hrun)
  refine ⟨?_, ?_, ?_, ?_⟩
  · have hrows : state.rows.length ≤ egw4MaxEvents := h.length_rows ▸ hcount
    exact hrows
  · exact placeRuns_valid hshapes h.ids.strings_ne_nil 0
  · have htiles : Tiles 0 (placeRuns state.ids.strings 0 state.ids.runs.reverse)
        (0 + totalLength state.ids.runs.reverse) := placeRuns_tiles 0 _
    rw [Nat.zero_add, h.ids.totalLength_eq, hpositions] at htiles
    exact htiles
  · have hvalid := h.overridesValid
    rw [← h.length_rows] at hvalid
    exact hvalid

theorem EncodedHolds.columns_ids (metadata : Metadata) :
    (state.columns metadata).ids = state.positions := by
  rw [PackedColumns.ids, EventEncoderState.columns, placeRuns_ids, h.ids.ids_eq]

theorem EncodedHolds.decode (hback : ReadsBack events)
    (hframes : LosslessFrames platform) {metadata parsed : Metadata}
    (hjson : JsonReturns platform metadata parsed) {maxEvents : Option Nat}
    (hlimit : ∀ limit, maxEvents = some limit → events.length ≤ limit) {binary : List Byte}
    (hwrite : encodeEgw4 platform ⟨state.rows, state.ids, state.overrideCount,
      state.insertedText, metadata⟩ = .ok binary) :
    decodeEgw4GraphSteps platform binary maxEvents = .ok (state.columns parsed).graph := by
  obtain ⟨payload, hbinary, hread⟩ := h.readColumns hback hframes hjson hlimit hwrite
  have hcount : events.length ≤ egw4MaxEvents := h.length_rows ▸ (encodeEgw4_eq_ok hwrite).1
  rw [decodeEgw4GraphSteps, hbinary, verifyChecksum_append]
  simp only [hread]
  apply (PackedColumns.buildGraph_eq_ok (h.graphColumns hcount parsed)).mpr
  rw [h.columns_ids]
  exact ⟨h.nodup, rfl⟩

omit h in
theorem EventIdSet.ofList_ids (set : EventIdSet) : EventIdSet.ofList set.ids = set := by
  have hfold : ∀ (done : EventIdSet) (rest : List Text), (done.ids ++ rest).Nodup →
      (rest.foldl EventIdSet.add done).ids = done.ids ++ rest := by
    intro done rest
    induction rest generalizing done with
    | nil => exact fun _ => (append_nil _).symm
    | cons id rest ih =>
      intro hnodup
      have hnot : id ∉ done.ids := by
        intro hmem
        rw [nodup_append] at hnodup
        exact hnodup.2.2 id hmem id mem_cons_self rfl
      have hadd : (done.add id).ids = done.ids ++ [id] := by
        rw [EventIdSet.add, dif_neg hnot]
      rw [append_cons] at hnodup ⊢
      rw [← hadd] at hnodup ⊢
      exact ih (done.add id) hnodup
  have hids : (EventIdSet.ofList set.ids).ids = set.ids := hfold .empty set.ids set.nodup
  cases hset : EventIdSet.ofList set.ids with
  | mk ids nodup =>
    rw [hset] at hids
    cases set
    cases hids
    rfl

theorem EncodedHolds.graph_events (hcount : events.length ≤ egw4MaxEvents) (metadata : Metadata) :
    (state.columns metadata).graph.events = events := by
  have hcolumns := h.graphColumns hcount metadata
  have hidAt : ∀ lv, (state.columns metadata).graph.idIndex.idAt lv = state.positions[lv]? := by
    intro lv
    rw [← h.columns_ids metadata]
    exact EventIdRunIndex.idAt_eq hcolumns.idRuns hcolumns.tiles lv
  have heventAt : ∀ lv, (state.columns metadata).graph.eventAt lv = events[lv]? := by
    intro lv
    have hpositions : state.positions[lv]? = events[lv]?.map (·.id) := by
      rw [h.positions, getElem?_map]
    cases hevent : events[lv]? with
    | none =>
      rw [PackedGraph.eventAt, hidAt, hpositions, hevent]
      rfl
    | some event =>
      have hlt := (List.getElem?_eq_some_iff.mp hevent).1
      obtain ⟨row, hrow⟩ : ∃ row, state.rows[lv]? = some row :=
        ⟨_, getElem?_eq_getElem (by rw [h.length_rows]; exact hlt)⟩
      have hoperation : (state.columns metadata).graph.operationAt lv =
          some event.operation := by
        have hentry := entriesFrom_getElem? 0 state.rows lv
        rw [hrow, Option.map_some, Nat.zero_add] at hentry
        have hsame := operation_eq h.rowMatches hevent hrow
        have hlength : (state.rows.map (·.operationLength))[lv]? = some row.operationLength := by
          rw [getElem?_map, hrow]
          rfl
        rw [PackedGraph.operationAt, PackedColumns.graph, EventEncoderState.columns, hentry,
          hlength, ← hsame, h.text]
        cases row.isInsert with
        | true => rfl
        | false => rfl
      have htimestamp : (state.rows.map (·.timestamp))[lv]? = some row.timestamp := by
        rw [getElem?_map, hrow]
        rfl
      have hparents : (((state.columns metadata).graph.runs.parentsAt lv).filterMap
          (state.columns metadata).graph.idIndex.idAt) = event.parentVersion.ids := by
        have hlv : lv < (state.columns metadata).count := by
          rw [← h.length_rows] at hlt
          exact hlt
        have hat : (state.columns metadata).graph.runs.parentsAt lv =
            event.parentVersion.ids.map state.positions.idxOf :=
          (hcolumns.overrides.explicit.parentsAt_eq hlv).trans (h.explicitParents_eq hevent)
        rw [hat, filterMap_map]
        conv_rhs => rw [← filterMap_some (l := event.parentVersion.ids)]
        apply filterMap_congr
        intro parent hparent
        rw [Function.comp_apply, hidAt]
        exact getElem?_idxOf (h.parent_mem (mem_of_getElem? hevent) hparent)
      have htime : event.timestamp = .ofInt row.timestamp :=
        (JsNumber.eq_ofInt_of_safeInteger?
          (rowMatches_getElem? h.rowMatches hevent hrow).timestamp).1
      rw [PackedGraph.eventAt, hidAt, hpositions, hevent, hoperation, hparents,
        EventIdSet.ofList_ids]
      rw [show (state.columns metadata).graph.columns.timestamps[lv]? = some row.timestamp from
        htimestamp]
      simp only [Option.map_some, ← htime]
  have hfun : (state.columns metadata).graph.eventAt = (events[·]?) := funext heventAt
  have hlength : (state.columns metadata).graph.columns.count = events.length := h.length_rows
  rw [PackedGraph.events, hfun, hlength, filterMap_range_getElem?]

theorem EncodedHolds.graph_frontier (metadata : Metadata) :
    (state.columns metadata).graph.frontier = childless events := by
  have hids := h.columns_ids metadata
  have hlength : (state.columns metadata).count = state.positions.length := by
    rw [h.positions, length_map, ← h.length_rows]
    rfl
  have hkeep : ∀ lv id, state.positions[lv]? = some id → decide (∀ other < state.positions.length,
        lv ∉ explicitParents (parentOverrides 0 state.rows) other) =
      decide (¬ ∃ event ∈ events, id ∈ event.parentVersion.ids) := by
    intro lv id hid
    apply decide_eq_decide.mpr
    constructor
    · intro hall hex
      obtain ⟨event, hevent, hparent⟩ := hex
      obtain ⟨other, hget⟩ := mem_iff_getElem?.mp hevent
      have hlt := (List.getElem?_eq_some_iff.mp hget).1
      apply hall other (by rw [h.positions, length_map]; exact hlt)
      rw [h.explicitParents_eq hget, mem_map]
      refine ⟨id, hparent, ?_⟩
      obtain ⟨hlv, hidEq⟩ := List.getElem?_eq_some_iff.mp hid
      rw [← hidEq]
      exact List.Nodup.idxOf_getElem h.nodup lv hlv
    · intro hnone other hother hmem
      rw [h.positions, length_map] at hother
      obtain ⟨event, hget⟩ : ∃ event, events[other]? = some event :=
        ⟨_, getElem?_eq_getElem hother⟩
      rw [h.explicitParents_eq hget] at hmem
      obtain ⟨parent, hparent, hindex⟩ := mem_map.mp hmem
      have hevent := mem_of_getElem? hget
      have hsame := getElem?_idxOf (h.parent_mem hevent hparent)
      rw [hindex, hid] at hsame
      rw [Option.some.inj hsame] at hnone
      exact hnone ⟨event, hevent, hparent⟩
  have hfrontier : (state.columns metadata).graph.frontier =
      ((List.range state.positions.length).filter fun lv => ∀ other < state.positions.length,
        lv ∉ explicitParents (parentOverrides 0 state.rows) other).filterMap
          (state.positions[·]?) := by
    rw [← hlength, ← hids]
    rfl
  rw [hfrontier, filterMap_filter_range state.positions hkeep, childless, ← h.positions]

end

end Columns

end Softmaple.Codec
