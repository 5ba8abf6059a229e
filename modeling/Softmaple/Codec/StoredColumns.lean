import Softmaple.Codec.EncodeDecode
import Softmaple.Codec.OrderInvariance

/-!
An event graph as it is kept (`graph/event-graph.ts`): a packed base, which a
payload was decoded into, and the events appended after it. It is encoded from
its columns, in the order of `EncodingOrder`.
-/
namespace Softmaple.Codec

open List

namespace EventIdRunIndex

variable (index : EventIdRunIndex)

def hasCustomIds : Bool := index.runs.any (·.custom)

def agentAt (offset : Nat) : Option Text := (index.runBefore offset).bind (·.agent)

def sequenceAt (offset : Nat) : Nat :=
  match index.runBefore offset with
  | none => 0
  | some run =>
    if run.custom then ((parseEventId run.replicaId).map (·.2)).getD 0
    else run.startSequence + (offset - run.startEventOffset)

end EventIdRunIndex

structure TailEvent where
  id : Text
  operation : Operation
  timestamp : JsNumber
  parentRanks : List Nat

structure StoredGraph (Metadata : Type) where
  packed : Option (PackedGraph Metadata)
  tail : List TailEvent
  /-- Replica IDs by agent number. -/
  agents : List Text
  metadata : Metadata
  /-- Ranks of the frontier, in the order they entered it. -/
  frontier : List Nat

namespace StoredGraph

variable {Metadata : Type} (graph : StoredGraph Metadata)

def packedCount : Nat := (graph.packed.map (·.columns.count)).getD 0

def count : Nat := graph.packedCount + graph.tail.length

def columnAt {α : Type} (packedAt : PackedGraph Metadata → Nat → Option α)
    (tailAt : TailEvent → α) (default : α) (rank : Nat) : α :=
  if rank < graph.packedCount then
    (graph.packed.bind fun packed => packedAt packed rank).getD default
  else ((graph.tail[rank - graph.packedCount]?).map tailAt).getD default

def idAt : Nat → Text := graph.columnAt (fun packed => packed.idIndex.idAt) (·.id) []

def replicaAt : Nat → Option Text :=
  graph.columnAt (fun packed rank => some (packed.idIndex.agentAt rank))
    (fun event => (parseEventId event.id).map (·.1)) none

def sequenceAt : Nat → Nat :=
  graph.columnAt (fun packed rank => some (packed.idIndex.sequenceAt rank))
    (fun event => ((parseEventId event.id).map (·.2)).getD 0) 0

def parentRanksAt : Nat → List Nat :=
  graph.columnAt (fun packed rank => some (packed.runs.parentsAt rank)) (·.parentRanks) []

def isInsertAt : Nat → Bool :=
  graph.columnAt (fun packed rank => packed.columns.operations[rank]?.map (·.isInsert))
    (·.operation.isInsert) false

def operationIndexAt : Nat → JsNumber :=
  graph.columnAt
    (fun packed rank => packed.columns.operations[rank]?.map fun entry =>
      .ofInt entry.operationIndex)
    (·.operation.index) .nan

def operationLengthAt : Nat → JsNumber :=
  graph.columnAt
    (fun packed rank => packed.columns.operationLengths[rank]?.map fun length => .ofInt length)
    (·.operation.lengthNumber) .nan

def insertedTextAt : Nat → Text :=
  graph.columnAt
    (fun packed rank =>
      match packed.columns.operations[rank]?, packed.columns.operationLengths[rank]? with
      | some entry, some length =>
        some ((packed.columns.insertedContent.drop entry.insertStart).take length)
      | _, _ => none)
    (·.operation.insertedText) []

def timestampAt : Nat → JsNumber :=
  graph.columnAt (fun packed rank => packed.columns.timestamps[rank]?.map .ofInt) (·.timestamp) .nan

/-- The agent number of an event with a canonical ID. -/
def agentAt (rank : Nat) : Option Nat := (graph.replicaAt rank).bind (graph.agents.idxOf? ·)

def topologicalColumnSource : TopologicalColumnSource where
  count := graph.count
  idAt := graph.idAt
  agentAt := graph.agentAt
  agentName agent := graph.agents.getD agent []
  sequenceAt := graph.sequenceAt
  useStringIdAt rank :=
    rank < graph.packedCount && graph.packed.any (·.idIndex.hasCustomIds)
  isInsertAt := graph.isInsertAt
  operationIndexAt := graph.operationIndexAt
  operationLengthAt := graph.operationLengthAt
  insertedTextAt := graph.insertedTextAt
  timestampAt := graph.timestampAt
  parentRanksAt := graph.parentRanksAt

def eventAt (rank : Nat) : Option GraphEvent :=
  if rank < graph.packedCount then graph.packed.bind (·.eventAt rank)
  else (graph.tail[rank - graph.packedCount]?).map fun event =>
    { id := event.id
      operation := event.operation
      parentVersion := .ofList (event.parentRanks.map graph.idAt)
      timestamp := event.timestamp }

def events : List GraphEvent := (List.range graph.count).filterMap graph.eventAt

def packedRuns : GraphRuns := (graph.packed.map (·.runs)).getD (.linear 0)

/-- Whether insertion order is the graph's one causal chain. -/
def isExactLinearHistory : Bool :=
  graph.packedRuns.isLinear &&
    (List.range graph.tail.length).all fun tailIndex =>
      graph.parentRanksAt (graph.packedCount + tailIndex) =
        defaultParents (graph.packedCount + tailIndex)

def packedExplicitParents : List (Nat × List Nat) :=
  (List.range graph.packedRuns.count).filterMap fun run =>
    let start := graph.packedRuns.startOf run
    let parents := (graph.packedRuns.parentRuns.getD run []).map graph.packedRuns.lastOf
    if start ≠ 0 ∧ parents = [start - 1] then none else some (start, parents)

def tailExplicitParents : List (Nat × List Nat) :=
  (List.range graph.tail.length).filterMap fun tailIndex =>
    let rank := graph.packedCount + tailIndex
    let parents := graph.parentRanksAt rank
    if parents = defaultParents rank then none else some (rank, parents)

def replayRuns : GraphRuns :=
  if graph.tail = [] then graph.packedRuns
  else .fromExplicitParents graph.count (graph.packedExplicitParents ++ graph.tailExplicitParents)

def idView : EventIdView where
  agentAt := graph.replicaAt
  sequenceAt := graph.sequenceAt
  idAt := graph.idAt

/-- Encode the graph in its encoding order; a chain is in that order as it is. -/
def encodeTopologicalBinary (platform : Platform Metadata) :
    Except CodecError TopologicalEventGraphEncoding :=
  if graph.isExactLinearHistory then
    encodeTopologicalColumnsBinary platform graph.topologicalColumnSource none graph.metadata
      graph.frontier
  else
    match graph.replayRuns.encodingOrderOffsets graph.idView with
    | none => .error .cycle
    | some order =>
      encodeTopologicalColumnsBinary platform graph.topologicalColumnSource (some order)
        graph.metadata graph.frontier

/-- A decoded graph. Agents are numbered in the order their runs are read. -/
def fromPackedBase (base : PackedGraph Metadata) : StoredGraph Metadata where
  packed := some base
  tail := []
  agents := (base.idIndex.runs.filterMap (·.agent)).eraseDups
  metadata := base.columns.metadata
  frontier := base.frontier.filterMap base.idIndex.localVersionOf

end StoredGraph

end Softmaple.Codec

namespace Softmaple.Codec

open List

theorem EventIdRunIndex.parse_of_idAt {runs : List IdRun} {count offset : Nat}
    {strings : List Text} (hstrings : StringsValid strings)
    (hruns : ∀ run ∈ runs, run.Readable strings)
    (hsafe : ∀ run ∈ runs, run.custom = false →
      run.startSequence + run.length ≤ maxSafeInteger + 1) {id : Text}
    (hid : EventIdRunIndex.idAt ⟨runs, count⟩ offset = some id) :
    parseEventId id = (EventIdRunIndex.agentAt ⟨runs, count⟩ offset).map fun agent =>
      (agent, EventIdRunIndex.sequenceAt ⟨runs, count⟩ offset) := by
  rw [EventIdRunIndex.idAt] at hid
  have hid := (ite_eq_iff.mp hid).resolve_left (by rintro ⟨-, ⟨⟩⟩)
  rw [EventIdRunIndex.agentAt, EventIdRunIndex.sequenceAt]
  cases hfind : EventIdRunIndex.runBefore ⟨runs, count⟩ offset with
  | none =>
    rw [hfind] at hid
    cases hid.2
  | some run =>
    rw [hfind] at hid
    have hmem := mem_of_find?_eq_some hfind
    have hinside := find?_some hfind
    rw [Bool.and_eq_true, decide_eq_true_eq, decide_eq_true_eq] at hinside
    have hread := hruns run hmem
    have hsame := Option.some.inj hid.2
    simp only [Option.bind_some, IdRun.agent] at hsame ⊢
    cases hcustom : run.custom with
    | true =>
      rw [hcustom, if_pos rfl] at hsame
      rw [← hsame, if_pos rfl, (hread.custom hcustom).2.2]
      rfl
    | false =>
      have hend := hsafe run hmem hcustom
      rw [hcustom, if_neg Bool.false_ne_true] at hsame
      rw [← hsame, if_neg Bool.false_ne_true, if_neg Bool.false_ne_true, Option.map_some]
      exact parseEventId_format (hstrings.ne_nil _ hread.replicaId) (by omega)

namespace StoredGraph

variable {Metadata : Type} {platform : Platform Metadata} {graph : StoredGraph Metadata}
  {packed : PackedGraph Metadata}

/-- A graph that the code can hold: a base from a payload, and events with new IDs and
earlier parents after it. -/
structure Valid (platform : Platform Metadata) (graph : StoredGraph Metadata) : Prop where
  packed : ∀ packed, graph.packed = some packed →
    ColumnsRead platform packed.columns ∧ buildGraph packed.columns = .ok packed
  ids_nodup : (graph.events.map (·.id)).Nodup
  parents : ∀ index event, graph.tail[index]? = some event → event.parentRanks.Nodup ∧
    ∀ parent ∈ event.parentRanks, parent < graph.packedCount + index
  agents : ∀ rank < graph.count, ∀ replicaId, graph.replicaAt rank = some replicaId →
    replicaId ∈ graph.agents
  frontier : graph.frontier.Perm ((List.range graph.count).filter fun rank =>
    ∀ other < graph.count, rank ∉ graph.parentRanksAt other)

/-- No ID is empty, and no canonical ID run of the base passes the last safe sequence. -/
structure RegularIds (graph : StoredGraph Metadata) : Prop where
  ne_nil : ∀ event ∈ graph.events, event.id ≠ []
  sequences : ∀ packed, graph.packed = some packed → ∀ run ∈ packed.columns.idRuns,
    run.custom = false → run.startSequence + run.length ≤ maxSafeInteger + 1

section Columns

variable {α : Type} {packedAt : PackedGraph Metadata → Nat → Option α} {tailAt : TailEvent → α}
  {default : α}

theorem packedCount_some (h : graph.packed = some packed) :
    graph.packedCount = packed.columns.count := by
  rw [packedCount, h]
  rfl

theorem packedCount_none (h : graph.packed = none) : graph.packedCount = 0 := by
  rw [packedCount, h]
  rfl

theorem columnAt_packed (h : graph.packed = some packed) {rank : Nat}
    (hrank : rank < packed.columns.count) :
    graph.columnAt packedAt tailAt default rank = (packedAt packed rank).getD default := by
  rw [columnAt, packedCount_some h, if_pos hrank, h]
  rfl

theorem columnAt_tail {index : Nat} {event : TailEvent} (h : graph.tail[index]? = some event) :
    graph.columnAt packedAt tailAt default (graph.packedCount + index) = tailAt event := by
  rw [columnAt, if_neg (by omega), Nat.add_sub_cancel_left, h]
  rfl

theorem rank_cases {rank : Nat} (h : rank < graph.count) :
    (∃ packed, graph.packed = some packed ∧ rank < packed.columns.count) ∨
      ∃ index event, rank = graph.packedCount + index ∧ graph.tail[index]? = some event := by
  by_cases hpacked : rank < graph.packedCount
  · cases hbase : graph.packed with
    | none =>
      rw [packedCount_none hbase] at hpacked
      omega
    | some packed =>
      rw [packedCount_some hbase] at hpacked
      exact .inl ⟨packed, rfl, hpacked⟩
  · rw [count] at h
    have hindex : rank - graph.packedCount < graph.tail.length := by omega
    exact .inr ⟨_, _, by omega, getElem?_eq_getElem hindex⟩

end Columns

structure ColumnsAt (graph : StoredGraph Metadata) (rank : Nat) (event : GraphEvent) : Prop where
  eventAt : graph.eventAt rank = some event
  id : graph.idAt rank = event.id
  isInsert : graph.isInsertAt rank = event.operation.isInsert
  index : graph.operationIndexAt rank = event.operation.index
  length : graph.operationLengthAt rank = event.operation.lengthNumber
  text : graph.isInsertAt rank = true → graph.insertedTextAt rank = event.operation.insertedText
  timestamp : graph.timestampAt rank = event.timestamp
  parents : event.parentVersion = .ofList ((graph.parentRanksAt rank).map graph.idAt)
  earlier : ∀ parent ∈ graph.parentRanksAt rank, parent < rank
  distinct : (graph.parentRanksAt rank).Nodup

section

variable (h : graph.Valid platform)
include h

theorem columnsAt_tail {index : Nat} {event : TailEvent}
    (hevent : graph.tail[index]? = some event) :
    ColumnsAt graph (graph.packedCount + index) ⟨event.id, event.operation,
      .ofList (event.parentRanks.map graph.idAt), event.timestamp⟩ := by
  obtain ⟨hdistinct, hearlier⟩ := h.parents index event hevent
  have hparents : graph.parentRanksAt (graph.packedCount + index) = event.parentRanks := by
    rw [parentRanksAt, columnAt_tail hevent]
  constructor
  · rw [StoredGraph.eventAt, if_neg (by omega), Nat.add_sub_cancel_left, hevent]
    rfl
  · rw [idAt, columnAt_tail hevent]
  · rw [isInsertAt, columnAt_tail hevent]
  · rw [operationIndexAt, columnAt_tail hevent]
  · rw [operationLengthAt, columnAt_tail hevent]
  · intro _
    rw [insertedTextAt, columnAt_tail hevent]
  · rw [timestampAt, columnAt_tail hevent]
  · rw [hparents]
  · rwa [hparents]
  · rwa [hparents]

theorem columnsAt_packed {rank : Nat}
    (hpacked : graph.packed = some packed) (hrank : rank < packed.columns.count) :
    ∃ event, ColumnsAt graph rank event := by
  obtain ⟨hread, hbuild⟩ := h.packed packed hpacked
  obtain ⟨-, -, hruns⟩ := buildGraph_fields hbuild
  obtain ⟨rows, hrows⟩ := hread.exists_rows
  obtain ⟨id, row, hrow, hid, -, -, hevent⟩ := hrows.eventAt hread hbuild hrank
  obtain ⟨hentry, hlength, htimestamp⟩ := hrows.columns_at hrow
  obtain ⟨hearlier, hdistinct⟩ := explicitParents_valid hread.overrides rank
  have hidAt : ∀ other < packed.columns.count,
      packed.idIndex.idAt other = some (graph.idAt other) := by
    intro other hother
    obtain ⟨otherId, -, -, hotherId, -⟩ := hrows.eventAt hread hbuild hother
    rw [idAt, columnAt_packed hpacked hother, hotherId]
    rfl
  have hparents : graph.parentRanksAt rank = explicitParents packed.columns.overrides rank := by
    have hat : packed.runs.parentsAt rank = explicitParents packed.columns.overrides rank := by
      rw [hruns]
      exact hread.overrides.explicit.parentsAt_eq hrank
    rw [parentRanksAt, columnAt_packed hpacked hrank, hat]
    rfl
  have hparentIds : (explicitParents packed.columns.overrides rank).filterMap packed.idIndex.idAt =
      (explicitParents packed.columns.overrides rank).map graph.idAt := by
    rw [← filterMap_eq_map]
    apply filterMap_congr
    intro parent hparent
    exact hidAt parent (Nat.lt_trans (hearlier parent hparent) hrank)
  have hown : graph.idAt rank = id := by
    have hsame := hidAt rank hrank
    rw [hid] at hsame
    exact (Option.some.inj hsame).symm
  have hinsertAt : graph.isInsertAt rank = row.isInsert := by
    rw [isInsertAt, columnAt_packed hpacked hrank, hentry]
    rfl
  have hindexAt : graph.operationIndexAt rank = .ofInt row.operationIndex := by
    rw [operationIndexAt, columnAt_packed hpacked hrank, hentry]
    rfl
  have hlengthAt : graph.operationLengthAt rank = .ofInt row.operationLength := by
    rw [operationLengthAt, columnAt_packed hpacked hrank, hlength]
    rfl
  have htextAt : row.isInsert = true → graph.insertedTextAt rank =
      (packed.columns.insertedContent.drop (insertedTotal (rows.take rank))).take
        row.operationLength := by
    intro hinsert
    rw [insertedTextAt, columnAt_packed hpacked hrank, hentry, hlength]
    simp only [hinsert, if_true]
    rfl
  refine ⟨⟨id, row.operationIn packed.columns.insertedContent (insertedTotal (rows.take rank)),
    .ofList ((explicitParents packed.columns.overrides rank).map graph.idAt),
    .ofInt row.timestamp⟩, ?_⟩
  constructor
  · rw [StoredGraph.eventAt, packedCount_some hpacked, if_pos hrank, hpacked, Option.bind_some,
      hevent, hparentIds]
  · exact hown
  · rw [hinsertAt, Egw4Row.operationIn]
    cases row.isInsert with
    | true => rfl
    | false => rfl
  · rw [hindexAt, Egw4Row.operationIn]
    cases row.isInsert with
    | true => rfl
    | false => rfl
  · rw [hlengthAt, Egw4Row.operationIn]
    cases hinsert : row.isInsert with
    | true =>
      have hslice := hrows.length_slice hrow hinsert
      rw [if_pos rfl, Operation.lengthNumber, hslice]
    | false => rfl
  · intro hinsert
    rw [hinsertAt] at hinsert
    rw [htextAt hinsert, Egw4Row.operationIn, if_pos hinsert]
    rfl
  · rw [timestampAt, columnAt_packed hpacked hrank, htimestamp]
    rfl
  · rw [hparents]
  · rwa [hparents]
  · rwa [hparents]

theorem exists_columnsAt {rank : Nat} (hrank : rank < graph.count) :
    ∃ event, ColumnsAt graph rank event := by
  cases rank_cases hrank with
  | inl hbase =>
    obtain ⟨packed, hpacked, hlt⟩ := hbase
    exact columnsAt_packed h hpacked hlt
  | inr htail =>
    obtain ⟨index, event, rfl, hevent⟩ := htail
    exact ⟨_, columnsAt_tail h hevent⟩

section Events

variable (h : graph.Valid platform)

include h

theorem map_some_events : graph.events.map some = (List.range graph.count).map graph.eventAt := by
  apply map_some_filterMap
  intro rank hrank
  obtain ⟨event, hcolumns⟩ := exists_columnsAt h (mem_range.mp hrank)
  rw [hcolumns.eventAt]
  rfl

theorem length_events : graph.events.length = graph.count := by
  have hlength := congrArg List.length (map_some_events h)
  rwa [length_map, length_map, length_range] at hlength

variable {rank : Nat}

theorem events_getElem? (hrank : rank < graph.count) : graph.events[rank]? = graph.eventAt rank := by
  have hget : (graph.events.map some)[rank]? = ((List.range graph.count).map graph.eventAt)[rank]? := by
    rw [map_some_events h]
  have hlength : rank < graph.events.length := by rwa [length_events h]
  rw [getElem?_map, getElem?_map, getElem?_range hrank,
    getElem?_eq_getElem hlength] at hget
  rw [getElem?_eq_getElem hlength]
  exact Option.some.inj hget

theorem columnsAt_of_getElem? {event : GraphEvent}
    (hevent : graph.events[rank]? = some event) : rank < graph.count ∧ ColumnsAt graph rank event := by
  have hrank := (List.getElem?_eq_some_iff.mp hevent).1
  rw [length_events h] at hrank
  obtain ⟨other, hcolumns⟩ := exists_columnsAt h hrank
  rw [events_getElem? h hrank, hcolumns.eventAt] at hevent
  rw [← Option.some.inj hevent]
  exact ⟨hrank, hcolumns⟩

theorem ids_getElem? (hrank : rank < graph.count) :
    (graph.events.map (·.id))[rank]? = some (graph.idAt rank) := by
  obtain ⟨event, hcolumns⟩ := exists_columnsAt h hrank
  rw [getElem?_map, events_getElem? h hrank, hcolumns.eventAt, hcolumns.id]
  rfl

theorem idAt_injective {other : Nat} (hrank : rank < graph.count) (hother : other < graph.count)
    (heq : graph.idAt rank = graph.idAt other) : rank = other := by
  apply (getElem?_inj (by rwa [length_map, length_events h]) h.ids_nodup).mp
  rw [ids_getElem? h hrank, ids_getElem? h hother, heq]

theorem earlierParents : EarlierParents graph.count graph.parentRanksAt where
  lt rank hrank := by
    obtain ⟨event, hcolumns⟩ := exists_columnsAt h hrank
    exact hcolumns.earlier
  nodup rank hrank := by
    obtain ⟨event, hcolumns⟩ := exists_columnsAt h hrank
    exact hcolumns.distinct

theorem parentVersion_ids {event : GraphEvent} (hevent : graph.events[rank]? = some event) :
    event.parentVersion.ids = (graph.parentRanksAt rank).map graph.idAt := by
  obtain ⟨hrank, hcolumns⟩ := columnsAt_of_getElem? h hevent
  rw [hcolumns.parents, EventIdSet.ids_ofList]
  apply hcolumns.distinct.map_on
  intro parent hparent other hother
  exact idAt_injective h (Nat.lt_trans (hcolumns.earlier parent hparent) hrank)
    (Nat.lt_trans (hcolumns.earlier other hother) hrank)

end Events

theorem parse_of_idAt {rank : Nat} (hregular : graph.RegularIds)
    (hrank : rank < graph.count) : parseEventId (graph.idAt rank) =
      (graph.replicaAt rank).map fun agent => (agent, graph.sequenceAt rank) := by
  cases rank_cases hrank with
  | inl hbase =>
    obtain ⟨packed, hpacked, hlt⟩ := hbase
    obtain ⟨hread, hbuild⟩ := h.packed packed hpacked
    obtain ⟨-, hindex, -⟩ := buildGraph_fields hbuild
    obtain ⟨strings, hstrings, hruns⟩ := hread.idRuns
    obtain ⟨id, hid, -, -⟩ := exists_idAt hstrings hruns hread.tiles hlt
    have hparse := EventIdRunIndex.parse_of_idAt hstrings hruns
      (hregular.sequences packed hpacked) hid
    rw [← hindex] at hid hparse
    rw [idAt, replicaAt, sequenceAt, columnAt_packed hpacked hlt, columnAt_packed hpacked hlt,
      columnAt_packed hpacked hlt, hid]
    exact hparse
  | inr htail =>
    obtain ⟨index, event, rfl, hevent⟩ := htail
    rw [idAt, replicaAt, sequenceAt, columnAt_tail hevent, columnAt_tail hevent,
      columnAt_tail hevent]
    cases parseEventId event.id with
    | none => rfl
    | some parsed => rfl

theorem presents (hregular : graph.RegularIds) :
    Presents graph.topologicalColumnSource graph.events where
  count := (length_events h).symm
  ids_nodup := h.ids_nodup
  id_ne_nil := hregular.ne_nil
  event rank event hevent := by
    obtain ⟨hrank, hcolumns⟩ := columnsAt_of_getElem? h hevent
    have hparse := parse_of_idAt h hregular hrank
    rw [hcolumns.id] at hparse
    constructor
    · exact hcolumns.id
    · intro agent _ hagent
      obtain ⟨replicaId, hreplica, hindex⟩ := Option.bind_eq_some_iff.mp hagent
      obtain ⟨hlt, hname, -⟩ := idxOf?_eq_some_iff.mp hindex
      have hagentName : graph.agents.getD agent [] = replicaId := by
        rw [getD_eq_getElem _ _ hlt, hname]
      rw [hparse, hreplica, Option.map_some, ← hagentName]
      rfl
    · intro _ hagent
      rw [hparse]
      cases hreplica : graph.replicaAt rank with
      | none => rfl
      | some replicaId =>
        have hmem := h.agents rank hrank replicaId hreplica
        have hnone : graph.agentAt rank = none := hagent
        rw [agentAt, hreplica, Option.bind_some] at hnone
        exact absurd hmem (idxOf?_eq_none_iff.mp hnone)
    · exact hcolumns.isInsert
    · exact hcolumns.index
    · exact hcolumns.length
    · exact hcolumns.text
    · exact hcolumns.timestamp
    · rw [parentVersion_ids h hevent, map_map]
      apply map_congr_left
      intro parent hparent
      have hlt := Nat.lt_trans (hcolumns.earlier parent hparent) hrank
      rw [← getElem?_map, ids_getElem? h hlt]
      rfl

end

end StoredGraph

end Softmaple.Codec
