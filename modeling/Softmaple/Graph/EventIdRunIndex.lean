import Softmaple.Codec.EventIdText
import Softmaple.Codec.RemoteEvent
import Softmaple.Lib.InsertionMap
import Softmaple.Lib.Tiling

/-!
Replica IDs numbered in the order they are first seen (`graph/internals/agent-table.ts`).
Several indexes share one table. It remembers the two agents resolved last, which
changes no answer.
-/
namespace Softmaple.Graph

open List

/-- The number of a name is its place. -/
structure AgentTable where
  names : List Text
  recent : Option Nat
  previous : Option Nat
  deriving DecidableEq, Repr

namespace AgentTable

def empty : AgentTable := ⟨[], none, none⟩

def numberOf (table : AgentTable) (name : Text) : Option Nat := table.names.idxOf? name

def intern (table : AgentTable) (name : Text) : Nat × AgentTable :=
  match table.numberOf name with
  | some agent => (agent, table)
  | none => (table.names.length, { table with names := table.names ++ [name] })

def nameOf (table : AgentTable) (agent : Nat) : Option Text := table.names[agent]?

/-- Whether the text before `colonIndex` is the name of an agent. -/
def isPrefixOf (table : AgentTable) (agent : Nat) (id : Text) (colonIndex : Nat) : Bool :=
  match table.names[agent]? with
  | some name => name.length = colonIndex && name.isPrefixOf id
  | none => false

def remember (table : AgentTable) (agent : Nat) : AgentTable :=
  if some agent = table.recent then table
  else { table with previous := table.recent, recent := some agent }

def hits (table : AgentTable) (id : Text) (colonIndex : Nat) : Option Nat → Bool
  | some agent => table.isPrefixOf agent id colonIndex
  | none => false

/-- The agent named by the text before `colonIndex`. -/
def resolvePrefix (table : AgentTable) (id : Text) (colonIndex : Nat) :
    Option Nat × AgentTable :=
  if table.hits id colonIndex table.recent then (table.recent, table)
  else if table.hits id colonIndex table.previous then
    (table.previous, { table with previous := table.recent, recent := table.previous })
  else
    match table.numberOf (id.take colonIndex) with
    | some agent => (some agent, table.remember agent)
    | none => (none, table)

/-- The same, with a number for a new replica. -/
def internPrefix (table : AgentTable) (id : Text) (colonIndex : Nat) : Nat × AgentTable :=
  match table.resolvePrefix id colonIndex with
  | (some agent, resolved) => (agent, resolved)
  | (none, resolved) =>
    let (agent, interned) := resolved.intern (id.take colonIndex)
    (agent, interned.remember agent)

/-- No name is empty or has two numbers, and the remembered agents exist. -/
structure Sound (table : AgentTable) : Prop where
  nodup : table.names.Nodup
  ne_nil : ∀ name ∈ table.names, name ≠ []
  recent : ∀ agent, table.recent = some agent → agent < table.names.length
  previous : ∀ agent, table.previous = some agent → agent < table.names.length

structure Extends (table later : AgentTable) : Prop where
  names : table.names <+: later.names
  sound : later.Sound

variable {table later : AgentTable} {name id : Text} {agent colonIndex : Nat}

theorem sound_empty : empty.Sound :=
  ⟨nodup_nil, fun _ h => (nomatch h), fun _ h => (nomatch h), fun _ h => (nomatch h)⟩

section

variable (h : table.Sound)
include h

theorem Sound.refl : table.Extends table := ⟨prefix_refl _, h⟩

omit h in
theorem Extends.trans {last : AgentTable} (h : table.Extends later) (hlast : later.Extends last) :
    table.Extends last := ⟨h.names.trans hlast.names, hlast.sound⟩

omit h in
theorem Extends.nameOf (h : table.Extends later) (hname : table.nameOf agent = some name) :
    later.nameOf agent = some name := by
  obtain ⟨more, hmore⟩ := h.names
  rw [AgentTable.nameOf, ← hmore, List.getElem?_append_left (List.getElem?_eq_some_iff.mp hname).1]
  exact hname

theorem numberOf_eq_some : table.numberOf name = some agent ↔ table.nameOf agent = some name := by
  rw [numberOf, AgentTable.nameOf, idxOf?_eq_map_finIdxOf?_val]
  constructor
  · intro hnumber
    obtain ⟨place, hplace, rfl⟩ := Option.map_eq_some_iff.mp hnumber
    have hfound := (finIdxOf?_eq_some_iff.mp hplace).1
    rw [getElem?_eq_getElem place.isLt]
    exact congrArg some hfound
  · intro hname
    obtain ⟨hlt, hget⟩ := List.getElem?_eq_some_iff.mp hname
    apply Option.map_eq_some_iff.mpr
    refine ⟨⟨agent, hlt⟩, finIdxOf?_eq_some_iff.mpr ⟨hget, ?_⟩, rfl⟩
    intro earlier hearlier heq
    have hsame := (List.Nodup.getElem_inj_iff h.nodup).mp (heq.trans hget.symm)
    exact absurd hsame (Nat.ne_of_lt hearlier)

theorem nameOf_injective {other : Nat}
    (hname : table.nameOf agent = some name) (hother : table.nameOf other = some name) :
    agent = other := by
  have hnumber := (numberOf_eq_some h).mpr hname
  rw [(numberOf_eq_some h).mpr hother] at hnumber
  exact (Option.some.inj hnumber).symm

theorem Sound.name_ne_nil (hname : table.nameOf agent = some name) : name ≠ [] :=
  h.ne_nil name (mem_of_getElem? hname)

theorem intern_spec (hne : name ≠ []) : table.Extends (table.intern name).2 ∧
      (table.intern name).2.nameOf (table.intern name).1 = some name := by
  unfold intern
  cases hnumber : table.numberOf name with
  | some agent => exact ⟨h.refl, (numberOf_eq_some h).mp hnumber⟩
  | none =>
    have hnew : name ∉ table.names := idxOf?_eq_none_iff.mp hnumber
    refine ⟨⟨prefix_append _ _, ⟨?_, ?_, ?_, ?_⟩⟩, ?_⟩
    · rw [nodup_append]
      refine ⟨h.nodup, nodup_singleton _, fun a ha b hb => ?_⟩
      rw [mem_singleton] at hb
      rw [hb]
      exact fun heq => hnew (heq ▸ ha)
    · intro other hother
      obtain hold | hlast := mem_append.mp hother
      · exact h.ne_nil other hold
      · rwa [mem_singleton.mp hlast]
    · intro agent hagent
      have := h.recent agent hagent
      simp only [length_append]
      omega
    · intro agent hagent
      have := h.previous agent hagent
      simp only [length_append]
      omega
    · simp [AgentTable.nameOf]

omit h in
theorem isPrefixOf_iff (hcolon : colonIndex ≤ id.length) :
    table.isPrefixOf agent id colonIndex = true ↔
      table.nameOf agent = some (id.take colonIndex) := by
  unfold isPrefixOf AgentTable.nameOf
  cases table.names[agent]? with
  | none => simp
  | some name =>
    simp only [Bool.and_eq_true, decide_eq_true_eq, isPrefixOf_iff_prefix,
      Option.some.injEq]
    constructor
    · rintro ⟨hlength, hprefix⟩
      rw [← hlength]
      exact prefix_iff_eq_take.mp hprefix
    · rintro rfl
      exact ⟨length_take_of_le hcolon, take_prefix _ _⟩

theorem Sound.remember (hagent : agent < table.names.length) :
    table.Extends (table.remember agent) := by
  unfold AgentTable.remember
  split
  · exact h.refl
  · refine ⟨prefix_refl _, h.nodup, h.ne_nil, fun other hother => ?_, h.recent⟩
    obtain rfl := Option.some.inj hother
    exact hagent

omit h in
theorem lt_of_nameOf (h : table.nameOf agent = some name) : agent < table.names.length :=
  (List.getElem?_eq_some_iff.mp h).1

omit h in
theorem remember_names : (table.remember agent).names = table.names := by
  unfold AgentTable.remember
  split <;> rfl

omit h in
theorem of_hits {remembered : Option Nat} (hcolon : colonIndex ≤ id.length)
    (h : table.hits id colonIndex remembered = true) :
    ∃ agent, remembered = some agent ∧ table.nameOf agent = some (id.take colonIndex) := by
  cases remembered with
  | none => cases h
  | some agent => exact ⟨agent, rfl, (isPrefixOf_iff hcolon).mp h⟩

/-- The remembered agents are only a shortcut. -/
theorem resolvePrefix_spec (hcolon : colonIndex ≤ id.length) :
    (table.resolvePrefix id colonIndex).1 = table.numberOf (id.take colonIndex) ∧
      (table.resolvePrefix id colonIndex).2.names = table.names ∧
        (table.resolvePrefix id colonIndex).2.Sound := by
  unfold resolvePrefix
  split
  · rename_i hrecent
    obtain ⟨agent, heq, hname⟩ := of_hits hcolon hrecent
    exact ⟨heq.trans ((numberOf_eq_some h).mpr hname).symm, rfl, h⟩
  · split
    · rename_i hprevious
      obtain ⟨agent, heq, hname⟩ := of_hits hcolon hprevious
      exact ⟨heq.trans ((numberOf_eq_some h).mpr hname).symm, rfl,
        h.nodup, h.ne_nil, h.previous, h.recent⟩
    · cases hnumber : table.numberOf (id.take colonIndex) with
      | none => exact ⟨rfl, rfl, h⟩
      | some agent =>
        have hlt := lt_of_nameOf ((numberOf_eq_some h).mp hnumber)
        exact ⟨rfl, remember_names, (h.remember hlt).sound⟩

theorem internPrefix_spec (hcolon : colonIndex ≤ id.length) (hne : id.take colonIndex ≠ []) :
    table.Extends (table.internPrefix id colonIndex).2 ∧
      (table.internPrefix id colonIndex).2.nameOf (table.internPrefix id colonIndex).1 =
        some (id.take colonIndex) := by
  have hresolved := resolvePrefix_spec h hcolon
  unfold internPrefix
  rcases hsplit : table.resolvePrefix id colonIndex with ⟨found, resolved⟩
  rw [hsplit] at hresolved
  obtain ⟨hfound, hnames, hsound⟩ := hresolved
  have hextends : table.Extends resolved := ⟨hnames ▸ prefix_refl _, hsound⟩
  cases found with
  | some agent =>
    refine ⟨hextends, ?_⟩
    have hname := (numberOf_eq_some h).mp hfound.symm
    exact hextends.nameOf hname
  | none =>
    obtain ⟨hintern, hname⟩ := intern_spec hsound hne
    have hlt := lt_of_nameOf hname
    refine ⟨hextends.trans (hintern.trans (hintern.sound.remember hlt)), ?_⟩
    exact (hintern.sound.remember hlt).nameOf hname

theorem internPrefix_known (hcolon : colonIndex ≤ id.length)
    (hname : table.nameOf agent = some (id.take colonIndex)) :
    (table.internPrefix id colonIndex).2.names = table.names := by
  have hresolved := resolvePrefix_spec h hcolon
  unfold internPrefix
  rcases hsplit : table.resolvePrefix id colonIndex with ⟨found, resolved⟩
  rw [hsplit] at hresolved
  obtain ⟨hfound, hnames, -⟩ := hresolved
  rw [(numberOf_eq_some h).mpr hname] at hfound
  cases hfound
  exact hnames

end

end AgentTable

end Softmaple.Graph

/-!
Event IDs by local version (`graph/internals/event-id-run-index.ts`): a canonical run
holds the IDs `replicaId:startSequence` and on, a custom run one ID verbatim. The
newest run grows in place. Runs of one agent are kept by sequence as well.
-/
namespace Softmaple.Graph

open List

open Codec (JsNumber parseEventId formatEventId numberAdd)
open Tiling (firstAfter)

inductive EventIdIndexError where
  | invalidEventCount (count : JsNumber)
  | invalidEventId (run : Nat)
  | invalidIdRun (run : Nat)
  | invalidCustomLength (length : Nat)
  | exceedsEventCount (run : Nat)
  | exceedsSafeSequence (run : Nat)
  | coveredEventCount (covered count : Nat)
  | duplicateColumnarId (id : Text)
  | eventAlreadyExists (id : Text)
  | cannotTruncate (eventCount : Nat) (count : JsNumber)
  | unknownAgent (agent : Nat)
  deriving DecidableEq, Repr

structure PayloadIdRun where
  replicaId : Text
  startSequence : JsNumber
  startEventOffset : JsNumber
  length : JsNumber
  custom : Bool
  deriving DecidableEq, Repr

/-- No agent is `CUSTOM_AGENT`, and no sequence limit is `Number.POSITIVE_INFINITY`. -/
structure EventIdRun where
  replicaId : Text
  agent : Option Nat
  startSequence : Nat
  startEventOffset : Nat
  length : Nat
  custom : Bool
  sequenceLimit : Option Nat
  deriving DecidableEq, Repr

/-- A run is known by its place in `runs`: the lists by agent hold places. Custom runs
never change, so `parsedCustomRuns` holds the runs themselves. -/
structure EventIdRunIndex where
  agents : AgentTable
  runs : List EventIdRun
  runsByAgent : Nat → List Nat
  customOffsets : InsertionMap Text Nat
  parsedCustomRuns : List EventIdRun
  eventCount : Nat
  offsetRunHint : Nat

def belowLimit (sequence : Nat) : Option Nat → Bool
  | some limit => sequence < limit
  | none => true

def extendsRun (id : Text) (run : EventIdRun) : Bool :=
  !run.custom && belowLimit (numberAdd run.startSequence run.length) run.sequenceLimit &&
    numberAdd run.startSequence run.length ≤ maxSafeInteger &&
      id = formatEventId run.replicaId (numberAdd run.startSequence run.length)

def containsOffset (run : EventIdRun) (offset : Nat) : Bool :=
  run.startEventOffset ≤ offset && offset < run.startEventOffset + run.length

def firstRunAfter (runs : List EventIdRun) (sequence : Nat) : Nat :=
  match runs.getLast? with
  | some last =>
    if last.startSequence ≤ sequence then runs.length
    else firstAfter EventIdRun.startSequence runs sequence 0 runs.length
  | none => 0

def runUpTo (runs : List EventIdRun) (sequence : Nat) : Option EventIdRun :=
  match firstRunAfter runs sequence with
  | 0 => none
  | before + 1 => runs[before]?

def canonicalOffset (runs : List EventIdRun) (sequence : Nat) : Option Nat :=
  match runUpTo runs sequence with
  | some run =>
    if sequence < numberAdd run.startSequence run.length then
      some (run.startEventOffset + (sequence - run.startSequence))
    else none
  | none => none

def isSortedBySequence : List EventIdRun → Bool
  | previous :: run :: rest =>
    !(run.startSequence < previous.startSequence) && isSortedBySequence (run :: rest)
  | _ => true

/-- `splice(lastIndexOf(place), 1)`, which takes the last place off where none is equal. -/
def spliceLast (places : List Nat) (place : Nat) : List Nat :=
  if place ∈ places then (places.reverse.erase place).reverse else places.dropLast

namespace PayloadIdRun

def validate (run : PayloadIdRun) (runIndex expectedOffset : Nat) :
    Except EventIdIndexError (Nat × Nat) :=
  if run.replicaId = [] then .error (.invalidEventId runIndex)
  else
    match run.startSequence.safeNatural?, run.length.safeNatural? with
    | some startSequence, some length =>
      if length = 0 ∨ run.startEventOffset ≠ .ofInt expectedOffset then
        .error (.invalidIdRun runIndex)
      else if run.custom = true ∧ length ≠ 1 then .error (.invalidCustomLength length)
      else .ok (startSequence, length)
    | _, _ => .error (.invalidIdRun runIndex)

end PayloadIdRun

namespace EventIdRunIndex

def new (agents : AgentTable) : EventIdRunIndex := ⟨agents, [], fun _ => [], .empty, [], 0, 0⟩

def count (index : EventIdRunIndex) : Nat := index.eventCount

def agentRuns (index : EventIdRunIndex) (agent : Nat) : List EventIdRun :=
  (index.runsByAgent agent).filterMap (index.runs[·]?)

def setAgentRuns (index : EventIdRunIndex) (agent : Nat) (places : List Nat) : EventIdRunIndex :=
  { index with runsByAgent := fun other => if other = agent then places
    else index.runsByAgent other }

def pushCustomRun (index : EventIdRunIndex) (id : Text) (offset : Nat) : EventIdRunIndex :=
  match parseEventId id with
  | none =>
    { index with
      customOffsets := index.customOffsets.set id offset
      runs := index.runs ++ [⟨id, none, 0, offset, 1, true, some 0⟩] }
  | some (replicaId, sequence) =>
    let (agent, agents) := index.agents.internPrefix id replicaId.length
    let run : EventIdRun := ⟨id, some agent, sequence, offset, 1, true, some 0⟩
    { index with
      agents := agents
      customOffsets := index.customOffsets.set id offset
      runs := index.runs ++ [run]
      parsedCustomRuns := index.parsedCustomRuns ++ [run] }

def pushPayloadRun (index : EventIdRunIndex) (replicaId : Text)
    (startSequence eventOffset length : Nat) : EventIdRunIndex :=
  let (agent, agents) := index.agents.intern replicaId
  { index with
    agents := agents
    runs := index.runs ++ [⟨replicaId, some agent, startSequence, eventOffset, length, false, none⟩]
    runsByAgent := fun other => if other = agent then index.runsByAgent agent ++ [index.runs.length]
      else index.runsByAgent other }

def indexRuns (expectedCount : Nat) :
    List PayloadIdRun → Nat → Nat → EventIdRunIndex → Except EventIdIndexError (EventIdRunIndex × Nat)
  | [], _, eventOffset, index => .ok (index, eventOffset)
  | run :: rest, runIndex, eventOffset, index =>
    match run.validate runIndex eventOffset with
    | .error error => .error error
    | .ok (startSequence, length) =>
      if !isSafeInteger (numberAdd eventOffset length) ||
          expectedCount < numberAdd eventOffset length then
        .error (.exceedsEventCount runIndex)
      else if run.custom then
        if index.customOffsets.has run.replicaId then
          .error (.duplicateColumnarId run.replicaId)
        else
          indexRuns expectedCount rest (runIndex + 1) (numberAdd eventOffset length)
            (index.pushCustomRun run.replicaId eventOffset)
      else if !isSafeInteger (numberAdd startSequence length - 1) then
        .error (.exceedsSafeSequence runIndex)
      else
        indexRuns expectedCount rest (runIndex + 1) (numberAdd eventOffset length)
          (index.pushPayloadRun run.replicaId startSequence eventOffset length)

def sortedPlaces (index : EventIdRunIndex) (places : List Nat) : List Nat :=
  if isSortedBySequence (places.filterMap (index.runs[·]?)) then places
  else places.mergeSort fun left right =>
    (index.runs[left]?.map (·.startSequence)).getD 0 ≤
      (index.runs[right]?.map (·.startSequence)).getD 0

def limitRuns : List Nat → List EventIdRun → Except EventIdIndexError (List EventIdRun)
  | previousPlace :: place :: rest, runs =>
    match runs[previousPlace]?, runs[place]? with
    | some previous, some run =>
      if run.startSequence < numberAdd previous.startSequence previous.length then
        .error (.duplicateColumnarId (formatEventId run.replicaId run.startSequence))
      else
        limitRuns (place :: rest)
          (runs.set previousPlace { previous with sequenceLimit := some run.startSequence })
    | _, _ => .ok runs
  | _, runs => .ok runs

def sortAgent (index : EventIdRunIndex) (agent : Nat) : Except EventIdIndexError EventIdRunIndex :=
  if (index.runsByAgent agent).length < 2 then .ok index
  else
    let places := index.sortedPlaces (index.runsByAgent agent)
    match limitRuns places index.runs with
    | .error error => .error error
    | .ok runs => .ok { index.setAgentRuns agent places with runs := runs }

def sortAgents : List Nat → EventIdRunIndex → Except EventIdIndexError EventIdRunIndex
  | [], index => .ok index
  | agent :: rest, index =>
    match index.sortAgent agent with
    | .error error => .error error
    | .ok sorted => sortAgents rest sorted

def checkParsedCustom (index : EventIdRunIndex) :
    List EventIdRun → Except EventIdIndexError EventIdRunIndex
  | [] => .ok index
  | run :: rest =>
    if (run.agent.bind fun agent =>
        canonicalOffset (index.agentRuns agent) run.startSequence).isSome then
      .error (.duplicateColumnarId run.replicaId)
    else index.checkParsedCustom rest

def fromRuns (runs : List PayloadIdRun) (expectedCount : JsNumber) (agents : AgentTable) :
    Except EventIdIndexError EventIdRunIndex :=
  match expectedCount.safeNatural? with
  | none => .error (.invalidEventCount expectedCount)
  | some expected =>
    match indexRuns expected runs 0 0 (new agents) with
    | .error error => .error error
    | .ok (index, eventOffset) =>
      if eventOffset ≠ expected then .error (.coveredEventCount eventOffset expected)
      else
        match sortAgents (List.range index.agents.names.length)
          { index with eventCount := eventOffset } with
        | .error error => .error error
        | .ok sorted => sorted.checkParsedCustom sorted.parsedCustomRuns

def canonicalRun (index : EventIdRunIndex) (agent : Nat) (name : Text) (sequence : Nat) :
    EventIdRun where
  replicaId := name
  agent := some agent
  startSequence := sequence
  startEventOffset := index.eventCount
  length := 1
  custom := false
  sequenceLimit :=
    (index.agentRuns agent)[firstRunAfter (index.agentRuns agent) sequence]?.map (·.startSequence)

def addCanonicalRun (index : EventIdRunIndex) (agent : Nat) (name : Text) (sequence : Nat) :
    EventIdRunIndex :=
  { index.setAgentRuns agent ((index.runsByAgent agent).insertIdx
      (firstRunAfter (index.agentRuns agent) sequence) index.runs.length) with
    runs := index.runs ++ [index.canonicalRun agent name sequence]
    eventCount := numberAdd index.eventCount 1 }

def appendCanonicalRun (index : EventIdRunIndex) (agent sequence : Nat) (id : Option Text) :
    Except EventIdIndexError Unit × EventIdRunIndex :=
  let held := (runUpTo (index.agentRuns agent) sequence).any fun previous =>
    sequence < numberAdd previous.startSequence previous.length
  if held then
    match id, index.agents.nameOf agent with
    | some id, _ => (.error (.eventAlreadyExists id), index)
    | none, some name => (.error (.eventAlreadyExists (formatEventId name sequence)), index)
    | none, none => (.error (.unknownAgent agent), index)
  else
    match index.agents.nameOf agent with
    | none => (.error (.unknownAgent agent), index)
    | some name => (.ok (), index.addCanonicalRun agent name sequence)

def growLast (index : EventIdRunIndex) (last : EventIdRun) : EventIdRunIndex :=
  { index with
    runs := index.runs.dropLast ++ [{ last with length := numberAdd last.length 1 }]
    eventCount := numberAdd index.eventCount 1 }

/-- Index an ID at the next local version. -/
def append (index : EventIdRunIndex) (id : Text) :
    Except EventIdIndexError Nat × EventIdRunIndex :=
  match index.runs.getLast?.filter (extendsRun id) with
  | some last => (.ok index.eventCount, index.growLast last)
  | none =>
    match parseEventId id with
    | none =>
      if index.customOffsets.has id then (.error (.eventAlreadyExists id), index)
      else
        (.ok index.eventCount,
          { index.pushCustomRun id index.eventCount with eventCount := numberAdd index.eventCount 1 })
    | some (replicaId, sequence) =>
      let (agent, agents) := index.agents.internPrefix id replicaId.length
      match appendCanonicalRun { index with agents := agents } agent sequence (some id) with
      | (.ok _, added) => (.ok index.eventCount, added)
      | (.error error, refused) => (.error error, refused)

def continuesRun (agent sequence : Nat) (run : EventIdRun) : Bool :=
  !run.custom && run.agent = some agent && numberAdd run.startSequence run.length = sequence &&
    belowLimit sequence run.sequenceLimit

def appendCanonical (index : EventIdRunIndex) (agent sequence : Nat) :
    Except EventIdIndexError Nat × EventIdRunIndex :=
  match index.runs.getLast?.filter (continuesRun agent sequence) with
  | some last => (.ok index.eventCount, index.growLast last)
  | none =>
    match index.appendCanonicalRun agent sequence none with
    | (.ok _, added) => (.ok index.eventCount, added)
    | (.error error, refused) => (.error error, refused)

def truncateRuns (count : Nat) : Nat → EventIdRunIndex → Bool → EventIdRunIndex × Bool
  | 0, index, removed => (index, removed)
  | turns + 1, index, removed =>
    match index.runs.getLast? with
    | none => (index, removed)
    | some last =>
      if last.startEventOffset < count then
        ({ index with runs := index.runs.dropLast ++
          [{ last with length := min last.length (count - last.startEventOffset) }] }, removed)
      else if last.custom then
        truncateRuns count turns { index with
            runs := index.runs.dropLast
            customOffsets := index.customOffsets.erase last.replicaId }
          (removed || last.agent.isSome)
      else
        match last.agent with
        | none => (index, removed)
        | some agent =>
          truncateRuns count turns { index.setAgentRuns agent
                (spliceLast (index.runsByAgent agent) (index.runs.length - 1)) with
              runs := index.runs.dropLast }
            removed

/-- Drop every ID at or after a count. -/
def truncate (index : EventIdRunIndex) (count : JsNumber) :
    Except EventIdIndexError Unit × EventIdRunIndex :=
  match count.safeNatural? with
  | none => (.error (.cannotTruncate index.eventCount count), index)
  | some kept =>
    if index.eventCount < kept then (.error (.cannotTruncate index.eventCount count), index)
    else
      let (shortened, removedParsedCustom) :=
        truncateRuns kept index.runs.length index false
      (.ok (), { shortened with
        parsedCustomRuns :=
          if removedParsedCustom then
            shortened.parsedCustomRuns.filter (·.startEventOffset < kept)
          else shortened.parsedCustomRuns
        eventCount := kept
        offsetRunHint := 0 })

def localVersionOf (index : EventIdRunIndex) (id : Text) (limit : Nat) :
    Option Nat × EventIdRunIndex :=
  let custom := (index.customOffsets.get? id).filter (· < limit)
  match parseEventId id with
  | none => (custom, index)
  | some (replicaId, sequence) =>
    let (agent, agents) := index.agents.resolvePrefix id replicaId.length
    match agent.bind fun agent => canonicalOffset (index.agentRuns agent) sequence with
    | some offset => (if offset < limit then some offset else none, { index with agents := agents })
    | none => (custom, { index with agents := agents })

def localVersionOfCanonical (index : EventIdRunIndex) (agent sequence limit : Nat) : Option Nat :=
  (canonicalOffset (index.agentRuns agent) sequence).filter (· < limit)

def runBefore (index : EventIdRunIndex) (offset limit : Nat) :
    Option EventIdRun × EventIdRunIndex :=
  if isSafeInteger offset = false ∨ limit ≤ offset then (none, index)
  else if index.runs.length = index.eventCount then (index.runs[offset]?, index)
  else
    match index.runs[index.offsetRunHint]?.filter (containsOffset · offset) with
    | some hinted => (some hinted, index)
    | none =>
      match index.runs[index.offsetRunHint + 1]?.filter (containsOffset · offset) with
      | some next => (some next, { index with offsetRunHint := index.offsetRunHint + 1 })
      | none =>
        match Tiling.search EventIdRun.startEventOffset EventIdRun.length index.runs offset 0
          index.runs.length with
        | some (middle, run) => (some run, { index with offsetRunHint := middle })
        | none => (none, index)

/-- The ID at an offset below a limit. -/
def idAt (index : EventIdRunIndex) (offset limit : Nat) : Option Text × EventIdRunIndex :=
  match index.runBefore offset limit with
  | (none, looked) => (none, looked)
  | (some run, looked) =>
    (some (if run.custom then run.replicaId
      else formatEventId run.replicaId
        (numberAdd run.startSequence (offset - run.startEventOffset))), looked)

def maximumSequenceBefore (index : EventIdRunIndex) (replicaId : Text) (limit : Nat) :
    Option Nat :=
  let agent := index.agents.numberOf replicaId
  let agentRuns := agent.elim [] index.agentRuns
  let canonical := (agentRuns.reverse.find? (·.startEventOffset < limit)).map fun run =>
    numberAdd run.startSequence (min run.length (limit - run.startEventOffset)) - 1
  index.parsedCustomRuns.foldl (fun maximum run =>
    if (run.agent = agent ∧ run.startEventOffset < limit) ∧
        maximum.all (· < run.startSequence) then some run.startSequence
    else maximum) canonical

end EventIdRunIndex

/-- A fixed prefix of an index: the index answers for it up to its count. -/
structure EventIdRunIndexView where
  count : Nat
  deriving DecidableEq, Repr

def EventIdRunIndex.view (index : EventIdRunIndex) : EventIdRunIndexView := ⟨index.eventCount⟩

namespace EventIdRunIndexView

def has (view : EventIdRunIndexView) (index : EventIdRunIndex) (id : Text) : Bool :=
  (index.localVersionOf id view.count).1.isSome

def offsetOf (view : EventIdRunIndexView) (index : EventIdRunIndex) (id : Text) : Option Nat :=
  (index.localVersionOf id view.count).1

def idAt (view : EventIdRunIndexView) (index : EventIdRunIndex) (offset : Nat) : Option Text :=
  (index.idAt offset view.count).1

def maximumSequenceForReplica (view : EventIdRunIndexView) (index : EventIdRunIndex)
    (replicaId : Text) : Option Nat :=
  index.maximumSequenceBefore replicaId view.count

end EventIdRunIndexView

end Softmaple.Graph
