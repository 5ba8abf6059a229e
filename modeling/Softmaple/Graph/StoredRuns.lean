import Mathlib.Algebra.Group.Nat.Defs
import Softmaple.Codec.GraphRuns
import Softmaple.Lib.CompressedRows

/-!
The run graph with its columns (`graph/internals/graph-runs.ts`): the starts of the runs
with the event count behind them, the edges between runs as compressed rows of parents and
of children, and the run of the previous lookup. The walk over the listed events is the one
that finds the runs as lists; here its results are stored in 32-bit columns.
-/
namespace Softmaple.Graph

open CompressedRows List

/-- What an entry of a `Uint32Array` keeps of a number. -/
def toUint32 (value : Nat) : Nat := value % 2 ^ 32

structure GraphRuns where
  count : Nat
  eventCount : Nat
  /-- The first local version of each run, then the event count. -/
  starts : List Nat
  parentStarts : List Nat
  parentRuns : List Nat
  childStarts : List Nat
  childRuns : List Nat
  /-- Run of the previous lookup. -/
  hint : Nat
  deriving DecidableEq, Repr

namespace GraphRuns

def linear (eventCount : Nat) : GraphRuns :=
  if eventCount = 0 then ⟨0, 0, [0], [0], [], [0], [], 0⟩
  else ⟨1, eventCount, [0, toUint32 eventCount], [0, 0], [], [0, 0], [], 0⟩

/-- The listed events, each with its row of parents. -/
def listed (explicit parentStarts parents : List Nat) : List (Nat × List Nat) :=
  explicit.zipIdx.map fun (lv, index) => (lv, row parentStarts parents index)

def reverseEdges (runCount : Nat) (parentStarts parentRuns childCounts : List Nat) :
    List Nat × List Nat :=
  let childStarts := addUp 0 childCounts
  let edges := (List.range runCount).flatMap fun run =>
    (row parentStarts parentRuns run).map fun parent => (parent, run)
  (childStarts, place (childStarts.take runCount) (List.replicate parentRuns.length 0) edges)

def fromExplicitParents (eventCount : Nat) (explicit parentStarts parents : List Nat) :
    GraphRuns :=
  if eventCount = 0 then linear 0
  else
    let events := listed explicit parentStarts parents
    let candidates := (0 :: Codec.GraphRuns.runCandidates eventCount events).map toUint32
    let sorted := Codec.GraphRuns.dropRepeats candidates.mergeSort
    let runCount := sorted.length
    let rows := Codec.GraphRuns.firstParents sorted 0 sorted events
    let parentRuns := rows.flatten
    let children := reverseEdges runCount (rowStarts 0 rows) parentRuns
      (countKeys runCount parentRuns)
    ⟨runCount, eventCount, sorted ++ [toUint32 eventCount], rowStarts 0 rows, parentRuns,
      children.1, children.2, 0⟩

/-- `starts[index] <= lv`, which is false past the end. -/
def startsBy (starts : List Nat) (index lv : Nat) : Bool :=
  starts[index]?.any fun start => start ≤ lv

/-- `lv < starts[index]`, which is false past the end. -/
def startsAfter (starts : List Nat) (index lv : Nat) : Bool :=
  starts[index]?.any fun start => lv < start

def runContaining (starts : List Nat) (runCount lv : Nat) : Nat :=
  Codec.runContainingLoop starts lv runCount 0 (runCount - 1)

variable (runs : GraphRuns)

def startOf (run : Nat) : Nat := runs.starts.getD run 0

def endOf (run : Nat) : Nat := runs.starts.getD (run + 1) 0

def lastOf (run : Nat) : Int := runs.starts.getD (run + 1) 0 - 1

def withHint (run : Nat) : GraphRuns := { runs with hint := run }

/-- Run holding a local version: near the previous lookup's, or searched. -/
def runOf (lv : Nat) : Nat × GraphRuns :=
  let searched := runContaining runs.starts runs.count lv
  if startsBy runs.starts runs.hint lv ∧ startsAfter runs.starts (runs.hint + 1) lv then
    (runs.hint, runs)
  else if startsBy runs.starts (runs.hint + 1) lv then
    if runs.hint + 1 < runs.count ∧ startsAfter runs.starts (runs.hint + 2) lv then
      (runs.hint + 1, runs.withHint (runs.hint + 1))
    else (searched, runs.withHint searched)
  else if 0 < runs.hint ∧ startsBy runs.starts (runs.hint - 1) lv then
    (runs.hint - 1, runs.withHint (runs.hint - 1))
  else (searched, runs.withHint searched)

def parentCountOf (run : Nat) : Nat :=
  runs.parentStarts.getD (run + 1) 0 - runs.parentStarts.getD run 0

def parentRunAt (run parentIndex : Nat) : Nat :=
  runs.parentRuns.getD (runs.parentStarts.getD run 0 + parentIndex) 0

def childCountOf (run : Nat) : Nat :=
  runs.childStarts.getD (run + 1) 0 - runs.childStarts.getD run 0

def childRunAt (run childIndex : Nat) : Nat :=
  runs.childRuns.getD (runs.childStarts.getD run 0 + childIndex) 0

/-- Number of parents of the event at `lv`. -/
def parentCountAt (lv : Nat) : Nat × GraphRuns :=
  let found := runs.runOf lv
  (if lv = runs.startOf found.1 then runs.parentCountOf found.1 else 1, found.2)

/-- A parent of the event at `lv`, or `-1` when it has no such parent. -/
def parentAt (lv parentIndex : Nat) : Int × GraphRuns :=
  let found := runs.runOf lv
  (if lv ≠ runs.startOf found.1 then if parentIndex = 0 then (lv : Int) - 1 else -1
    else if parentIndex < runs.parentCountOf found.1 then
      runs.lastOf (runs.parentRunAt found.1 parentIndex)
    else -1,
    found.2)

/-- Number of children of the event at `lv`. -/
def childCountAt (lv : Nat) : Nat × GraphRuns :=
  let found := runs.runOf lv
  (if (lv : Int) = runs.lastOf found.1 then runs.childCountOf found.1 else 1, found.2)

/-- A child of the event at `lv`, or `-1` when it has no such child. -/
def childAt (lv childIndex : Nat) : Int × GraphRuns :=
  let found := runs.runOf lv
  (if (lv : Int) ≠ runs.lastOf found.1 then if childIndex = 0 then (lv : Int) + 1 else -1
    else if childIndex < runs.childCountOf found.1 then
      (runs.startOf (runs.childRunAt found.1 childIndex) : Int)
    else -1,
    found.2)

/-- Whether the event at `lv` has exactly the parent `parent`. -/
def hasSingleParent (lv : Nat) (parent : Int) : Bool × GraphRuns :=
  let found := runs.runOf lv
  (if lv ≠ runs.startOf found.1 then decide (parent = (lv : Int) - 1)
    else decide (runs.parentCountOf found.1 = 1) &&
      decide (runs.lastOf (runs.parentRunAt found.1 0) = parent),
    found.2)

end GraphRuns

inductive Lookup
  | runOf (lv : Nat)
  | parentCountAt (lv : Nat)
  | parentAt (lv parentIndex : Nat)
  | childCountAt (lv : Nat)
  | childAt (lv childIndex : Nat)
  | hasSingleParent (lv : Nat) (parent : Int)

def Lookup.lv : Lookup → Nat
  | .runOf lv | .parentCountAt lv | .parentAt lv _ => lv
  | .childCountAt lv | .childAt lv _ | .hasSingleParent lv _ => lv

inductive Answer
  | number (value : Int)
  | flag (value : Bool)
  deriving DecidableEq, Repr

namespace GraphRuns

def answer (runs : GraphRuns) : Lookup → Answer × GraphRuns
  | .runOf lv => ((.number (runs.runOf lv).1), (runs.runOf lv).2)
  | .parentCountAt lv => ((.number (runs.parentCountAt lv).1), (runs.parentCountAt lv).2)
  | .parentAt lv index => ((.number (runs.parentAt lv index).1), (runs.parentAt lv index).2)
  | .childCountAt lv => ((.number (runs.childCountAt lv).1), (runs.childCountAt lv).2)
  | .childAt lv index => ((.number (runs.childAt lv index).1), (runs.childAt lv index).2)
  | .hasSingleParent lv parent =>
    ((.flag (runs.hasSingleParent lv parent).1), (runs.hasSingleParent lv parent).2)

def answers (runs : GraphRuns) : List Lookup → List Answer
  | [] => []
  | lookup :: rest => (runs.answer lookup).1 :: (runs.answer lookup).2.answers rest

end GraphRuns

end Softmaple.Graph

namespace Softmaple.Graph.GraphRuns

open CompressedRows List
open Codec (ExplicitParents explicitParents Contains)
open Codec.GraphRuns (runStarts runCandidates firstParents dropRepeats ownParents)

structure Stores (runs : GraphRuns) (lists : Codec.GraphRuns) : Prop where
  count : runs.count = lists.starts.length
  starts : runs.starts = lists.starts ++ [lists.eventCount]
  parentCountOf : ∀ (run : Nat) (values : List Nat),
    lists.parentRuns[run]? = some values → runs.parentCountOf run = values.length
  parentRunAt : ∀ (run : Nat) (values : List Nat), lists.parentRuns[run]? = some values →
    ∀ (index value : Nat), values[index]? = some value → runs.parentRunAt run index = value
  childCountOf : ∀ (run : Nat) (values : List Nat),
    lists.childRuns[run]? = some values → runs.childCountOf run = values.length
  childRunAt : ∀ (run : Nat) (values : List Nat), lists.childRuns[run]? = some values →
    ∀ (index value : Nat), values[index]? = some value → runs.childRunAt run index = value

theorem Stores.withHint {runs : GraphRuns} {lists : Codec.GraphRuns} (h : Stores runs lists)
    (hint : Nat) : Stores (runs.withHint hint) lists :=
  ⟨h.count, h.starts, h.parentCountOf, h.parentRunAt, h.childCountOf, h.childRunAt⟩

theorem toUint32_of_lt {value : Nat} (h : value < 2 ^ 32) : toUint32 value = value :=
  Nat.mod_eq_of_lt h

theorem map_toUint32 {values : List Nat} (h : ∀ value ∈ values, value < 2 ^ 32) :
    values.map toUint32 = values := by
  rw [map_congr_left fun value hvalue => toUint32_of_lt (h value hvalue), map_id']

theorem row_read {starts values entries : List Nat} {run index value : Nat}
    (hrow : row starts values run = entries) (hindex : entries[index]? = some value) :
    values.getD (starts.getD run 0 + index) 0 = value := by
  have hlt := (List.getElem?_eq_some_iff.mp hindex).1
  rw [← hrow, row, length_take] at hlt
  rw [← hrow, row_getElem? _ _ (by omega)] at hindex
  rw [getD_eq_getElem?_getD, hindex, Option.getD_some]

section

variable {eventCount : Nat} {explicit : List (Nat × List Nat)}

theorem candidates_lt (h : ExplicitParents eventCount explicit) (hpos : 0 < eventCount) :
    ∀ value ∈ 0 :: runCandidates eventCount explicit, value < eventCount := by
  intro value hvalue
  apply h.starts_lt hpos
  rw [Codec.GraphRuns.mem_runStarts]
  exact mem_cons.mp hvalue

theorem parentRuns_lt (h : ExplicitParents eventCount explicit) (hpos : 0 < eventCount) {run : Nat}
    {values : List Nat}
    (hget : (Codec.GraphRuns.fromExplicitParents eventCount explicit).parentRuns[run]? =
      some values) :
    ∀ value ∈ values, value < (runStarts eventCount explicit).length := by
  rw [h.parentRuns_getElem? hpos] at hget
  obtain ⟨start, hstart, rfl⟩ := Option.map_eq_some_iff.mp hget
  intro value hvalue
  exact ExplicitParents.mem_ownParents_lt hstart hvalue

end

/-- The edges that `reverseEdges` walks, from the rows of parents. -/
def edgesOf (rows : List (List Nat)) : List (Nat × Nat) :=
  rows.zipIdx.flatMap fun (parents, run) => parents.map fun parent => (parent, run)

theorem range_rows (rows : List (List Nat)) :
    ((List.range rows.length).flatMap fun run =>
      (row (rowStarts 0 rows) rows.flatten run).map fun parent => (parent, run)) = edgesOf rows := by
  have hzip : rows.zipIdx =
      (List.range rows.length).map fun run => (row (rowStarts 0 rows) rows.flatten run, run) := by
    apply ext_getElem?
    intro run
    rw [getElem?_zipIdx, getElem?_map]
    by_cases hrun : run < rows.length
    · rw [getElem?_range hrun, getElem?_eq_getElem hrun]
      simp [row_rowStarts (getElem?_eq_getElem hrun)]
    · rw [getElem?_eq_none (l := rows) (by omega), getElem?_eq_none]
      · rfl
      · rw [length_range]
        omega
  rw [edgesOf, hzip, flatMap_map]

theorem edgesOf_keys (rows : List (List Nat)) : (edgesOf rows).map Prod.fst = rows.flatten := by
  rw [edgesOf, map_flatMap]
  simp only [map_map, Function.comp_def, map_id']
  rw [flatMap_def]
  congr 1
  apply ext_getElem?
  intro run
  rw [getElem?_map, getElem?_zipIdx]
  cases rows[run]? with
  | none => rfl
  | some values => rfl

theorem itemsOf_edgesOf (rows : List (List Nat)) (parent : Nat) :
    itemsOf parent (edgesOf rows) = rows.zipIdx.flatMap fun (parents, run) =>
      (parents.filter (· = parent)).map fun _ => run := by
  rw [itemsOf, edgesOf, filter_flatMap, map_flatMap]
  congr 1
  funext entry
  obtain ⟨parents, run⟩ := entry
  simp [filter_map, Function.comp_def]

theorem linear_stores : Stores (linear 0) (Codec.GraphRuns.linear 0) := by
  constructor <;> simp [linear, Codec.GraphRuns.linear]

/-- The columns built hold the runs found, as long as local versions fit them. -/
theorem fromExplicitParents_stores {eventCount : Nat} {explicit parentStarts parents : List Nat}
    (h : ExplicitParents eventCount (listed explicit parentStarts parents))
    (hcount : eventCount < 2 ^ 32) :
    Stores (fromExplicitParents eventCount explicit parentStarts parents)
      (Codec.GraphRuns.fromExplicitParents eventCount (listed explicit parentStarts parents)) := by
  by_cases hzero : eventCount = 0
  · rw [fromExplicitParents, if_pos hzero, Codec.GraphRuns.fromExplicitParents, if_pos hzero]
    exact linear_stores
  obtain ⟨events, hevents⟩ : ∃ events, listed explicit parentStarts parents = events := ⟨_, rfl⟩
  obtain ⟨rows, hrows⟩ : ∃ rows,
    firstParents (runStarts eventCount events) 0 (runStarts eventCount events) events = rows :=
      ⟨_, rfl⟩
  have hpos : 0 < eventCount := by omega
  rw [hevents] at h ⊢
  have hfields := @ExplicitParents.fields _ events hpos
  rw [hrows] at hfields
  obtain ⟨hstarts, hparents, hchildren, heventCount⟩ := hfields
  have hlength := h.length_parentRuns hpos
  rw [hparents] at hlength
  have hmap : (0 :: runCandidates eventCount events).map toUint32 =
      0 :: runCandidates eventCount events := by
    apply map_toUint32
    intro value hvalue
    have hlt := candidates_lt h hpos value hvalue
    omega
  have hruns : fromExplicitParents eventCount explicit parentStarts parents =
      ⟨rows.length, eventCount, runStarts eventCount events ++ [eventCount], rowStarts 0 rows,
        rows.flatten,
        (reverseEdges rows.length (rowStarts 0 rows) rows.flatten
          (countKeys rows.length rows.flatten)).1,
        (reverseEdges rows.length (rowStarts 0 rows) rows.flatten
          (countKeys rows.length rows.flatten)).2, 0⟩ := by
    rw [fromExplicitParents, if_neg hzero]
    dsimp only
    rw [hevents, hmap, toUint32_of_lt hcount]
    have hsorted : dropRepeats (0 :: runCandidates eventCount events).mergeSort =
      runStarts eventCount events := rfl
    rw [hsorted, hrows, hlength]
  have hkeys : ∀ edge ∈ edgesOf rows, edge.1 < rows.length := by
    intro edge hedge
    obtain ⟨⟨values, run⟩, hzip, hmem⟩ := mem_flatMap.mp hedge
    obtain ⟨parent, hparent, rfl⟩ := mem_map.mp hmem
    rw [hlength]
    apply @parentRuns_lt _ _ h hpos run _ _ parent hparent
    rw [hparents]
    exact mem_zipIdx_iff_getElem?.mp hzip
  have hreverse : ∀ (run : Nat) (values : List Nat),
      (Codec.GraphRuns.fromExplicitParents eventCount events).childRuns[run]? = some values →
        row (reverseEdges rows.length (rowStarts 0 rows) rows.flatten
            (countKeys rows.length rows.flatten)).1
          (reverseEdges rows.length (rowStarts 0 rows) rows.flatten
            (countKeys rows.length rows.flatten)).2 run = values ∧
        (addUp 0 (countKeys rows.length rows.flatten)).getD (run + 1) 0 ≤ rows.flatten.length := by
    intro run values hget
    rw [hchildren, hparents, Codec.GraphRuns.reverseEdges, getElem?_map] at hget
    obtain ⟨index, hindex, hvalues⟩ := Option.map_eq_some_iff.mp hget
    obtain ⟨hrun, heq⟩ := List.getElem?_eq_some_iff.mp hindex
    rw [length_range] at hrun
    rw [getElem_range] at heq
    subst heq
    constructor
    · rw [← hvalues, ← itemsOf_edgesOf, reverseEdges, range_rows, ← edgesOf_keys rows]
      apply row_place _ hkeys _ hrun
      rw [length_replicate, length_map]
    · rw [← edgesOf_keys rows, addUp_countKeys_getD _ (by omega), length_map]
      exact below_le_length _ _
  rw [hruns]
  refine ⟨?_, ?_, ?_, ?_, ?_, ?_⟩
  · rw [hstarts, hlength]
  · rw [hstarts, heventCount]
  · intro run values hget
    rw [hparents] at hget
    have hrun := (List.getElem?_eq_some_iff.mp hget).1
    have hle := (rowStarts_getD_le rows 0 run hrun).2
    rw [parentCountOf, ← row_rowStarts hget, length_row (by omega)]
  · intro run values hget index value hindex
    rw [hparents] at hget
    exact row_read (row_rowStarts hget) hindex
  · intro run values hget
    obtain ⟨hrow, hle⟩ := hreverse run values hget
    rw [childCountOf, ← hrow, length_row]
    · rw [reverseEdges, length_place, length_replicate]
      exact hle
  · intro run values hget index value hindex
    exact row_read (hreverse run values hget).1 hindex

end Softmaple.Graph.GraphRuns
