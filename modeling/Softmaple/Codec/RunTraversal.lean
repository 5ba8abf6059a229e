import Softmaple.Codec.Egw4Format
import Softmaple.Lib.ReadyTraversal
import Softmaple.Codec.GraphRuns

/-!
The order that graphs are encoded in (`getEncodingOrderOffsets` of
`graph/internals/packed-event-graph-base.ts`): a depth-first traversal of the
runs. Branches that start together go by their exclusive spans or longest paths
and then by event ID, but the one that continues the last event's ID run first.
-/
namespace Softmaple.Codec

open List

structure EventIdView where
  agentAt : Nat → Option Text
  sequenceAt : Nat → Nat
  idAt : Nat → Text

/-- `EventIdTieBreaker.compare`: -1, 0 or 1. -/
def EventIdView.compare (ids : EventIdView) (left right : Nat) : Int :=
  if left = right then 0
  else
    match ids.agentAt left, ids.agentAt right with
    | some leftAgent, some rightAgent =>
      if leftAgent ≠ rightAgent then if leftAgent < rightAgent then -1 else 1
      else if ids.sequenceAt left = ids.sequenceAt right then 0
      else if ids.sequenceAt left < ids.sequenceAt right then -1 else 1
    | some _, none => -1
    | none, some _ => 1
    | none, none =>
      if ids.idAt left = ids.idAt right then 0
      else if ids.idAt left < ids.idAt right then -1 else 1

def maxExclusiveBranchSpan : Nat := 1024

structure BranchMeasure where
  exclusiveSpan : Nat
  longestPath : Nat

def compareBranches (ids : EventIdView) (startOf measure : Nat → Nat) (left right : Nat) : Int :=
  let difference : Int := measure left - measure right
  if difference = 0 then ids.compare (startOf left) (startOf right) else difference

def sortBranchGroup (ids : EventIdView) (startOf : Nat → Nat) (measures : Nat → BranchMeasure)
    (group : List Nat) : List Nat :=
  let hasLongExclusiveBranch :=
    group.any fun branch => maxExclusiveBranchSpan < (measures branch).exclusiveSpan
  let measure := fun branch =>
    if hasLongExclusiveBranch then (measures branch).longestPath
    else (measures branch).exclusiveSpan
  group.mergeSort fun left right => compareBranches ids startOf measure left right ≤ 0

def moveIdRunContinuationFirst (ids : EventIdView) (startOf : Nat → Nat) (offset : Nat) :
    List Nat → List Nat
  | [] => []
  | first :: rest =>
    match ids.agentAt offset with
    | none => first :: rest
    | some agent =>
      match rest.find? fun branch => ids.agentAt (startOf branch) = some agent ∧
          ids.sequenceAt (startOf branch) = numberAdd (ids.sequenceAt offset) 1 with
      | none => first :: rest
      | some branch => branch :: first :: rest.erase branch

/-- The order of the branches that the event at `offset` makes ready. -/
def arrangeBranches (ids : EventIdView) (startOf : Nat → Nat) (measures : Nat → BranchMeasure)
    (offset : Nat) (group : List Nat) : List Nat :=
  if 1 < group.length then
    moveIdRunContinuationFirst ids startOf offset (sortBranchGroup ids startOf measures group)
  else group

namespace GraphRuns

variable (runs : GraphRuns)

/-- Whether the runs are one causal chain from a single root. -/
def isLinear : Bool := runs.count ≤ 1 && runs.parentRuns.flatten.isEmpty

def parentCountOf (run : Nat) : Nat := (runs.parentRuns.getD run []).length

def childrenOf (run : Nat) : List Nat := runs.childRuns.getD run []

def measureRun (measures : Nat → BranchMeasure) (run : Nat) : BranchMeasure :=
  let length := runs.endOf run - runs.startOf run
  let children := runs.childrenOf run
  { exclusiveSpan := length + ((children.filter fun child => runs.parentCountOf child = 1).map
      fun child => (measures child).exclusiveSpan).sum
    longestPath := length + (children.map fun child => (measures child).longestPath).foldl max 0 }

def measures : Nat → BranchMeasure :=
  (List.range runs.count).foldr
    (fun run measures => Function.update measures run (runs.measureRun measures run))
    fun _ => ⟨0, 0⟩

def roots (ids : EventIdView) : List Nat :=
  let roots := (List.range runs.count).filter fun run => runs.parentCountOf run = 0
  if 1 < roots.length then sortBranchGroup ids runs.startOf runs.measures roots else roots

def offsetsOf (run : Nat) : List Nat :=
  (List.range (runs.endOf run - runs.startOf run)).map (runs.startOf run + ·)

/-- `none` where the source finds a cycle. -/
def encodingOrderOffsets (ids : EventIdView) : Option (List Nat) :=
  if runs.isLinear then some (List.range runs.eventCount)
  else
    let order := (ReadyTraversal.visit runs.childrenOf
      (fun run => arrangeBranches ids runs.startOf runs.measures (runs.lastOf run)) runs.count
      (runs.roots ids) runs.parentCountOf).flatMap runs.offsetsOf
    if order.length = runs.eventCount then some order else none

end GraphRuns

end Softmaple.Codec

namespace Softmaple.Codec

open ReadyTraversal List

def childrenAt (eventCount : Nat) (parents : Nat → List Nat) (lv : Nat) : List Nat :=
  (List.range eventCount).filter fun child => lv ∈ parents child

structure EarlierParents (eventCount : Nat) (parents : Nat → List Nat) : Prop where
  lt : ∀ lv < eventCount, ∀ parent ∈ parents lv, parent < lv
  nodup : ∀ lv < eventCount, (parents lv).Nodup

namespace EarlierParents

variable {eventCount : Nat} {parents : Nat → List Nat}

theorem mem_childrenAt {lv child : Nat} :
    child ∈ childrenAt eventCount parents lv ↔ child < eventCount ∧ lv ∈ parents child := by
  rw [childrenAt, mem_filter, mem_range, decide_eq_true_eq]

theorem nodup_childrenAt (lv : Nat) : (childrenAt eventCount parents lv).Nodup :=
  nodup_range.filter _

theorem graph (h : EarlierParents eventCount parents) :
    Graph (List.range eventCount) parents (childrenAt eventCount parents) where
  nodup := nodup_range
  parents_mem lv hlv parent hparent := by
    rw [mem_range] at hlv ⊢
    exact Nat.lt_trans (h.lt lv hlv parent hparent) hlv
  parents_nodup lv hlv := h.nodup lv (mem_range.mp hlv)
  children_nodup lv _ := nodup_childrenAt lv
  mem_children lv _ child := by rw [mem_childrenAt, mem_range]
  acyclic := ⟨id, fun lv hlv => h.lt lv (mem_range.mp hlv)⟩

end EarlierParents

structure RunsHold (runs : GraphRuns) (parents : Nat → List Nat) : Prop where
  startOf_zero : 0 < runs.count → runs.startOf 0 = 0
  startOf_lt : ∀ run < runs.count, runs.startOf run < runs.endOf run
  endOf_next : ∀ run, run + 1 < runs.count → runs.endOf run = runs.startOf (run + 1)
  endOf_last : ∀ run, run + 1 = runs.count → runs.endOf run = runs.eventCount
  count_pos : 0 < runs.eventCount → 0 < runs.count
  parentRuns_lt : ∀ run < runs.count, ∀ parent ∈ runs.parentRuns.getD run [], parent < runs.count
  parents_start : ∀ run < runs.count,
    parents (runs.startOf run) = (runs.parentRuns.getD run []).map runs.lastOf
  parents_inside : ∀ run < runs.count, ∀ lv, runs.startOf run < lv → lv < runs.endOf run →
    parents lv = [lv - 1]
  child_inside : ∀ run < runs.count, ∀ lv, runs.startOf run ≤ lv → lv + 1 < runs.endOf run →
    ∀ child < runs.eventCount, lv ∈ parents child → child = lv + 1
  childrenOf_eq : ∀ run < runs.count, runs.childrenOf run =
    (List.range runs.count).filter fun child => run ∈ runs.parentRuns.getD child []

section Build

variable {eventCount : Nat} {explicit : List (Nat × List Nat)}

theorem flatMap_eq_filter {values : List Nat} {f : Nat → List Nat} {keep : Nat → Bool}
    (h : ∀ value ∈ values, f value = if keep value then [value] else []) :
    values.flatMap f = values.filter keep := by
  induction values with
  | nil => rfl
  | cons value rest ih =>
    obtain ⟨hvalue, hrest⟩ := forall_mem_cons.mp h
    rw [flatMap_cons, ih hrest, hvalue, filter_cons]
    cases keep value with
    | true => rfl
    | false => rfl

theorem zipIdx_eq_map_range (values : List (List Nat)) :
    values.zipIdx = (List.range values.length).map fun index => (values.getD index [], index) := by
  apply ext_getElem
  · rw [length_zipIdx, length_map, length_range]
  · intro index hleft hright
    rw [length_zipIdx] at hleft
    rw [getElem_zipIdx, getElem_map, getElem_range, Nat.zero_add,
      getD_eq_getElem _ _ hleft]

theorem reverseEdges_getD {parentRuns : List (List Nat)} (hnodup : ∀ parents ∈ parentRuns,
    parents.Nodup) {run : Nat} (hrun : run < parentRuns.length) :
    (GraphRuns.reverseEdges parentRuns).getD run [] =
      (List.range parentRuns.length).filter fun child => run ∈ parentRuns.getD child [] := by
  rw [GraphRuns.reverseEdges, getD_eq_getElem?_getD, getElem?_map,
    getElem?_range hrun, Option.map_some, Option.getD_some, zipIdx_eq_map_range,
    flatMap_map]
  apply flatMap_eq_filter
  intro child hchild
  rw [mem_range] at hchild
  have hparents : (parentRuns.getD child []).Nodup := by
    rw [getD_eq_getElem _ _ hchild]
    exact hnodup _ (getElem_mem hchild)
  simp only
  by_cases hmem : run ∈ parentRuns.getD child []
  · have hone : (parentRuns.getD child []).filter (fun parent => decide (parent = run)) = [run] := by
      have hcount := count_eq_one_of_mem hparents hmem
      rw [← replicate_one, ← hcount, ← filter_beq]
      rfl
    rw [hone, if_pos (decide_eq_true hmem)]
    rfl
  · have hnone : (parentRuns.getD child []).filter (fun parent => decide (parent = run)) = [] := by
      rw [filter_eq_nil_iff]
      intro parent hparent heq
      rw [of_decide_eq_true heq] at hparent
      exact hmem hparent
    rw [hnone, if_neg (by simpa using hmem)]
    rfl

open GraphRuns ExplicitParents

theorem ExplicitParents.not_mem_runStarts (hpos : 0 < eventCount) {run start lv : Nat}
    (hget : (runStarts eventCount explicit)[run]? = some start) (hlt : start < lv)
    (hend : lv < (fromExplicitParents eventCount explicit).endOf run) :
    lv ∉ runStarts eventCount explicit := by
  intro hmem
  obtain ⟨index, hindex⟩ := mem_iff_getElem?.mp hmem
  by_cases hlater : run < index
  · have hle := endOf_le_start hpos hindex hlater
    omega
  · obtain ⟨hrun, hstart⟩ := List.getElem?_eq_some_iff.mp hget
    obtain ⟨hlength, hlv⟩ := List.getElem?_eq_some_iff.mp hindex
    by_cases hsame : index = run
    · simp only [hsame] at hlv
      omega
    · have hless := pairwise_iff_getElem.mp (runStarts_sorted eventCount explicit) index run
        hlength hrun (by omega)
      omega

theorem ExplicitParents.mem_runStarts_of_child {lv child : Nat}
    (hchild : lv ∈ explicitParents explicit child) (hne : child ≠ lv + 1)
    (hlt : lv + 1 < eventCount) : lv + 1 ∈ runStarts eventCount explicit := by
  rw [explicitParents] at hchild
  cases hlookup : explicit.lookup child with
  | none =>
    rw [hlookup] at hchild
    simp only at hchild
    split at hchild
    · rw [mem_singleton] at hchild
      omega
    · cases hchild
  | some parents =>
    rw [hlookup] at hchild
    apply mem_runStarts.mpr
    apply Or.inr
    exact mem_runCandidates.mpr ⟨child, parents, mem_of_lookup hlookup,
      .inr ⟨lv, hchild, Ne.symm hne, hlt, rfl⟩⟩

theorem ExplicitParents.runsHold (h : ExplicitParents eventCount explicit)
    (hnodup : ∀ lv < eventCount, (explicitParents explicit lv).Nodup) :
    RunsHold (fromExplicitParents eventCount explicit) (explicitParents explicit) := by
  by_cases hzero : eventCount = 0
  · have hruns : fromExplicitParents eventCount explicit = ⟨0, [], [], []⟩ := by
      rw [fromExplicitParents, if_pos hzero]
      rfl
    rw [hruns]
    constructor <;> simp [GraphRuns.count]
  have hpos : 0 < eventCount := by omega
  have hfields : (fromExplicitParents eventCount explicit).starts = _ ∧ _ := fields hpos
  obtain ⟨hstarts, -, hchildren, hevents⟩ := hfields
  have hsorted := runStarts_sorted eventCount explicit
  have hcount : (fromExplicitParents eventCount explicit).count =
      (runStarts eventCount explicit).length := congrArg List.length hstarts
  have hget : ∀ run < (fromExplicitParents eventCount explicit).count,
      (runStarts eventCount explicit)[run]? =
        some ((fromExplicitParents eventCount explicit).startOf run) := by
    intro run hrun
    rw [hcount] at hrun
    rw [startOf, hstarts, getD_eq_getElem _ _ hrun, getElem?_eq_getElem hrun]
  have hparentRuns : ∀ run < (fromExplicitParents eventCount explicit).count,
      (fromExplicitParents eventCount explicit).parentRuns.getD run [] =
        ownParents (runStarts eventCount explicit) explicit run
          ((fromExplicitParents eventCount explicit).startOf run) := by
    intro run hrun
    rw [getD_eq_getElem?_getD, h.parentRuns_getElem? hpos, hget run hrun]
    rfl
  have hparentLength : (fromExplicitParents eventCount explicit).parentRuns.length =
      (fromExplicitParents eventCount explicit).count := by
    rw [h.length_parentRuns hpos, hcount]
  have hstart : ∀ run < (fromExplicitParents eventCount explicit).count,
      explicitParents explicit ((fromExplicitParents eventCount explicit).startOf run) =
        ((fromExplicitParents eventCount explicit).parentRuns.getD run []).map
          (fromExplicitParents eventCount explicit).lastOf := by
    intro run hrun
    rw [hparentRuns run hrun]
    exact h.explicitParents_start (hget run hrun)
  have hparentNodup : ∀ parents ∈ (fromExplicitParents eventCount explicit).parentRuns,
      parents.Nodup := by
    intro parents hmem
    obtain ⟨run, hrun, heq⟩ := mem_iff_getElem.mp hmem
    rw [hparentLength] at hrun
    have hparents := hnodup _ (h.starts_lt hpos _ (mem_of_getElem? (hget run hrun)))
    rw [hstart run hrun, getD_eq_getElem _ _ (by omega), heq] at hparents
    exact List.Nodup.of_map _ hparents
  refine ⟨?_, ?_, ?_, ?_, ?_, ?_, hstart, ?_, ?_, ?_⟩
  · intro hcountPos
    have hfirst := hget 0 hcountPos
    rw [runStarts_first] at hfirst
    exact (Option.some.inj hfirst).symm
  · intro run hrun
    exact h.start_lt_endOf hpos (hget run hrun)
  · intro run hrun
    rw [endOf_eq hpos, startOf, hstarts, hevents]
  · intro run hrun
    rw [endOf_eq hpos, getD_eq_default _ _ (by omega), hevents]
  · intro _
    rw [hcount]
    exact (List.getElem?_eq_some_iff.mp (runStarts_first eventCount explicit)).1
  · intro run hrun parent hparent
    rw [hparentRuns run hrun] at hparent
    rw [hcount]
    exact mem_ownParents_lt (hget run hrun) hparent
  · intro run hrun lv hlt hend
    exact (explicitParents_inside (not_mem_runStarts hpos (hget run hrun) hlt hend)).2
  · intro run hrun lv hle hend child _ hparent
    by_contra hne
    have hevent : (fromExplicitParents eventCount explicit).endOf run ≤ eventCount := by
      rw [endOf_eq hpos]
      by_cases hnext : run + 1 < (runStarts eventCount explicit).length
      · rw [getD_eq_getElem _ _ hnext]
        exact Nat.le_of_lt (h.starts_lt hpos _ (getElem_mem hnext))
      · rw [getD_eq_default _ _ (by omega)]
    apply not_mem_runStarts hpos (hget run hrun) (Nat.lt_succ_of_le hle) hend
    exact mem_runStarts_of_child hparent hne (by omega)
  · intro run hrun
    rw [childrenOf, hchildren, reverseEdges_getD hparentNodup (by omega), hparentLength]

end Build

namespace RunsHold

variable {runs : GraphRuns} {parents : Nat → List Nat}

section Bounds

variable (h : RunsHold runs parents)

include h

theorem range_flatMap {count : Nat} (hcount : count < runs.count) :
    (List.range (count + 1)).flatMap runs.offsetsOf = List.range (runs.endOf count) := by
  have hone : ∀ run < runs.count, List.range (runs.startOf run) ++ runs.offsetsOf run =
      List.range (runs.endOf run) := by
    intro run hrun
    have hlt := h.startOf_lt run hrun
    rw [GraphRuns.offsetsOf, ← range_add, Nat.add_sub_cancel' (Nat.le_of_lt hlt)]
  induction count with
  | zero =>
    have hzero := hone 0 hcount
    rw [h.startOf_zero hcount, range_zero, nil_append] at hzero
    rw [Nat.zero_add, range_one, flatMap_singleton, hzero]
  | succ count ih =>
    rw [range_succ, flatMap_append, ih (by omega), flatMap_singleton,
      h.endOf_next count hcount]
    exact hone (count + 1) hcount

theorem offsets_eq : (List.range runs.count).flatMap runs.offsetsOf =
    List.range runs.eventCount := by
  cases hcount : runs.count with
  | zero =>
    have hempty : runs.eventCount = 0 := by
      by_contra hne
      have hpos := h.count_pos (Nat.pos_of_ne_zero hne)
      omega
    rw [hempty]
    rfl
  | succ count => rw [h.range_flatMap (by omega), h.endOf_last count hcount.symm]

variable {run : Nat}

section

variable (hrun : run < runs.count)
include hrun

theorem mem_offsetsOf {lv : Nat} :
    lv ∈ runs.offsetsOf run ↔ runs.startOf run ≤ lv ∧ lv < runs.endOf run := by
  have hlt := h.startOf_lt run hrun
  rw [GraphRuns.offsetsOf, mem_map]
  constructor
  · intro hex
    obtain ⟨offset, hoffset, heq⟩ := hex
    rw [mem_range] at hoffset
    omega
  · intro hbounds
    exact ⟨lv - runs.startOf run, mem_range.mpr (by omega), by omega⟩

omit hrun in
theorem exists_run {lv : Nat} (hlv : lv < runs.eventCount) :
    ∃ run < runs.count, runs.startOf run ≤ lv ∧ lv < runs.endOf run := by
  have hmem := mem_range.mpr hlv
  rw [← h.offsets_eq, mem_flatMap] at hmem
  obtain ⟨run, hrun, hoffset⟩ := hmem
  rw [mem_range] at hrun
  exact ⟨run, hrun, (h.mem_offsetsOf hrun).mp hoffset⟩

omit hrun in
theorem endOf_le {other : Nat} (hlt : run < other) (hother : other < runs.count) :
    runs.endOf run ≤ runs.startOf other := by
  induction other with
  | zero => omega
  | succ other ih =>
    by_cases hsame : run = other
    · rw [hsame, h.endOf_next other hother]
    · have hbefore := ih (by omega) (by omega)
      have hstart := h.startOf_lt other (by omega)
      have hnext := h.endOf_next other hother
      omega

theorem endOf_le_eventCount : runs.endOf run ≤ runs.eventCount := by
  by_cases hlast : run + 1 = runs.count
  · rw [h.endOf_last run hlast]
  · have hnext : runs.endOf run ≤ runs.startOf (runs.count - 1) :=
      h.endOf_le (by omega) (by omega)
    have hstart := h.startOf_lt (runs.count - 1) (by omega)
    have hend := h.endOf_last (runs.count - 1) (by omega)
    omega

theorem run_unique {other lv : Nat} (hother : other < runs.count)
    (hin : runs.startOf run ≤ lv ∧ lv < runs.endOf run)
    (hotherIn : runs.startOf other ≤ lv ∧ lv < runs.endOf other) : run = other := by
  by_contra hne
  cases Nat.lt_or_gt_of_ne hne with
  | inl hlt =>
    have hle := h.endOf_le hlt hother
    omega
  | inr hlt =>
    have hle := h.endOf_le hlt hrun
    omega

theorem lastOf_mem : runs.startOf run ≤ runs.lastOf run ∧ runs.lastOf run < runs.endOf run := by
  have hlt := h.startOf_lt run hrun
  rw [GraphRuns.lastOf]
  omega

theorem lastOf_injective {other : Nat} (hother : other < runs.count)
    (heq : runs.lastOf run = runs.lastOf other) : run = other := by
  apply h.run_unique hrun hother (h.lastOf_mem hrun)
  rw [heq]
  exact h.lastOf_mem hother

theorem startOf_injective {other : Nat}
    (hother : other < runs.count) (heq : runs.startOf run = runs.startOf other) : run = other := by
  apply h.run_unique hrun hother ⟨Nat.le_refl _, h.startOf_lt run hrun⟩
  rw [heq]
  exact ⟨Nat.le_refl _, h.startOf_lt other hother⟩

theorem childrenAt_last : childrenAt runs.eventCount parents (runs.lastOf run) =
      (runs.childrenOf run).map runs.startOf := by
  rw [h.childrenOf_eq run hrun]
  apply List.Pairwise.eq_of_mem_iff (r := (· < ·))
  · exact pairwise_lt_range.filter _
  · rw [pairwise_map]
    apply (pairwise_lt_range.filter _).imp_of_mem
    intro first second hfirst hsecond hlt
    have hsecondLt := mem_range.mp (mem_of_mem_filter hsecond)
    have hle := h.endOf_le hlt hsecondLt
    have hstart := h.startOf_lt first (by omega)
    omega
  · intro child
    rw [EarlierParents.mem_childrenAt, mem_map]
    constructor
    · intro hboth
      obtain ⟨hchild, hparent⟩ := hboth
      obtain ⟨own, hown, hin⟩ := h.exists_run hchild
      by_cases hfirst : runs.startOf own = child
      · refine ⟨own, ?_, hfirst⟩
        rw [mem_filter, mem_range, decide_eq_true_eq]
        refine ⟨hown, ?_⟩
        rw [← hfirst, h.parents_start own hown, mem_map] at hparent
        obtain ⟨parent, hmem, heq⟩ := hparent
        rwa [← h.lastOf_injective (h.parentRuns_lt own hown parent hmem) hrun heq]
      · rw [h.parents_inside own hown child (by omega) hin.2, mem_singleton] at hparent
        have hlast := h.lastOf_mem hrun
        have hsame : run = own := by
          apply h.run_unique hrun hown hlast
          rw [hparent]
          omega
        rw [GraphRuns.lastOf, hsame] at hparent
        omega
    · intro hex
      obtain ⟨own, hmem, heq⟩ := hex
      rw [mem_filter, mem_range, decide_eq_true_eq] at hmem
      have hstart := h.startOf_lt own hmem.1
      have hend := h.endOf_le_eventCount hmem.1
      rw [← heq, h.parents_start own hmem.1]
      exact ⟨by omega, mem_map_of_mem hmem.2⟩

theorem childrenAt_inside {lv : Nat} (hle : runs.startOf run ≤ lv) (hlt : lv + 1 < runs.endOf run) :
    childrenAt runs.eventCount parents lv = [lv + 1] := by
  have hend := h.endOf_le_eventCount hrun
  apply List.Pairwise.eq_of_mem_iff (r := (· < ·))
  · exact pairwise_lt_range.filter _
  · exact pairwise_singleton _ _
  · intro child
    rw [EarlierParents.mem_childrenAt, mem_singleton]
    constructor
    · exact fun hboth => h.child_inside run hrun lv hle hlt child hboth.1 hboth.2
    · intro heq
      rw [heq, h.parents_inside run hrun (lv + 1) (by omega) hlt]
      exact ⟨by omega, mem_singleton_self _⟩

omit hrun in
theorem parentRun_lt {parent : Nat} (hearlier : EarlierParents runs.eventCount parents)
    (hrun : run < runs.count) (hparent : parent ∈ runs.parentRuns.getD run []) : parent < run := by
  have hparentLt := h.parentRuns_lt run hrun parent hparent
  have hstart := h.startOf_lt run hrun
  have hend := h.endOf_le_eventCount hrun
  have hmem : runs.lastOf parent ∈ parents (runs.startOf run) := by
    rw [h.parents_start run hrun]
    exact mem_map_of_mem hparent
  have hlt := hearlier.lt _ (by omega) _ hmem
  have hlast := h.lastOf_mem hparentLt
  by_contra hge
  by_cases hsame : parent = run
  · rw [hsame] at hlast hlt
    omega
  · have hle := h.endOf_le (Nat.lt_of_le_of_ne (Nat.not_lt.mp hge) (Ne.symm hsame)) hparentLt
    omega

theorem mem_childrenOf {child : Nat} :
    child ∈ runs.childrenOf run ↔ child < runs.count ∧ run ∈ runs.parentRuns.getD child [] := by
  rw [h.childrenOf_eq run hrun, mem_filter, mem_range, decide_eq_true_eq]

theorem nodup_childrenOf : (runs.childrenOf run).Nodup := by
  rw [h.childrenOf_eq run hrun]
  exact nodup_range.filter _

theorem parentCountOf_eq : runs.parentCountOf run = (parents (runs.startOf run)).length := by
  rw [h.parents_start run hrun, length_map, GraphRuns.parentCountOf]

end

theorem graph (hearlier : EarlierParents runs.eventCount parents) :
    Graph (List.range runs.count) (runs.parentRuns.getD · []) runs.childrenOf where
  nodup := nodup_range
  parents_mem run hrun parent hparent := by
    rw [mem_range] at hrun ⊢
    exact h.parentRuns_lt run hrun parent hparent
  parents_nodup run hrun := by
    rw [mem_range] at hrun
    have hstart := h.startOf_lt run hrun
    have hend := h.endOf_le_eventCount hrun
    have hnodup := hearlier.nodup (runs.startOf run) (by omega)
    rw [h.parents_start run hrun] at hnodup
    exact List.Nodup.of_map _ hnodup
  children_nodup run hrun := h.nodup_childrenOf (mem_range.mp hrun)
  mem_children run hrun child := by
    rw [h.mem_childrenOf (mem_range.mp hrun), mem_range]
  acyclic := ⟨id, fun run hrun _ hparent =>
    h.parentRun_lt hearlier (mem_range.mp hrun) hparent⟩

end Bounds

end RunsHold

section Arrange

variable {ids : EventIdView} {startOf : Nat → Nat} {measures : Nat → BranchMeasure}

theorem sortBranchGroup_perm (group : List Nat) :
    (sortBranchGroup ids startOf measures group).Perm group :=
  mergeSort_perm group _

theorem moveIdRunContinuationFirst_perm (offset : Nat) (group : List Nat) :
    (moveIdRunContinuationFirst ids startOf offset group).Perm group := by
  cases group with
  | nil => exact List.Perm.refl []
  | cons first rest =>
    rw [moveIdRunContinuationFirst]
    cases ids.agentAt offset with
    | none => exact List.Perm.refl _
    | some agent =>
      simp only
      split
      · exact List.Perm.refl _
      · next branch hfind =>
          have hmem := mem_of_find?_eq_some hfind
          apply (List.Perm.swap first branch _).trans
          exact (perm_cons_erase hmem).symm.cons first

theorem arrangeBranches_perm (offset : Nat) (group : List Nat) :
    (arrangeBranches ids startOf measures offset group).Perm group := by
  rw [arrangeBranches]
  split
  · exact (moveIdRunContinuationFirst_perm offset _).trans (sortBranchGroup_perm group)
  · exact List.Perm.refl group

theorem arrangeBranches_single (offset branch : Nat) :
    arrangeBranches ids startOf measures offset [branch] = [branch] := if_neg (by simp)

theorem sortBranchGroup_map {eventMeasures : Nat → BranchMeasure} {group : List Nat}
    (hmeasures : ∀ branch ∈ group, eventMeasures (startOf branch) = measures branch) :
    sortBranchGroup ids id eventMeasures (group.map startOf) =
      (sortBranchGroup ids startOf measures group).map startOf := by
  have hany : (group.map startOf).any (fun branch =>
      decide (maxExclusiveBranchSpan < (eventMeasures branch).exclusiveSpan)) =
      group.any fun branch => decide (maxExclusiveBranchSpan < (measures branch).exclusiveSpan) := by
    rw [any_map, Bool.eq_iff_iff, any_eq_true, any_eq_true]
    apply exists_congr
    intro branch
    apply and_congr_right
    intro hmem
    rw [Function.comp_apply, hmeasures branch hmem]
  rw [sortBranchGroup, sortBranchGroup, hany, map_mergeSort]
  intro left hleft right hright
  simp only [compareBranches, hmeasures left hleft, hmeasures right hright, id]

theorem erase_map {f : Nat → Nat} {value : Nat} {values : List Nat}
    (hinj : ∀ other ∈ values, f other = f value → other = value) :
    (values.map f).erase (f value) = (values.erase value).map f := by
  induction values with
  | nil => rfl
  | cons first rest ih =>
    obtain ⟨hfirst, hrest⟩ := forall_mem_cons.mp hinj
    rw [map_cons, erase_cons, erase_cons]
    by_cases hsame : first = value
    · simp [hsame]
    · have hne : f first ≠ f value := fun heq => hsame (hfirst heq)
      simp [hsame, hne, ih hrest]

theorem moveIdRunContinuationFirst_map (offset : Nat) {group : List Nat}
    (hinj : ∀ branch ∈ group, ∀ other ∈ group, startOf branch = startOf other → branch = other) :
    moveIdRunContinuationFirst ids id offset (group.map startOf) =
      (moveIdRunContinuationFirst ids startOf offset group).map startOf := by
  cases group with
  | nil => rfl
  | cons first rest =>
    rw [map_cons, moveIdRunContinuationFirst, moveIdRunContinuationFirst]
    cases ids.agentAt offset with
    | none => rfl
    | some agent =>
      simp only [find?_map, id]
      rw [show ((fun branch => decide (ids.agentAt branch = some agent ∧
        ids.sequenceAt branch = numberAdd (ids.sequenceAt offset) 1)) ∘ startOf) =
        fun branch => decide (ids.agentAt (startOf branch) = some agent ∧
        ids.sequenceAt (startOf branch) = numberAdd (ids.sequenceAt offset) 1) from rfl]
      cases hfind : rest.find? fun branch => decide (ids.agentAt (startOf branch) = some agent ∧
          ids.sequenceAt (startOf branch) = numberAdd (ids.sequenceAt offset) 1) with
      | none => rfl
      | some branch =>
        have hmem := mem_of_find?_eq_some hfind
        simp only [Option.map_some, map_cons]
        congr 2
        apply erase_map
        intro other hother heq
        exact hinj other (mem_cons_of_mem _ hother) branch (mem_cons_of_mem _ hmem) heq

theorem arrangeBranches_map (offset : Nat) {eventMeasures : Nat → BranchMeasure} {group : List Nat}
    (hmeasures : ∀ branch ∈ group, eventMeasures (startOf branch) = measures branch)
    (hinj : ∀ branch ∈ group, ∀ other ∈ group, startOf branch = startOf other → branch = other) :
    arrangeBranches ids id eventMeasures offset (group.map startOf) =
      (arrangeBranches ids startOf measures offset group).map startOf := by
  rw [arrangeBranches, arrangeBranches, length_map, sortBranchGroup_map hmeasures]
  split
  · apply moveIdRunContinuationFirst_map
    intro branch hbranch other hother
    exact hinj branch ((sortBranchGroup_perm group).mem_iff.mp hbranch) other
      ((sortBranchGroup_perm group).mem_iff.mp hother)
  · rfl

end Arrange

end Softmaple.Codec
