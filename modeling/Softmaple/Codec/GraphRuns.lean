import Mathlib.Data.List.GetD
import Mathlib.Data.List.Sort
import Mathlib.Tactic.Cases

/-!
A graph as runs of consecutive local versions (`graph/internals/graph-runs.ts`).
Every event after a run's first has the event before as its only parent, and
that parent has no other child; so runs lead from last events to first ones.
The compressed arrays of the source are lists of lists here.
-/
namespace Softmaple.Codec

structure GraphRuns where
  eventCount : Nat
  /-- The first local version of each run. -/
  starts : List Nat
  /-- The parents of each run's first event, as run indexes. -/
  parentRuns : List (List Nat)
  /-- The children of each run's last event, as run indexes. -/
  childRuns : List (List Nat)
  deriving DecidableEq, Repr

/-- Binary search for the last start at or below `lv`. -/
def runContainingLoop (starts : List Nat) (lv : Nat) : Nat → Nat → Nat → Nat
  | 0, low, _ => low
  | fuel + 1, low, high =>
    if low < high then
      let middle := (low + high + 1) / 2
      if starts.getD middle 0 ≤ lv then runContainingLoop starts lv fuel middle high
      else runContainingLoop starts lv fuel low (middle - 1)
    else low

def runContaining (starts : List Nat) (lv : Nat) : Nat :=
  runContainingLoop starts lv starts.length 0 (starts.length - 1)

namespace GraphRuns

/-- One causal chain of `eventCount` events, or no run for no event. -/
def linear (eventCount : Nat) : GraphRuns :=
  if eventCount = 0 then ⟨0, [], [], []⟩ else ⟨eventCount, [0], [[]], [[]]⟩

def runCandidates (eventCount : Nat) : List (Nat × List Nat) → List Nat
  | [] => []
  | (lv, parents) :: rest =>
    (if 0 < lv ∧ parents ≠ [lv - 1] then [lv] else []) ++
      (parents.filter fun parent => parent + 1 ≠ lv ∧ parent + 1 < eventCount).map (· + 1) ++
      runCandidates eventCount rest

def dropRepeats : List Nat → List Nat
  | first :: second :: rest =>
    if first = second then dropRepeats (second :: rest)
    else first :: dropRepeats (second :: rest)
  | values => values

def runStarts (eventCount : Nat) (explicit : List (Nat × List Nat)) : List Nat :=
  dropRepeats ((0 :: runCandidates eventCount explicit).mergeSort)

def firstParents (starts : List Nat) : Nat → List Nat → List (Nat × List Nat) → List (List Nat)
  | _, [], _ => []
  | run, lv :: rest, explicit =>
    let explicit := explicit.dropWhile fun entry => entry.1 < lv
    (match explicit.head? with
      | some (own, parents) =>
        if own = lv then parents.map (runContaining starts)
        else if 0 < lv then [run - 1] else []
      | none => if 0 < lv then [run - 1] else []) ::
      firstParents starts (run + 1) rest explicit

def reverseEdges (parentRuns : List (List Nat)) : List (List Nat) :=
  (List.range parentRuns.length).map fun parent =>
    parentRuns.zipIdx.flatMap fun (parents, run) =>
      (parents.filter (· = parent)).map fun _ => run

/-- The runs of a graph whose listed events have the parents listed, and every
other event its predecessor. -/
def fromExplicitParents (eventCount : Nat) (explicit : List (Nat × List Nat)) : GraphRuns :=
  if eventCount = 0 then linear 0
  else
    let starts := runStarts eventCount explicit
    let parentRuns := firstParents starts 0 starts explicit
    ⟨eventCount, starts, parentRuns, reverseEdges parentRuns⟩

def count (runs : GraphRuns) : Nat := runs.starts.length

def startOf (runs : GraphRuns) (run : Nat) : Nat := runs.starts.getD run runs.eventCount

def endOf (runs : GraphRuns) (run : Nat) : Nat := runs.starts.getD (run + 1) runs.eventCount

def lastOf (runs : GraphRuns) (run : Nat) : Nat := runs.endOf run - 1

/-- The run holding a local version; the source keeps a hint. -/
def runOf (runs : GraphRuns) (lv : Nat) : Nat := runContaining runs.starts lv

def childCountOf (runs : GraphRuns) (run : Nat) : Nat := (runs.childRuns.getD run []).length

def parentsAt (runs : GraphRuns) (lv : Nat) : List Nat :=
  let run := runs.runOf lv
  if lv = runs.startOf run then (runs.parentRuns.getD run []).map runs.lastOf else [lv - 1]

end GraphRuns

/-- `run` is the last of the starts at or below `lv`. -/
structure Contains (starts : List Nat) (lv run : Nat) : Prop where
  lt : run < starts.length
  start_le : starts.getD run 0 ≤ lv
  next : ∀ later, run < later → later < starts.length → lv < starts.getD later 0

theorem runContainingLoop_spec {starts : List Nat} {lv fuel low high : Nat}
    (hsorted : starts.Pairwise (· < ·)) (hfuel : high - low ≤ fuel) (hle : low ≤ high)
    (hhigh : high < starts.length) (hlow : starts.getD low 0 ≤ lv)
    (hnext : ∀ later, high < later → later < starts.length → lv < starts.getD later 0) :
    Contains starts lv (runContainingLoop starts lv fuel low high) := by
  induction fuel generalizing low high with
  | zero =>
    have heq : low = high := by omega
    rw [runContainingLoop]
    exact ⟨by omega, hlow, by rwa [heq]⟩
  | succ fuel ih =>
    rw [runContainingLoop]
    by_cases hlt : low < high
    · rw [if_pos hlt]
      by_cases hmiddle : starts.getD ((low + high + 1) / 2) 0 ≤ lv
      · rw [if_pos hmiddle]
        exact ih (by omega) (by omega) hhigh hmiddle hnext
      · rw [if_neg hmiddle]
        apply ih (by omega) (by omega) (by omega) hlow
        intro later hlater hlength
        by_cases hmid : later = (low + high + 1) / 2
        · rw [hmid]
          omega
        · have hindex := List.pairwise_iff_getElem.mp hsorted ((low + high + 1) / 2) later
            (by omega) hlength (by omega)
          rw [List.getD_eq_getElem _ _ (by omega)] at hmiddle
          rw [List.getD_eq_getElem _ _ hlength]
          omega
    · rw [if_neg hlt]
      have heq : low = high := by omega
      exact ⟨by omega, hlow, by rwa [heq]⟩

theorem runContaining_spec {starts : List Nat} {lv : Nat} (hsorted : starts.Pairwise (· < ·))
    (hfirst : starts[0]? = some 0) : Contains starts lv (runContaining starts lv) := by
  obtain ⟨hlength, hzero⟩ := List.getElem?_eq_some_iff.mp hfirst
  apply runContainingLoop_spec hsorted
  · omega
  · omega
  · omega
  · rw [List.getD_eq_getElem _ _ hlength, hzero]
    exact Nat.zero_le lv
  · intro later hlater hlt
    omega

theorem Contains.unique {starts : List Nat} {lv run other : Nat} (h : Contains starts lv run)
    (hother : Contains starts lv other) : run = other := by
  by_contra hne
  cases Nat.lt_or_gt_of_ne hne with
  | inl hlt =>
    have hnext := h.next other hlt hother.lt
    have hstart := hother.start_le
    omega
  | inr hlt =>
    have hnext := hother.next run hlt h.lt
    have hstart := h.start_le
    omega

namespace GraphRuns

theorem mem_dropRepeats {values : List Nat} {value : Nat} :
    value ∈ dropRepeats values ↔ value ∈ values := by
  induction values with
  | nil => rfl
  | cons first rest ih =>
    cases rest with
    | nil => rfl
    | cons second rest =>
      rw [dropRepeats]
      by_cases heq : first = second
      · rw [if_pos heq, ih, heq]
        simp
      · rw [if_neg heq, List.mem_cons, ih, List.mem_cons (a := value) (b := first)]

theorem dropRepeats_sorted {values : List Nat} (h : values.Pairwise (· ≤ ·)) :
    (dropRepeats values).Pairwise (· < ·) := by
  induction values with
  | nil => exact List.Pairwise.nil
  | cons first rest ih =>
    cases rest with
    | nil => exact List.pairwise_singleton _ _
    | cons second rest =>
      obtain ⟨hfirst, hrest⟩ := List.pairwise_cons.mp h
      obtain ⟨hsecond, -⟩ := List.pairwise_cons.mp hrest
      rw [dropRepeats]
      by_cases heq : first = second
      · rw [if_pos heq]
        exact ih hrest
      · rw [if_neg heq]
        apply List.pairwise_cons.mpr
        refine ⟨?_, ih hrest⟩
        intro value hvalue
        have hle := hfirst second List.mem_cons_self
        cases List.mem_cons.mp (mem_dropRepeats.mp hvalue) with
        | inl hsame => omega
        | inr hmem =>
          have hlarger := hsecond value hmem
          omega

variable {explicit : List (Nat × List Nat)}

theorem mem_runCandidates {eventCount value : Nat} :
    value ∈ runCandidates eventCount explicit ↔ ∃ lv parents, (lv, parents) ∈ explicit ∧
      ((value = lv ∧ 0 < lv ∧ parents ≠ [lv - 1]) ∨
        ∃ parent ∈ parents, parent + 1 ≠ lv ∧ parent + 1 < eventCount ∧ value = parent + 1) := by
  induction explicit with
  | nil => simp [runCandidates]
  | cons entry rest ih =>
    obtain ⟨lv, parents⟩ := entry
    have hhead : value ∈ (if 0 < lv ∧ parents ≠ [lv - 1] then [lv] else []) ↔
        value = lv ∧ 0 < lv ∧ parents ≠ [lv - 1] := by
      split
      · next h => simp [h]
      · next h => simp [h]
    have hparents : value ∈ (parents.filter fun parent =>
          parent + 1 ≠ lv ∧ parent + 1 < eventCount).map (· + 1) ↔
        ∃ parent ∈ parents, parent + 1 ≠ lv ∧ parent + 1 < eventCount ∧ value = parent + 1 := by
      simp only [List.mem_map, List.mem_filter, decide_eq_true_eq]
      constructor
      · intro h
        obtain ⟨parent, ⟨hmem, hne, hlt⟩, heq⟩ := h
        exact ⟨parent, hmem, hne, hlt, heq.symm⟩
      · intro h
        obtain ⟨parent, hmem, hne, hlt, heq⟩ := h
        exact ⟨parent, ⟨hmem, hne, hlt⟩, heq.symm⟩
    rw [runCandidates, List.mem_append, List.mem_append, hhead, hparents, ih]
    constructor
    · intro h
      cases h with
      | inl hown => exact ⟨lv, parents, List.mem_cons_self, hown⟩
      | inr hrest =>
        obtain ⟨other, otherParents, hmem, hcases⟩ := hrest
        exact ⟨other, otherParents, List.mem_cons_of_mem _ hmem, hcases⟩
    · intro h
      obtain ⟨other, otherParents, hmem, hcases⟩ := h
      cases List.mem_cons.mp hmem with
      | inl heq =>
        cases heq
        exact .inl hcases
      | inr hrest => exact .inr ⟨other, otherParents, hrest, hcases⟩

theorem runStarts_sorted (eventCount : Nat) (explicit : List (Nat × List Nat)) :
    (runStarts eventCount explicit).Pairwise (· < ·) := by
  apply dropRepeats_sorted
  have hsorted : ((0 :: runCandidates eventCount explicit).mergeSort
      fun a b => decide (a ≤ b)).Pairwise fun a b => decide (a ≤ b) = true := by
    apply List.pairwise_mergeSort
    · simp only [decide_eq_true_eq]
      omega
    · simp only [Bool.or_eq_true, decide_eq_true_eq]
      omega
  simpa using hsorted

theorem mem_runStarts {eventCount value : Nat} : value ∈ runStarts eventCount explicit ↔
      value = 0 ∨ value ∈ runCandidates eventCount explicit := by
  rw [runStarts, mem_dropRepeats, List.mem_mergeSort, List.mem_cons]

theorem runStarts_first (eventCount : Nat) (explicit : List (Nat × List Nat)) :
    (runStarts eventCount explicit)[0]? = some 0 := by
  have hmem : 0 ∈ runStarts eventCount explicit := mem_runStarts.mpr (.inl rfl)
  have hsorted := runStarts_sorted eventCount explicit
  cases hstarts : runStarts eventCount explicit with
  | nil =>
    rw [hstarts] at hmem
    cases hmem
  | cons first rest =>
    rw [hstarts] at hmem hsorted
    obtain ⟨hfirst, -⟩ := List.pairwise_cons.mp hsorted
    cases List.mem_cons.mp hmem with
    | inl heq => rw [← heq]; rfl
    | inr hlater =>
      have hlt := hfirst 0 hlater
      omega

def ownParents (starts : List Nat) (explicit : List (Nat × List Nat)) (run lv : Nat) : List Nat :=
  match explicit.lookup lv with
  | some parents => parents.map (runContaining starts)
  | none => if 0 < lv then [run - 1] else []

theorem lookup_dropWhile {lv later : Nat} (h : lv ≤ later) :
    (explicit.dropWhile fun entry => entry.1 < lv).lookup later = explicit.lookup later := by
  induction explicit with
  | nil => rfl
  | cons entry rest ih =>
    obtain ⟨own, parents⟩ := entry
    rw [List.dropWhile_cons]
    by_cases hlt : own < lv
    · rw [if_pos (by simpa using hlt), ih, List.lookup_cons]
      rw [show (later == own) = false from beq_false_of_ne (by omega)]
    · rw [if_neg (by simpa using hlt)]

theorem lookup_head {lv : Nat} (hascending : explicit.Pairwise fun entry other => entry.1 < other.1)
    (hall : ∀ entry ∈ explicit.head?, lv ≤ entry.1) :
    explicit.lookup lv = match explicit.head? with
      | some (own, parents) => if own = lv then some parents else none
      | none => none := by
  cases explicit with
  | nil => rfl
  | cons entry rest =>
    obtain ⟨own, parents⟩ := entry
    obtain ⟨hfirst, -⟩ := List.pairwise_cons.mp hascending
    have hle : lv ≤ own := hall (own, parents) rfl
    rw [List.lookup_cons, List.head?_cons]
    by_cases heq : own = lv
    · rw [heq, beq_self_eq_true]
      simp
    · rw [show (lv == own) = false from beq_false_of_ne (Ne.symm heq)]
      simp only [if_neg heq]
      apply List.lookup_eq_none_iff.mpr
      intro other hother
      have hlt := hfirst other hother
      simp only at hlt
      exact bne_iff_ne.mpr (by omega)

theorem firstParents_getElem? {starts rest : List Nat}
    (hascending : explicit.Pairwise fun entry other => entry.1 < other.1)
    (hsorted : rest.Pairwise (· < ·)) (run k : Nat) :
    (firstParents starts run rest explicit)[k]? =
      rest[k]?.map (ownParents starts explicit (run + k)) := by
  induction rest generalizing run explicit k with
  | nil => rfl
  | cons lv rest ih =>
    obtain ⟨hfirst, hrest⟩ := List.pairwise_cons.mp hsorted
    have hdropped : (explicit.dropWhile fun entry => entry.1 < lv).Pairwise
        fun entry other => entry.1 < other.1 :=
      hascending.sublist (List.dropWhile_sublist _)
    have hhead : ∀ entry ∈ (explicit.dropWhile fun entry => decide (entry.1 < lv)).head?,
        lv ≤ entry.1 := by
      intro entry hentry
      have hnot := List.head?_dropWhile_not (fun entry : Nat × List Nat => decide (entry.1 < lv))
        explicit
      rw [Option.mem_def.mp hentry] at hnot
      simpa using hnot
    rw [firstParents]
    cases k with
    | zero =>
      simp only [List.getElem?_cons_zero, Option.map_some, Nat.add_zero]
      rw [ownParents, ← lookup_dropWhile (Nat.le_refl lv), lookup_head hdropped hhead]
      cases (explicit.dropWhile fun entry => decide (entry.1 < lv)).head? with
      | none => rfl
      | some entry =>
        obtain ⟨own, parents⟩ := entry
        by_cases heq : own = lv
        · simp [heq]
        · simp [heq]
    | succ k =>
      simp only [List.getElem?_cons_succ]
      rw [ih hdropped hrest, Nat.add_right_comm, Nat.add_assoc]
      cases hget : rest[k]? with
      | none => rfl
      | some later =>
        have hlt := hfirst later (List.mem_of_getElem? hget)
        rw [Option.map_some, Option.map_some, ownParents, ownParents,
          lookup_dropWhile (by omega)]

end GraphRuns

/-- Parents listed for some events in ascending order, each before its event. -/
structure ExplicitParents (eventCount : Nat) (explicit : List (Nat × List Nat)) : Prop where
  ascending : explicit.Pairwise fun entry other => entry.1 < other.1
  lt : ∀ lv parents, (lv, parents) ∈ explicit → lv < eventCount
  earlier : ∀ lv parents, (lv, parents) ∈ explicit → ∀ parent ∈ parents, parent < lv

/-- The parents of a local version: those listed, or its predecessor. -/
def explicitParents (explicit : List (Nat × List Nat)) (lv : Nat) : List Nat :=
  match explicit.lookup lv with
  | some parents => parents
  | none => if 0 < lv then [lv - 1] else []

theorem mem_of_lookup {explicit : List (Nat × List Nat)} {lv : Nat} {parents : List Nat}
    (h : explicit.lookup lv = some parents) : (lv, parents) ∈ explicit := by
  induction explicit with
  | nil => cases h
  | cons entry rest ih =>
    obtain ⟨own, ownParents⟩ := entry
    rw [List.lookup_cons] at h
    by_cases heq : lv = own
    · rw [heq, beq_self_eq_true] at h
      rw [heq, ← Option.some.inj h]
      exact List.mem_cons_self
    · rw [show (lv == own) = false from beq_false_of_ne heq] at h
      exact List.mem_cons_of_mem _ (ih h)

namespace ExplicitParents

open GraphRuns

variable {eventCount : Nat} {explicit : List (Nat × List Nat)}

section

variable (h : ExplicitParents eventCount explicit)
include h

section

variable (hpos : 0 < eventCount)
include hpos

theorem starts_lt : ∀ start ∈ runStarts eventCount explicit, start < eventCount := by
  intro start hstart
  cases mem_runStarts.mp hstart with
  | inl hzero => omega
  | inr hcandidate =>
    obtain ⟨lv, parents, hmem, hcases⟩ := mem_runCandidates.mp hcandidate
    cases hcases with
    | inl hown =>
      have hlt := h.lt lv parents hmem
      omega
    | inr hparent =>
      obtain ⟨parent, -, -, hlt, heq⟩ := hparent
      omega

omit hpos in
theorem lastOf_runContaining {lv : Nat} (hlv : lv < eventCount)
    (hend : lv + 1 ∈ runStarts eventCount explicit ∨ lv + 1 = eventCount) :
    (fromExplicitParents eventCount explicit).lastOf
      (runContaining (runStarts eventCount explicit) lv) = lv := by
  have hsorted := runStarts_sorted eventCount explicit
  have hcontains : Contains (runStarts eventCount explicit) lv _ :=
    runContaining_spec hsorted (runStarts_first eventCount explicit)
  have hall := h.starts_lt (by omega)
  obtain ⟨run, hrun⟩ : ∃ run, runContaining (runStarts eventCount explicit) lv = run := ⟨_, rfl⟩
  rw [hrun] at hcontains ⊢
  have hfields : (fromExplicitParents eventCount explicit).lastOf run =
      (runStarts eventCount explicit).getD (run + 1) eventCount - 1 := by
    rw [lastOf, endOf, fromExplicitParents, if_neg (by omega)]
  rw [hfields]
  -- a start after `lv` comes after its run
  have hafter : ∀ index start, (runStarts eventCount explicit)[index]? = some start →
      lv < start → run < index := by
    intro index start hget hlt
    obtain ⟨hindex, hstart⟩ := List.getElem?_eq_some_iff.mp hget
    have hle := hcontains.start_le
    rw [List.getD_eq_getElem _ _ hcontains.lt] at hle
    by_contra hnot
    by_cases heq : index = run
    · simp only [heq] at hstart
      omega
    · have hless := List.pairwise_iff_getElem.mp hsorted index run hindex hcontains.lt (by omega)
      omega
  by_cases hnext : run + 1 < (runStarts eventCount explicit).length
  · have hgreater := hcontains.next (run + 1) (by omega) hnext
    rw [List.getD_eq_getElem _ _ hnext] at hgreater ⊢
    have hbelow := hall _ (List.getElem_mem hnext)
    cases hend with
    | inr heq => omega
    | inl hmem =>
      obtain ⟨index, hget⟩ := List.mem_iff_getElem?.mp hmem
      have hlater := hafter index (lv + 1) hget (by omega)
      obtain ⟨hindex, hstart⟩ := List.getElem?_eq_some_iff.mp hget
      by_cases heq : index = run + 1
      · simp only [heq] at hstart
        omega
      · have hless := List.pairwise_iff_getElem.mp hsorted (run + 1) index hnext hindex (by omega)
        omega
  · rw [List.getD_eq_default _ _ (by omega)]
    cases hend with
    | inr heq => omega
    | inl hmem =>
      obtain ⟨index, hget⟩ := List.mem_iff_getElem?.mp hmem
      have hlater := hafter index (lv + 1) hget (by omega)
      have hindex := (List.getElem?_eq_some_iff.mp hget).1
      omega

omit h in
theorem fields : (fromExplicitParents eventCount explicit).starts = runStarts eventCount explicit ∧
      (fromExplicitParents eventCount explicit).parentRuns =
        firstParents (runStarts eventCount explicit) 0 (runStarts eventCount explicit) explicit ∧
      (fromExplicitParents eventCount explicit).childRuns =
        reverseEdges (fromExplicitParents eventCount explicit).parentRuns ∧
      (fromExplicitParents eventCount explicit).eventCount = eventCount := by
  rw [fromExplicitParents, if_neg (by omega)]
  exact ⟨rfl, rfl, rfl, rfl⟩

omit hpos in
theorem explicitParents_start {run start : Nat}
    (hget : (runStarts eventCount explicit)[run]? = some start) : explicitParents explicit start =
      (ownParents (runStarts eventCount explicit) explicit run start).map
        (fromExplicitParents eventCount explicit).lastOf := by
  have hpos : 0 < eventCount ∨ eventCount = 0 := Nat.eq_zero_or_pos eventCount |>.symm
  rw [ownParents, explicitParents]
  cases hlookup : explicit.lookup start with
  | some parents =>
    have hmem := mem_of_lookup hlookup
    have hstart := h.lt start parents hmem
    simp only [List.map_map]
    have hmap : ∀ parent ∈ parents, ((fromExplicitParents eventCount explicit).lastOf ∘
        runContaining (runStarts eventCount explicit)) parent = parent := by
      intro parent hparent
      have hearlier := h.earlier start parents hmem parent hparent
      rw [Function.comp_apply]
      apply h.lastOf_runContaining (by omega)
      by_cases hnext : parent + 1 = start
      · rw [hnext]
        exact .inl (List.mem_of_getElem? hget)
      · apply Or.inl
        apply mem_runStarts.mpr
        apply Or.inr
        exact mem_runCandidates.mpr ⟨start, parents, hmem, .inr ⟨parent, hparent, hnext,
          by omega, rfl⟩⟩
    rw [List.map_congr_left hmap, List.map_id']
  | none =>
    by_cases hstart : 0 < start
    · simp only [if_pos hstart, List.map_cons, List.map_nil]
      have hcount : 0 < eventCount := by
        cases hpos with
        | inl hlt => exact hlt
        | inr hzero =>
          have hlt := (mem_runStarts.mp (List.mem_of_getElem? hget)).resolve_left (by omega)
          obtain ⟨lv, parents, hmem, -⟩ := mem_runCandidates.mp hlt
          have := h.lt lv parents hmem
          omega
      have hrun : run ≠ 0 := by
        intro hzero
        rw [hzero, runStarts_first] at hget
        have heq := Option.some.inj hget
        omega
      rw [lastOf, endOf, (fields hcount).1, Nat.sub_add_cancel (Nat.one_le_iff_ne_zero.mpr hrun),
        List.getD_eq_getElem?_getD, hget, Option.getD_some]
    · simp only [if_neg hstart, List.map_nil]

omit hpos in
omit h in
theorem explicitParents_inside {lv : Nat} (hnot : lv ∉ runStarts eventCount explicit) :
    0 < lv ∧ explicitParents explicit lv = [lv - 1] := by
  have hpos : 0 < lv := by
    by_contra hzero
    apply hnot
    exact mem_runStarts.mpr (.inl (by omega))
  refine ⟨hpos, ?_⟩
  rw [explicitParents]
  cases hlookup : explicit.lookup lv with
  | none => simp only [if_pos hpos]
  | some parents =>
    by_contra hne
    apply hnot
    apply mem_runStarts.mpr
    apply Or.inr
    exact mem_runCandidates.mpr ⟨lv, parents, mem_of_lookup hlookup,
      .inl ⟨rfl, hpos, hne⟩⟩

theorem parentRuns_getElem?
    (run : Nat) : (fromExplicitParents eventCount explicit).parentRuns[run]? =
      (runStarts eventCount explicit)[run]?.map
        (ownParents (runStarts eventCount explicit) explicit run) := by
  rw [(fields hpos).2.1, firstParents_getElem? h.ascending (runStarts_sorted _ _), Nat.zero_add]

omit hpos in
theorem parentsAt_eq {lv : Nat} (hlv : lv < eventCount) :
    (fromExplicitParents eventCount explicit).parentsAt lv = explicitParents explicit lv := by
  have hsorted := runStarts_sorted eventCount explicit
  have hstarts : (fromExplicitParents eventCount explicit).starts =
      runStarts eventCount explicit := (fields (by omega)).1
  have hcontains : Contains (runStarts eventCount explicit) lv _ :=
    runContaining_spec hsorted (runStarts_first eventCount explicit)
  obtain ⟨run, hrun⟩ : ∃ run, runContaining (runStarts eventCount explicit) lv = run := ⟨_, rfl⟩
  rw [hrun] at hcontains
  obtain ⟨start, hget⟩ : ∃ start, (runStarts eventCount explicit)[run]? = some start :=
    ⟨_, List.getElem?_eq_getElem hcontains.lt⟩
  have hstartOf : (fromExplicitParents eventCount explicit).startOf run = start := by
    rw [startOf, hstarts, List.getD_eq_getElem?_getD, hget, Option.getD_some]
  have hparents : (fromExplicitParents eventCount explicit).parentRuns.getD run [] =
      ownParents (runStarts eventCount explicit) explicit run start := by
    rw [List.getD_eq_getElem?_getD, h.parentRuns_getElem? (by omega), hget]
    rfl
  rw [parentsAt, runOf, hstarts, hrun, hstartOf, hparents]
  by_cases hown : lv = start
  · rw [if_pos hown, hown, h.explicitParents_start hget]
  · rw [if_neg hown]
    have hnot : lv ∉ runStarts eventCount explicit := by
      intro hmem
      obtain ⟨index, hindex⟩ := List.mem_iff_getElem?.mp hmem
      obtain ⟨hlt, heq⟩ := List.getElem?_eq_some_iff.mp hindex
      have hcontainsIndex : Contains (runStarts eventCount explicit) lv index := by
        refine ⟨hlt, ?_, ?_⟩
        · rw [List.getD_eq_getElem _ _ hlt, heq]
        · intro later hlater hlength
          have hless := List.pairwise_iff_getElem.mp hsorted index later hlt hlength hlater
          rw [List.getD_eq_getElem _ _ hlength]
          omega
      rw [hcontains.unique hcontainsIndex, hindex] at hget
      exact hown (Option.some.inj hget)
    exact (explicitParents_inside hnot).2.symm

theorem length_parentRuns : (fromExplicitParents eventCount explicit).parentRuns.length =
      (runStarts eventCount explicit).length := by
  apply Nat.le_antisymm
  · apply List.getElem?_eq_none_iff.mp
    rw [h.parentRuns_getElem? hpos, List.getElem?_eq_none (Nat.le_refl _)]
    rfl
  · apply List.getElem?_eq_none_iff.mp
    have hnone := h.parentRuns_getElem? hpos
      (fromExplicitParents eventCount explicit).parentRuns.length
    rw [List.getElem?_eq_none (Nat.le_refl _)] at hnone
    exact Option.map_eq_none_iff.mp hnone.symm

theorem childCountOf_eq_zero {run : Nat} (hrun : run < (runStarts eventCount explicit).length) :
    (fromExplicitParents eventCount explicit).childCountOf run = 0 ↔
      ∀ (other : Nat) (parents : List Nat),
        (fromExplicitParents eventCount explicit).parentRuns[other]? = some parents →
          run ∉ parents := by
  have hlength := h.length_parentRuns hpos
  rw [childCountOf, (fields hpos).2.2.1, reverseEdges, List.getD_eq_getElem?_getD,
    List.getElem?_map, List.getElem?_range (by omega), Option.map_some, Option.getD_some,
    List.length_eq_zero_iff, List.flatMap_eq_nil_iff]
  constructor
  · intro hall other parents hget hmem
    have hzip : (parents, other) ∈ (fromExplicitParents eventCount explicit).parentRuns.zipIdx :=
      List.mem_zipIdx_iff_getElem?.mpr hget
    have hempty := hall _ hzip
    simp only [List.map_eq_nil_iff, List.filter_eq_nil_iff, decide_eq_true_eq] at hempty
    exact hempty run hmem rfl
  · intro hall entry hentry
    obtain ⟨parents, other⟩ := entry
    have hnot := hall other parents (List.mem_zipIdx_iff_getElem?.mp hentry)
    simp only [List.map_eq_nil_iff, List.filter_eq_nil_iff, decide_eq_true_eq]
    intro parent hparent heq
    rw [heq] at hparent
    exact hnot hparent

omit h in
theorem endOf_eq (run : Nat) : (fromExplicitParents eventCount explicit).endOf run =
      (runStarts eventCount explicit).getD (run + 1) eventCount := by
  rw [endOf, (fields hpos).1, (fields hpos).2.2.2]

theorem start_lt_endOf
    {run start : Nat} (hget : (runStarts eventCount explicit)[run]? = some start) :
    start < (fromExplicitParents eventCount explicit).endOf run := by
  obtain ⟨hlt, heq⟩ := List.getElem?_eq_some_iff.mp hget
  rw [endOf_eq hpos]
  by_cases hnext : run + 1 < (runStarts eventCount explicit).length
  · have hless := List.pairwise_iff_getElem.mp (runStarts_sorted eventCount explicit) run (run + 1)
      hlt hnext (by omega)
    rw [List.getD_eq_getElem _ _ hnext]
    omega
  · rw [List.getD_eq_default _ _ (by omega)]
    exact h.starts_lt hpos start (List.mem_of_getElem? hget)

omit h in
theorem endOf_le_start {run other start : Nat}
    (hget : (runStarts eventCount explicit)[other]? = some start) (hlt : run < other) :
    (fromExplicitParents eventCount explicit).endOf run ≤ start := by
  obtain ⟨hother, heq⟩ := List.getElem?_eq_some_iff.mp hget
  rw [endOf_eq hpos, List.getD_eq_getElem _ _ (by omega)]
  by_cases hnext : other = run + 1
  · simp only [hnext] at heq
    omega
  · have hless := List.pairwise_iff_getElem.mp (runStarts_sorted eventCount explicit) (run + 1)
      other (by omega) hother (by omega)
    omega

theorem lastOf_lt {run other : Nat} (hlt : run < other)
    (hother : other < (runStarts eventCount explicit).length) :
    (fromExplicitParents eventCount explicit).lastOf run <
      (fromExplicitParents eventCount explicit).lastOf other := by
  obtain ⟨start, hstart⟩ : ∃ start, (runStarts eventCount explicit)[run]? = some start :=
    ⟨_, List.getElem?_eq_getElem (by omega)⟩
  obtain ⟨later, hlater⟩ : ∃ later, (runStarts eventCount explicit)[other]? = some later :=
    ⟨_, List.getElem?_eq_getElem hother⟩
  have hfirst := h.start_lt_endOf hpos hstart
  have hmiddle := endOf_le_start hpos hlater hlt
  have hlast := h.start_lt_endOf hpos hlater
  rw [lastOf, lastOf]
  omega

end

omit h in
theorem mem_ownParents_lt {run start parent : Nat}
    (hget : (runStarts eventCount explicit)[run]? = some start)
    (hparent : parent ∈ ownParents (runStarts eventCount explicit) explicit run start) :
    parent < (runStarts eventCount explicit).length := by
  have hrun := (List.getElem?_eq_some_iff.mp hget).1
  rw [ownParents] at hparent
  cases hlookup : explicit.lookup start with
  | some parents =>
    rw [hlookup] at hparent
    obtain ⟨lv, -, rfl⟩ := List.mem_map.mp hparent
    exact (runContaining_spec (runStarts_sorted _ _) (runStarts_first _ _)).lt
  | none =>
    rw [hlookup] at hparent
    simp only at hparent
    split at hparent
    · rw [List.mem_singleton] at hparent
      omega
    · cases hparent

theorem childless_iff {lv : Nat} (hlv : lv < eventCount) :
    (∃ run, run < (runStarts eventCount explicit).length ∧
        (fromExplicitParents eventCount explicit).childCountOf run = 0 ∧
        (fromExplicitParents eventCount explicit).lastOf run = lv) ↔
      ∀ other, other < eventCount → lv ∉ explicitParents explicit other := by
  have hpos : 0 < eventCount := by omega
  constructor
  · intro hex other hother hmem
    obtain ⟨run, hrun, hcount, hlast⟩ := hex
    by_cases hstart : other ∈ runStarts eventCount explicit
    · obtain ⟨index, hget⟩ := List.mem_iff_getElem?.mp hstart
      rw [h.explicitParents_start hget, List.mem_map] at hmem
      obtain ⟨parent, hparent, heq⟩ := hmem
      have hparentLt := mem_ownParents_lt hget hparent
      have hsame : parent = run := by
        by_contra hne
        cases Nat.lt_or_gt_of_ne hne with
        | inl hlt =>
          have hless := h.lastOf_lt hpos hlt hrun
          omega
        | inr hlt =>
          have hless := h.lastOf_lt hpos hlt hparentLt
          omega
      apply (h.childCountOf_eq_zero hpos hrun).mp hcount index _ _ (hsame ▸ hparent)
      rw [h.parentRuns_getElem? hpos, hget]
      rfl
    · obtain ⟨hotherPos, hparents⟩ := explicitParents_inside hstart
      rw [hparents, List.mem_singleton] at hmem
      -- a run that ends before `other` ends at a start
      apply hstart
      obtain ⟨start, hget⟩ : ∃ start, (runStarts eventCount explicit)[run]? = some start :=
        ⟨_, List.getElem?_eq_getElem hrun⟩
      have hend := h.start_lt_endOf hpos hget
      rw [lastOf] at hlast
      have hotherEnd : (fromExplicitParents eventCount explicit).endOf run = other := by omega
      rw [endOf_eq hpos] at hotherEnd
      by_cases hnext : run + 1 < (runStarts eventCount explicit).length
      · rw [List.getD_eq_getElem _ _ hnext] at hotherEnd
        rw [← hotherEnd]
        exact List.getElem_mem hnext
      · rw [List.getD_eq_default _ _ (by omega)] at hotherEnd
        omega
  · intro hchildless
    have hcontains : Contains (runStarts eventCount explicit) lv _ :=
      runContaining_spec (runStarts_sorted _ _) (runStarts_first _ _)
    have hlast : (fromExplicitParents eventCount explicit).lastOf
        (runContaining (runStarts eventCount explicit) lv) = lv := by
      apply h.lastOf_runContaining hlv
      by_cases hmem : lv + 1 ∈ runStarts eventCount explicit
      · exact .inl hmem
      · apply Or.inr
        by_contra hne
        apply hchildless (lv + 1) (by omega)
        rw [(explicitParents_inside hmem).2, Nat.add_sub_cancel]
        exact List.mem_singleton_self lv
    refine ⟨_, hcontains.lt, ?_, hlast⟩
    apply (h.childCountOf_eq_zero hpos hcontains.lt).mpr
    intro other parents hget hmem
    rw [h.parentRuns_getElem? hpos] at hget
    obtain ⟨start, hstart, rfl⟩ := Option.map_eq_some_iff.mp hget
    apply hchildless start (h.starts_lt hpos start (List.mem_of_getElem? hstart))
    rw [h.explicitParents_start hstart, ← hlast]
    exact List.mem_map_of_mem hmem

theorem frontier_eq :
    ((List.range (fromExplicitParents eventCount explicit).count).filter fun run =>
        (fromExplicitParents eventCount explicit).childCountOf run = 0).map
        (fromExplicitParents eventCount explicit).lastOf = (List.range eventCount).filter fun lv =>
        ∀ other < eventCount, lv ∉ explicitParents explicit other := by
  by_cases hzero : eventCount = 0
  · rw [fromExplicitParents, if_pos hzero, linear, if_pos rfl, hzero]
    rfl
  have hpos : 0 < eventCount := by omega
  have hcount : (fromExplicitParents eventCount explicit).count =
      (runStarts eventCount explicit).length := by
    rw [count, (fields hpos).1]
  rw [hcount]
  apply List.Pairwise.eq_of_mem_iff (r := (· < ·))
  · rw [List.pairwise_map]
    apply (List.pairwise_lt_range.filter _).imp_of_mem
    intro run other hrun hother hlt
    have hotherLt := List.mem_range.mp (List.mem_of_mem_filter hother)
    exact h.lastOf_lt hpos hlt hotherLt
  · exact List.pairwise_lt_range.filter _
  · intro lv
    rw [List.mem_map, List.mem_filter, List.mem_range, decide_eq_true_eq]
    constructor
    · intro hex
      obtain ⟨run, hrun, hlast⟩ := hex
      rw [List.mem_filter, List.mem_range, decide_eq_true_eq] at hrun
      have hlt : lv < eventCount := by
        rw [← hlast, lastOf, endOf_eq hpos]
        obtain ⟨start, hget⟩ : ∃ start, (runStarts eventCount explicit)[run]? = some start :=
          ⟨_, List.getElem?_eq_getElem hrun.1⟩
        by_cases hnext : run + 1 < (runStarts eventCount explicit).length
        · have hstart := h.starts_lt hpos _ (List.getElem_mem hnext)
          rw [List.getD_eq_getElem _ _ hnext]
          omega
        · rw [List.getD_eq_default _ _ (by omega)]
          omega
      exact ⟨hlt, (h.childless_iff hlt).mp ⟨run, hrun.1, hrun.2, hlast⟩⟩
    · intro hboth
      obtain ⟨run, hrun, hcountZero, hlast⟩ := (h.childless_iff hboth.1).mpr hboth.2
      refine ⟨run, ?_, hlast⟩
      rw [List.mem_filter, List.mem_range, decide_eq_true_eq]
      exact ⟨hrun, hcountZero⟩

end

theorem linear_eq (eventCount : Nat) : linear eventCount = fromExplicitParents eventCount [] := by
  rw [fromExplicitParents]
  by_cases hzero : eventCount = 0
  · rw [if_pos hzero, hzero]
  · have hstarts : runStarts eventCount [] = [0] := by
      simp [runStarts, runCandidates, dropRepeats]
    rw [if_neg hzero, linear, if_neg hzero, hstarts]
    rfl

end ExplicitParents

end Softmaple.Codec
