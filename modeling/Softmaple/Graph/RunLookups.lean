import Softmaple.Graph.StoredRuns

/-!
What lookups in a run graph answer: the parents and the children of the graph given by its
listed events, whatever run the previous lookup found.
-/
namespace Softmaple.Graph

open List Codec.GraphRuns

open Codec (ExplicitParents explicitParents Contains)
open Codec.GraphRuns (runStarts runCandidates ownParents)
open Codec.GraphRuns renaming fromExplicitParents → explicitRuns

/-- The events that list `lv` as a parent, in ascending order, each as often as it does. -/
def childrenOf (eventCount : Nat) (parentsOf : Nat → List Nat) (lv : Nat) : List Nat :=
  (List.range eventCount).flatMap fun child =>
    ((parentsOf child).filter (· = lv)).map fun _ => child

theorem flatMap_eq_flatMap_filter {α β : Type} {f : α → List β} {p : α → Bool} {values : List α}
    (h : ∀ value ∈ values, p value = false → f value = []) :
    values.flatMap f = (values.filter p).flatMap f := by
  induction values with
  | nil => rfl
  | cons value values ih =>
    have hrest := ih fun other hother => h other (mem_cons_of_mem _ hother)
    rw [flatMap_cons, filter_cons, hrest]
    cases hp : p value with
    | true => rw [if_pos rfl, flatMap_cons]
    | false =>
      rw [h value mem_cons_self hp]
      rfl

theorem range_flatMap_eq {β : Type} {eventCount : Nat} {f : Nat → List β} {values : List Nat}
    (hsorted : values.Pairwise (· < ·)) (hlt : ∀ value ∈ values, value < eventCount)
    (hempty : ∀ value < eventCount, value ∉ values → f value = []) :
    (List.range eventCount).flatMap f = values.flatMap f := by
  have hfilter : (List.range eventCount).filter (fun value => value ∈ values) = values := by
    apply List.Pairwise.eq_of_mem_iff (r := (· < ·))
    · exact pairwise_lt_range.filter _
    · exact hsorted
    · intro value
      rw [mem_filter, mem_range, decide_eq_true_eq]
      constructor
      · intro h
        exact h.2
      · intro h
        exact ⟨hlt value h, h⟩
  rw [flatMap_eq_flatMap_filter (p := fun value => value ∈ values), hfilter]
  intro value hvalue hnot
  rw [decide_eq_false_iff_not] at hnot
  exact hempty value (mem_range.mp hvalue) hnot

theorem childrenOf_eq_filter {eventCount : Nat} {parentsOf : Nat → List Nat} {lv : Nat}
    (h : ∀ child < eventCount, (parentsOf child).Nodup) :
    childrenOf eventCount parentsOf lv =
      (List.range eventCount).filter fun child => lv ∈ parentsOf child := by
  rw [childrenOf, flatMap_eq_flatMap_filter (p := fun child => lv ∈ parentsOf child)]
  · have hone : ∀ child ∈ (List.range eventCount).filter (fun child => lv ∈ parentsOf child),
        (((parentsOf child).filter (· = lv)).map fun _ => child) = [child] := by
      intro child hchild
      rw [mem_filter, mem_range, decide_eq_true_eq] at hchild
      have hfilter : (parentsOf child).filter (· = lv) = [lv] := by
        rw [filter_eq, count_eq_one_of_mem (h child hchild.1) hchild.2]
        rfl
      rw [hfilter]
      rfl
    rw [flatMap_def, map_congr_left hone]
    simp [← flatMap_def]
  · intro child _ hnot
    rw [decide_eq_false_iff_not] at hnot
    rw [map_eq_nil_iff, filter_eq_nil_iff]
    intro parent hparent heq
    rw [decide_eq_true_eq] at heq
    exact hnot (heq ▸ hparent)

namespace GraphRuns

section

variable {eventCount lv run : Nat} {explicit : List (Nat × List Nat)}

theorem startOf_eq (hpos : 0 < eventCount) {start : Nat}
    (hget : (runStarts eventCount explicit)[run]? = some start) :
    (explicitRuns eventCount explicit).startOf run = start := by
  rw [Codec.GraphRuns.startOf, (ExplicitParents.fields hpos).1, getD_eq_getElem?_getD, hget,
    Option.getD_some]

theorem exists_start (h : run < (runStarts eventCount explicit).length) :
    ∃ start, (runStarts eventCount explicit)[run]? = some start :=
  ⟨_, getElem?_eq_getElem h⟩

theorem contains_iff (hlv : lv < eventCount) : Contains (runStarts eventCount explicit) lv run ↔
      run < (runStarts eventCount explicit).length ∧
        (explicitRuns eventCount explicit).startOf run ≤ lv ∧
        lv < (explicitRuns eventCount explicit).endOf run := by
  have hpos : 0 < eventCount := by omega
  constructor
  · intro hcontains
    obtain ⟨start, hget⟩ := exists_start hcontains.lt
    have hle := hcontains.start_le
    rw [getD_eq_getElem?_getD, hget, Option.getD_some] at hle
    refine ⟨hcontains.lt, by rwa [startOf_eq hpos hget], ?_⟩
    rw [ExplicitParents.endOf_eq hpos]
    by_cases hnext : run + 1 < (runStarts eventCount explicit).length
    · have hlt := hcontains.next (run + 1) (by omega) hnext
      rwa [getD_eq_getElem _ _ hnext] at hlt ⊢
    · rwa [getD_eq_default _ _ (by omega)]
  · intro hwithin
    obtain ⟨hrun, hstart, hend⟩ := hwithin
    obtain ⟨start, hget⟩ := exists_start hrun
    rw [startOf_eq hpos hget] at hstart
    refine ⟨hrun, by rwa [getD_eq_getElem?_getD, hget], ?_⟩
    intro later hlater hlength
    obtain ⟨next, hnext⟩ := exists_start hlength
    have hle := ExplicitParents.endOf_le_start hpos hnext hlater
    rw [getD_eq_getElem?_getD, hnext, Option.getD_some]
    omega

theorem contains_runOf (eventCount : Nat) (explicit : List (Nat × List Nat)) (lv : Nat) :
    Contains (runStarts eventCount explicit) lv
      (Codec.runContaining (runStarts eventCount explicit) lv) :=
  Codec.runContaining_spec (runStarts_sorted _ _)
    (runStarts_first _ _)

section

variable (h : ExplicitParents eventCount explicit)
include h

theorem contains_lastOf (hpos : 0 < eventCount)
    (hrun : run < (runStarts eventCount explicit).length) :
    (explicitRuns eventCount explicit).lastOf run < eventCount ∧
      Contains (runStarts eventCount explicit)
        ((explicitRuns eventCount explicit).lastOf run) run := by
  obtain ⟨start, hget⟩ := exists_start hrun
  have hend := h.start_lt_endOf hpos hget
  have hle : (explicitRuns eventCount explicit).endOf run ≤ eventCount := by
    rw [ExplicitParents.endOf_eq hpos]
    by_cases hnext : run + 1 < (runStarts eventCount explicit).length
    · have hlt := h.starts_lt hpos _ (getElem_mem hnext)
      rw [getD_eq_getElem _ _ hnext]
      omega
    · rw [getD_eq_default _ _ (by omega)]
  have hlt : (explicitRuns eventCount explicit).lastOf run < eventCount := by
    rw [Codec.GraphRuns.lastOf]
    omega
  refine ⟨hlt, (contains_iff hlt).mpr ⟨hrun, ?_, ?_⟩⟩
  · rw [startOf_eq hpos hget, Codec.GraphRuns.lastOf]
    omega
  · rw [Codec.GraphRuns.lastOf]
    omega

omit h in
theorem next_not_start (hlv : lv < eventCount)
    (hcontains : Contains (runStarts eventCount explicit) lv run)
    (hlast : lv ≠ (explicitRuns eventCount explicit).lastOf run) :
    lv + 1 < (explicitRuns eventCount explicit).endOf run ∧
      lv + 1 ∉ runStarts eventCount explicit := by
  obtain ⟨hrun, hstart, hend⟩ := (contains_iff hlv).mp hcontains
  rw [Codec.GraphRuns.lastOf] at hlast
  refine ⟨by omega, ?_⟩
  intro hmem
  have hpos : 0 < eventCount := by omega
  obtain ⟨index, hget⟩ := mem_iff_getElem?.mp hmem
  -- the run starting there comes after, so it starts at the end of this one or later
  have hindex : run < index := by
    by_contra hnot
    have hsame : ∀ other start, other ≤ run →
        (runStarts eventCount explicit)[other]? = some start → start ≤ lv := by
      intro other start hle hother
      by_cases heq : other = run
      · rw [heq] at hother
        rw [startOf_eq hpos hother] at hstart
        exact hstart
      · obtain ⟨own, hown⟩ := exists_start hrun
        rw [startOf_eq hpos hown] at hstart
        obtain ⟨hotherLt, hotherEq⟩ := List.getElem?_eq_some_iff.mp hother
        obtain ⟨hownLt, hownEq⟩ := List.getElem?_eq_some_iff.mp hown
        have hless := pairwise_iff_getElem.mp
          (runStarts_sorted eventCount explicit) other run hotherLt hownLt
          (by omega)
        omega
    have hle := hsame index (lv + 1) (by omega) hget
    omega
  have hle := ExplicitParents.endOf_le_start hpos hget hindex
  omega

theorem childrenOf_last (hpos : 0 < eventCount)
    (hrun : run < (runStarts eventCount explicit).length) {values : List Nat}
    (hvalues : (explicitRuns eventCount explicit).childRuns[run]? =
      some values) : childrenOf eventCount (explicitParents explicit)
        ((explicitRuns eventCount explicit).lastOf run) =
      values.map (explicitRuns eventCount explicit).startOf := by
  have hsorted := runStarts_sorted eventCount explicit
  have hlength := h.length_parentRuns hpos
  have hcontains := contains_lastOf h hpos hrun
  rw [childrenOf, range_flatMap_eq hsorted (h.starts_lt hpos)]
  · -- the first events' parents are the last events of their parent runs
    have hrows : ∀ other parents,
        (explicitRuns eventCount explicit).parentRuns[other]? =
          some parents →
        ((explicitParents explicit
            ((explicitRuns eventCount explicit).startOf other)).filter
              (· = (explicitRuns eventCount explicit).lastOf run)).map
            (fun _ => (explicitRuns eventCount explicit).startOf other) =
          ((parents.filter (· = run)).map fun _ => other).map
            (explicitRuns eventCount explicit).startOf := by
      intro other parents hget
      have hget' := hget
      rw [h.parentRuns_getElem? hpos] at hget'
      obtain ⟨start, hstart, hparents⟩ := Option.map_eq_some_iff.mp hget'
      rw [startOf_eq hpos hstart, h.explicitParents_start hstart, hparents, filter_map,
        map_map, map_map]
      have hfilter : parents.filter ((fun lv => decide (lv =
          (explicitRuns eventCount explicit).lastOf run)) ∘
            (explicitRuns eventCount explicit).lastOf) =
          parents.filter (· = run) := by
        apply filter_congr
        intro parent hparent
        have hlt := parentRuns_lt h hpos hget parent hparent
        rw [Function.comp_apply, decide_eq_decide]
        constructor
        · intro heq
          have hother := (contains_lastOf h hpos hlt).2
          rw [heq] at hother
          exact hother.unique hcontains.2
        · intro heq
          rw [heq]
      rw [hfilter]
      apply map_congr_left
      intro _ _
      rw [Function.comp_apply, Function.comp_apply, startOf_eq hpos hstart]
    have hlist : runStarts eventCount explicit =
        (explicitRuns eventCount explicit).parentRuns.zipIdx.map fun entry =>
          (explicitRuns eventCount explicit).startOf entry.2 := by
      apply ext_getElem?
      intro other
      rw [getElem?_map, getElem?_zipIdx, h.parentRuns_getElem? hpos, Option.map_map,
        Option.map_map]
      cases hget : (runStarts eventCount explicit)[other]? with
      | none => rfl
      | some start =>
        rw [Option.map_some, Function.comp_apply, Function.comp_apply, Nat.zero_add,
          startOf_eq hpos hget]
    rw [(ExplicitParents.fields hpos).2.2.1, Codec.GraphRuns.reverseEdges, getElem?_map,
      getElem?_range (by omega), Option.map_some, Option.some.injEq] at hvalues
    rw [← hvalues, map_flatMap]
    conv_lhs => rw [hlist]
    rw [flatMap_map]
    apply flatMap_congr
    intro entry hentry
    exact hrows entry.2 entry.1 (mem_zipIdx_iff_getElem?.mp hentry)
  · -- any other event has just its predecessor, which does not end a run
    intro child hchild hnot
    obtain ⟨hchildPos, hparents⟩ := ExplicitParents.explicitParents_inside hnot
    rw [hparents, map_eq_nil_iff, filter_eq_nil_iff]
    intro parent hparent heq
    rw [mem_singleton] at hparent
    rw [decide_eq_true_eq] at heq
    apply hnot
    obtain ⟨start, hget⟩ := exists_start hrun
    have hend := h.start_lt_endOf hpos hget
    rw [Codec.GraphRuns.lastOf] at heq
    have hchildEnd : child =
        (explicitRuns eventCount explicit).endOf run := by omega
    rw [ExplicitParents.endOf_eq hpos] at hchildEnd
    by_cases hnext : run + 1 < (runStarts eventCount explicit).length
    · rw [getD_eq_getElem _ _ hnext] at hchildEnd
      rw [hchildEnd]
      exact getElem_mem hnext
    · rw [getD_eq_default _ _ (by omega)] at hchildEnd
      omega

theorem childrenOf_inside (hlv : lv < eventCount)
    (hcontains : Contains (runStarts eventCount explicit) lv run)
    (hlast : lv ≠ (explicitRuns eventCount explicit).lastOf run) :
    childrenOf eventCount (explicitParents explicit) lv = [lv + 1] := by
  have hpos : 0 < eventCount := by omega
  obtain ⟨hnext, hnot⟩ := next_not_start hlv hcontains hlast
  have hparents := (ExplicitParents.explicitParents_inside hnot).2
  have hend : (explicitRuns eventCount explicit).lastOf run < eventCount :=
    (contains_lastOf h hpos hcontains.lt).1
  rw [Codec.GraphRuns.lastOf] at hend
  rw [childrenOf, @range_flatMap_eq _ _ _ [lv + 1]]
  · simp [hparents]
  · exact pairwise_singleton _ _
  · intro value hvalue
    rw [mem_singleton] at hvalue
    omega
  · intro child hchild hother
    rw [mem_singleton] at hother
    rw [map_eq_nil_iff, filter_eq_nil_iff]
    intro parent hparent heq
    rw [decide_eq_true_eq] at heq
    subst heq
    by_cases hstart : child ∈ runStarts eventCount explicit
    · obtain ⟨index, hget⟩ := mem_iff_getElem?.mp hstart
      rw [h.explicitParents_start hget] at hparent
      obtain ⟨parentRun, hmem, heq⟩ := mem_map.mp hparent
      have hlt := ExplicitParents.mem_ownParents_lt hget hmem
      have hparentRun := (contains_lastOf h hpos hlt).2
      rw [heq] at hparentRun
      rw [hparentRun.unique hcontains] at heq
      exact hlast heq.symm
    · obtain ⟨hchildPos, hsole⟩ := ExplicitParents.explicitParents_inside hstart
      rw [hsole, mem_singleton] at hparent
      omega

theorem edge_cases (hlv : lv < eventCount) {parent : Nat}
    (hparent : parent ∈ explicitParents explicit lv)
    (hcontains : Contains (runStarts eventCount explicit) lv run) {other : Nat}
    (hother : Contains (runStarts eventCount explicit) parent other) (hne : other ≠ run) :
    parent = (explicitRuns eventCount explicit).lastOf other ∧
      lv = (explicitRuns eventCount explicit).startOf run := by
  have hpos : 0 < eventCount := by omega
  by_cases hstart : lv ∈ runStarts eventCount explicit
  · obtain ⟨index, hget⟩ := mem_iff_getElem?.mp hstart
    have hindex : Contains (runStarts eventCount explicit) lv index := by
      rw [contains_iff hlv, startOf_eq hpos hget]
      exact ⟨(List.getElem?_eq_some_iff.mp hget).1, Nat.le_refl lv, h.start_lt_endOf hpos hget⟩
    rw [hindex.unique hcontains] at hget
    refine ⟨?_, (startOf_eq hpos hget).symm⟩
    rw [h.explicitParents_start hget] at hparent
    obtain ⟨parentRun, hmem, heq⟩ := mem_map.mp hparent
    have hlast := (contains_lastOf h hpos (ExplicitParents.mem_ownParents_lt hget hmem)).2
    rw [heq] at hlast
    rw [← heq, hlast.unique hother]
  · obtain ⟨hlvPos, hsole⟩ := ExplicitParents.explicitParents_inside hstart
    rw [hsole, mem_singleton] at hparent
    by_cases hlast : parent = (explicitRuns eventCount explicit).lastOf other
    · exfalso
      -- the run ends before `lv`, so another starts there
      apply hstart
      rw [Codec.GraphRuns.lastOf] at hlast
      obtain ⟨start, hget⟩ := exists_start hother.lt
      have hend := h.start_lt_endOf hpos hget
      have heq : (explicitRuns eventCount explicit).endOf other = lv := by
        omega
      rw [ExplicitParents.endOf_eq hpos] at heq
      by_cases hnext : other + 1 < (runStarts eventCount explicit).length
      · rw [getD_eq_getElem _ _ hnext] at heq
        rw [← heq]
        exact getElem_mem hnext
      · rw [getD_eq_default _ _ (by omega)] at heq
        omega
    · exfalso
      obtain ⟨hnext, -⟩ := next_not_start (by omega) hother hlast
      apply hne
      have hsame : Contains (runStarts eventCount explicit) lv other := by
        have hwithin := (contains_iff (by omega)).mp hother
        exact (contains_iff hlv).mpr ⟨hother.lt, by omega, by omega⟩
      exact hsame.unique hcontains

end

end

theorem runContainingLoop_append {starts tail : List Nat} {lv fuel low high : Nat}
    (h : high < starts.length) :
    Codec.runContainingLoop (starts ++ tail) lv fuel low high =
      Codec.runContainingLoop starts lv fuel low high := by
  induction fuel generalizing low high with
  | zero => rfl
  | succ fuel ih =>
    rw [Codec.runContainingLoop, Codec.runContainingLoop]
    by_cases hlt : low < high
    · have hmiddle : (starts ++ tail).getD ((low + high + 1) / 2) 0 =
          starts.getD ((low + high + 1) / 2) 0 := by
        rw [getD_eq_getElem?_getD, getElem?_append_left (by omega),
          ← getD_eq_getElem?_getD]
      rw [if_pos hlt, if_pos hlt]
      simp only [hmiddle]
      rw [ih h, ih (by omega)]
    · rw [if_neg hlt, if_neg hlt]

section

variable {runs : GraphRuns} {eventCount lv : Nat} {explicit : List (Nat × List Nat)}

section

variable (hstores : Stores runs (explicitRuns eventCount explicit))
include hstores

theorem Stores.starts_getElem? {run : Nat} (hrun : run < runs.count) : runs.starts[run]? =
        some ((explicitRuns eventCount explicit).startOf run) ∧
      runs.starts[run + 1]? =
        some ((explicitRuns eventCount explicit).endOf run) := by
  rw [hstores.count] at hrun
  rw [hstores.starts, Codec.GraphRuns.startOf, Codec.GraphRuns.endOf]
  constructor
  · rw [getElem?_append_left hrun, getD_eq_getElem _ _ hrun, getElem?_eq_getElem hrun]
  · by_cases hnext : run + 1 <
        (explicitRuns eventCount explicit).starts.length
    · rw [getElem?_append_left hnext, getD_eq_getElem _ _ hnext,
        getElem?_eq_getElem hnext]
    · rw [getElem?_append_right (by omega), getD_eq_default _ _ (by omega)]
      have hzero : run + 1 -
          (explicitRuns eventCount explicit).starts.length = 0 := by omega
      rw [hzero]
      rfl

theorem Stores.count_eq (hpos : 0 < eventCount) :
    runs.count = (runStarts eventCount explicit).length := by
  rw [hstores.count, (ExplicitParents.fields hpos).1]

theorem Stores.contains_of_reads (hlv : lv < eventCount) {run : Nat}
    (hstart : startsBy runs.starts run lv = true)
    (hend : startsAfter runs.starts (run + 1) lv = true) :
    Contains (runStarts eventCount explicit) lv run := by
  have hpos : 0 < eventCount := by omega
  rw [startsBy, Option.any_eq_true] at hstart
  rw [startsAfter, Option.any_eq_true] at hend
  obtain ⟨start, hget, hle⟩ := hstart
  obtain ⟨next, hnext, hlt⟩ := hend
  rw [decide_eq_true_eq] at hle hlt
  have hlength := (List.getElem?_eq_some_iff.mp hnext).1
  have hrun : run < runs.count := by
    rw [hstores.starts, length_append, length_singleton, ← hstores.count] at hlength
    omega
  obtain ⟨hfirst, hsecond⟩ := hstores.starts_getElem? hrun
  rw [hfirst, Option.some.injEq] at hget
  rw [hsecond, Option.some.injEq] at hnext
  rw [contains_iff hlv, ← hstores.count_eq hpos]
  exact ⟨hrun, by omega, by omega⟩

theorem Stores.before_hint (hlv : lv < eventCount) {hint : Nat}
    (hnot : ¬(startsBy runs.starts hint lv = true ∧ startsAfter runs.starts (hint + 1) lv = true))
    (hnext : ¬startsBy runs.starts (hint + 1) lv = true)
    (hbefore : startsBy runs.starts (hint - 1) lv = true) :
    startsAfter runs.starts hint lv = true := by
  rw [startsBy, Option.any_eq_true] at hbefore
  obtain ⟨start, hget, hle⟩ := hbefore
  rw [decide_eq_true_eq] at hle
  have hlength := (List.getElem?_eq_some_iff.mp hget).1
  have hends : runs.starts[runs.count]? = some eventCount := by
    have hzero : eventCount = (explicitRuns eventCount explicit).eventCount :=
      (ExplicitParents.fields (by omega)).2.2.2.symm
    rw [hstores.starts, hstores.count, getElem?_append_right (Nat.le_refl _), Nat.sub_self,
      getElem?_cons_zero, ← hzero]
  have hsize : runs.starts.length = runs.count + 1 := by
    rw [hstores.starts, length_append, length_singleton, hstores.count]
  by_cases hlast : hint = runs.count
  · rw [startsAfter, hlast, hends]
    simpa using hlv
  · by_cases hin : hint < runs.count
    · have hread : ∃ next, runs.starts[hint + 1]? = some next :=
        ⟨_, getElem?_eq_getElem (by omega)⟩
      have hown : ∃ own, runs.starts[hint]? = some own := ⟨_, getElem?_eq_getElem (by omega)⟩
      obtain ⟨next, hread⟩ := hread
      obtain ⟨own, hown⟩ := hown
      simp only [startsBy, startsAfter, hread, hown, Option.any_some, decide_eq_true_eq] at hnot hnext ⊢
      omega
    · have hpast : hint - 1 = runs.count := by omega
      rw [hpast, hends, Option.some.injEq] at hget
      omega

theorem Stores.runOf_eq (hlv : lv < eventCount) : ∃ hint, runs.runOf lv =
      (Codec.runContaining (runStarts eventCount explicit) lv, runs.withHint hint) := by
  have hpos : 0 < eventCount := by omega
  have hfound := contains_runOf eventCount explicit lv
  have hsearched : runContaining runs.starts runs.count lv =
      Codec.runContaining (runStarts eventCount explicit) lv := by
    have hlt := hfound.lt
    rw [runContaining, hstores.starts, hstores.count, (ExplicitParents.fields hpos).1,
      runContainingLoop_append (by omega)]
    rfl
  rw [runOf, hsearched]
  split_ifs with hhint hafter hsecond hbefore
  · have hsame := (hstores.contains_of_reads hlv hhint.1 hhint.2).unique hfound
    exact ⟨runs.hint, Prod.ext hsame rfl⟩
  · refine ⟨runs.hint + 1, ?_⟩
    rw [(hstores.contains_of_reads hlv hafter hsecond.2).unique hfound]
  · exact ⟨_, rfl⟩
  · refine ⟨runs.hint - 1, ?_⟩
    have hends := hstores.before_hint hlv hhint hafter hbefore.2
    have hsucc : runs.hint - 1 + 1 = runs.hint := by omega
    rw [(hstores.contains_of_reads hlv hbefore.2 (by rwa [hsucc])).unique hfound]
  · exact ⟨_, rfl⟩

end

end

end GraphRuns
end Softmaple.Graph
