import Softmaple.Graph.RunLookups

/-!
The run graph stands for the graph of its listed events: every lookup of every sequence
answers from that graph, every run is a chain with no edge in or out but at its ends.
-/
namespace Softmaple.Graph

open List

open Codec (ExplicitParents explicitParents Contains)
open Codec.GraphRuns (runStarts)
open Codec.GraphRuns renaming fromExplicitParents → explicitRuns

def Right (eventCount : Nat) (parentsOf : Nat → List Nat) (runs : GraphRuns) :
    Lookup → Answer → Prop
  | .runOf lv, answer => ∃ run : Nat, answer = .number run ∧ run < runs.count ∧
      runs.startOf run ≤ lv ∧ lv < runs.endOf run
  | .parentCountAt lv, answer => answer = .number (parentsOf lv).length
  | .parentAt lv index, answer =>
    answer = .number (((parentsOf lv)[index]?.map Int.ofNat).getD (-1))
  | .childCountAt lv, answer => answer = .number (childrenOf eventCount parentsOf lv).length
  | .childAt lv index, answer =>
    answer = .number (((childrenOf eventCount parentsOf lv)[index]?.map Int.ofNat).getD (-1))
  | .hasSingleParent lv parent, answer =>
    answer = .flag (decide ((parentsOf lv).map Int.ofNat = [parent]))

/-- The runs stand for the graph of `eventCount` events with these parents. -/
structure Represents (eventCount : Nat) (parentsOf : Nat → List Nat) (runs : GraphRuns) :
    Prop where
  /-- Lookups are right in every sequence, whatever run the first one starts near. -/
  answers : ∀ (hint : Nat) (lookups : List Lookup), (∀ lookup ∈ lookups, lookup.lv < eventCount) →
      List.Forall₂ (Right eventCount parentsOf runs) lookups ((runs.withHint hint).answers lookups)
  /-- Every event is in one run. -/
  covered : ∀ lv < eventCount, ∃! run, run < runs.count ∧ runs.startOf run ≤ lv ∧ lv < runs.endOf run
  nonempty : ∀ run < runs.count, runs.startOf run < runs.endOf run ∧ runs.endOf run ≤ eventCount
  /-- A run is a chain: each event after the first is the only child of its only parent. -/
  chain : ∀ run < runs.count, ∀ lv, runs.startOf run < lv → lv < runs.endOf run →
    parentsOf lv = [lv - 1] ∧ childrenOf eventCount parentsOf (lv - 1) = [lv]
  /-- An edge between runs leaves the last event of one and enters the first of the other. -/
  between : ∀ run < runs.count, ∀ lv, runs.startOf run ≤ lv → lv < runs.endOf run →
    ∀ parent ∈ parentsOf lv, ∀ other < runs.count, other ≠ run →
      runs.startOf other ≤ parent → parent < runs.endOf other →
        parent + 1 = runs.endOf other ∧ lv = runs.startOf run

namespace GraphRuns

section

variable {runs : GraphRuns} {eventCount lv run : Nat} {explicit : List (Nat × List Nat)}

section

variable (hstores : Stores runs (explicitRuns eventCount explicit))
include hstores

theorem Stores.ends_eq (hrun : run < runs.count) :
    runs.startOf run = (explicitRuns eventCount explicit).startOf run ∧
      runs.endOf run = (explicitRuns eventCount explicit).endOf run := by
  obtain ⟨hstart, hend⟩ := hstores.starts_getElem? hrun
  rw [startOf, endOf, getD_eq_getElem?_getD, getD_eq_getElem?_getD, hstart, hend]
  exact ⟨rfl, rfl⟩

theorem Stores.eventCount_pos (hrun : run < runs.count) : 0 < eventCount := by
  by_contra hzero
  rw [hstores.count, explicitRuns, if_pos (by omega)] at hrun
  simp [Codec.GraphRuns.linear] at hrun

section

variable (h : ExplicitParents eventCount explicit)
include h

theorem Stores.lastOf_eq (hpos : 0 < eventCount) (hrun : run < runs.count) : runs.lastOf run =
      ((explicitRuns eventCount explicit).lastOf run : Int) := by
  have hend := (hstores.ends_eq hrun).2
  rw [hstores.count_eq hpos] at hrun
  obtain ⟨start, hget⟩ := exists_start hrun
  have hlt := h.start_lt_endOf hpos hget
  rw [endOf] at hend
  rw [lastOf, Codec.GraphRuns.lastOf, hend]
  omega

omit h in
theorem Stores.contains_iff (hlv : lv < eventCount) :
    Contains (runStarts eventCount explicit) lv run ↔
      run < runs.count ∧ runs.startOf run ≤ lv ∧ lv < runs.endOf run := by
  rw [GraphRuns.contains_iff hlv, ← hstores.count_eq (by omega)]
  constructor
  · intro hwithin
    rwa [(hstores.ends_eq hwithin.1).1, (hstores.ends_eq hwithin.1).2]
  · intro hwithin
    rwa [(hstores.ends_eq hwithin.1).1, (hstores.ends_eq hwithin.1).2] at hwithin

omit hstores in
theorem parents_cases (hlv : lv < eventCount)
    (hcontains : Contains (runStarts eventCount explicit) lv run) :
    ∃ parents, (explicitRuns eventCount explicit).parentRuns[run]? =
        some parents ∧ explicitParents explicit lv =
        if lv = (explicitRuns eventCount explicit).startOf run then
          parents.map (explicitRuns eventCount explicit).lastOf
        else [lv - 1] := by
  have hpos : 0 < eventCount := by omega
  have hlength := h.length_parentRuns hpos
  have hlt := hcontains.lt
  have hget : (explicitRuns eventCount explicit).parentRuns[run]? =
      some _ := getElem?_eq_getElem (by omega)
  refine ⟨_, hget, ?_⟩
  have hrunOf : (explicitRuns eventCount explicit).runOf lv = run := by
    rw [Codec.GraphRuns.runOf, (ExplicitParents.fields hpos).1]
    exact (contains_runOf eventCount explicit lv).unique hcontains
  rw [← h.parentsAt_eq hlv, Codec.GraphRuns.parentsAt, hrunOf, getD_eq_getElem?_getD, hget,
    Option.getD_some]

omit hstores in
theorem children_cases (hlv : lv < eventCount)
    (hcontains : Contains (runStarts eventCount explicit) lv run) :
    ∃ children, (explicitRuns eventCount explicit).childRuns[run]? =
        some children ∧ (∀ child ∈ children, child < (runStarts eventCount explicit).length) ∧
      childrenOf eventCount (explicitParents explicit) lv =
        if lv = (explicitRuns eventCount explicit).lastOf run then
          children.map (explicitRuns eventCount explicit).startOf
        else [lv + 1] := by
  have hpos : 0 < eventCount := by omega
  have hlength := h.length_parentRuns hpos
  have hlt := hcontains.lt
  have hget : (explicitRuns eventCount explicit).childRuns[run]? =
      some ((explicitRuns eventCount explicit).parentRuns.zipIdx.flatMap
        fun entry => (entry.1.filter (· = run)).map fun _ => entry.2) := by
    rw [(ExplicitParents.fields hpos).2.2.1, Codec.GraphRuns.reverseEdges, getElem?_map,
      getElem?_range (by omega), Option.map_some]
  refine ⟨_, hget, ?_, ?_⟩
  · intro child hchild
    obtain ⟨⟨parents, other⟩, hzip, hmem⟩ := mem_flatMap.mp hchild
    obtain ⟨-, -, rfl⟩ := mem_map.mp hmem
    have hother := (List.getElem?_eq_some_iff.mp (List.mem_zipIdx_iff_getElem?.mp hzip)).1
    omega
  · by_cases hlast : lv = (explicitRuns eventCount explicit).lastOf run
    · rw [if_pos hlast, ← childrenOf_last h hpos hcontains.lt hget, ← hlast]
    · rw [if_neg hlast, childrenOf_inside h hlv hcontains hlast]

theorem Stores.parentRead (hpos : 0 < eventCount) {parents : List Nat}
    (hget : (explicitRuns eventCount explicit).parentRuns[run]? =
      some parents) (index : Nat) :
    (if index < runs.parentCountOf run then runs.lastOf (runs.parentRunAt run index) else -1) =
      (((parents.map (explicitRuns eventCount explicit).lastOf)[index]?.map
        Int.ofNat).getD (-1)) := by
  rw [hstores.parentCountOf run parents hget, getElem?_map]
  by_cases hindex : index < parents.length
  · have hvalue := getElem?_eq_getElem hindex
    have hlt := parentRuns_lt h hpos hget _ (getElem_mem hindex)
    rw [if_pos hindex, hvalue, hstores.parentRunAt run parents hget index _ hvalue,
      hstores.lastOf_eq h hpos (by rw [hstores.count_eq hpos]; exact hlt)]
    rfl
  · rw [if_neg hindex, getElem?_eq_none (by omega)]
    rfl

omit h in
theorem Stores.childRead (hpos : 0 < eventCount) {children : List Nat}
    (hget : (explicitRuns eventCount explicit).childRuns[run]? =
      some children)
    (hlt : ∀ child ∈ children, child < (runStarts eventCount explicit).length) (index : Nat) :
    (if index < runs.childCountOf run then (runs.startOf (runs.childRunAt run index) : Int)
      else -1) =
      (((children.map (explicitRuns eventCount explicit).startOf)[index]?.map
        Int.ofNat).getD (-1)) := by
  rw [hstores.childCountOf run children hget, getElem?_map]
  by_cases hindex : index < children.length
  · have hvalue := getElem?_eq_getElem hindex
    have hchild := hlt _ (getElem_mem hindex)
    rw [if_pos hindex, hvalue, hstores.childRunAt run children hget index _ hvalue,
      (hstores.ends_eq (by rw [hstores.count_eq hpos]; exact hchild)).1]
    rfl
  · rw [if_neg hindex, getElem?_eq_none (by omega)]
    rfl

omit h in
omit hstores in
theorem singleton_getElem? (value index : Nat) :
    (([value][index]?.map Int.ofNat).getD (-1)) = if index = 0 then (value : Int) else -1 := by
  cases index with
  | zero => rfl
  | succ index => rfl

theorem Stores.answer_right (lookup : Lookup) (hlookup : lookup.lv < eventCount) :
    Right eventCount (explicitParents explicit) runs lookup (runs.answer lookup).1 ∧
      ∃ hint, (runs.answer lookup).2 = runs.withHint hint := by
  have hpos : 0 < eventCount := by omega
  obtain ⟨own, hown⟩ : ∃ own, lookup.lv = own := ⟨_, rfl⟩
  rw [hown] at hlookup
  obtain ⟨hint, hrunOf⟩ := hstores.runOf_eq hlookup
  have hcontains := contains_runOf eventCount explicit own
  obtain ⟨run, hrun⟩ : ∃ run,
    Codec.runContaining (runStarts eventCount explicit) own = run := ⟨_, rfl⟩
  rw [hrun] at hrunOf hcontains
  obtain ⟨hcount, hstart, hend⟩ := (hstores.contains_iff hlookup).mp hcontains
  obtain ⟨parents, hparents, hparentsOf⟩ := parents_cases h hlookup hcontains
  obtain ⟨children, hchildren, hchildLt, hchildrenOf⟩ := children_cases h hlookup hcontains
  rw [← (hstores.ends_eq hcount).1] at hparentsOf
  have hlast : (own : Int) = runs.lastOf run ↔
      own = (explicitRuns eventCount explicit).lastOf run := by
    rw [hstores.lastOf_eq h hpos hcount]
    omega
  cases lookup with
  | runOf lv =>
    rw [Lookup.lv] at hown
    subst hown
    refine ⟨⟨run, ?_, hcount, hstart, hend⟩, hint, ?_⟩
    · rw [answer, hrunOf]
    · rw [answer, hrunOf]
  | parentCountAt lv =>
    rw [Lookup.lv] at hown
    subst hown
    refine ⟨?_, hint, ?_⟩
    · rw [Right, answer, parentCountAt, hrunOf, hparentsOf]
      dsimp only
      split_ifs with hfirst
      · rw [hstores.parentCountOf run parents hparents, length_map]
      · rfl
    · rw [answer, parentCountAt, hrunOf]
  | parentAt lv index =>
    rw [Lookup.lv] at hown
    subst hown
    refine ⟨?_, hint, ?_⟩
    · rw [Right, answer, parentAt, hrunOf, hparentsOf]
      dsimp only
      by_cases hfirst : lv = runs.startOf run
      · rw [if_neg (not_not.mpr hfirst), if_pos hfirst, hstores.parentRead h hpos hparents]
      · have hlvPos : ((lv - 1 : Nat) : Int) = (lv : Int) - 1 := by
          have hle : runs.startOf run ≤ lv := hstart
          omega
        rw [if_pos hfirst, if_neg hfirst, singleton_getElem?, hlvPos]
    · rw [answer, parentAt, hrunOf]
  | childCountAt lv =>
    rw [Lookup.lv] at hown
    subst hown
    refine ⟨?_, hint, ?_⟩
    · rw [Right, answer, childCountAt, hrunOf, hchildrenOf]
      dsimp only
      by_cases hends : lv = (explicitRuns eventCount explicit).lastOf run
      · rw [if_pos (hlast.mpr hends), if_pos hends,
          hstores.childCountOf run children hchildren, length_map]
      · rw [if_neg (fun heq => hends (hlast.mp heq)), if_neg hends]
        rfl
    · rw [answer, childCountAt, hrunOf]
  | childAt lv index =>
    rw [Lookup.lv] at hown
    subst hown
    refine ⟨?_, hint, ?_⟩
    · rw [Right, answer, childAt, hrunOf, hchildrenOf]
      dsimp only
      by_cases hends : lv = (explicitRuns eventCount explicit).lastOf run
      · rw [if_neg (not_not.mpr (hlast.mpr hends)), if_pos hends,
          hstores.childRead hpos hchildren hchildLt]
      · rw [if_pos (fun heq => hends (hlast.mp heq)), if_neg hends, singleton_getElem?]
        rfl
    · rw [answer, childAt, hrunOf]
  | hasSingleParent lv parent =>
    rw [Lookup.lv] at hown
    subst hown
    refine ⟨?_, hint, ?_⟩
    · rw [Right, answer, hasSingleParent, hrunOf, hparentsOf]
      dsimp only
      by_cases hfirst : lv = runs.startOf run
      · rw [if_neg (not_not.mpr hfirst), if_pos hfirst,
          hstores.parentCountOf run parents hparents]
        cases parents with
        | nil => rfl
        | cons first rest =>
          cases rest with
          | nil =>
            have hread := hstores.parentRead h hpos hparents 0
            rw [hstores.parentCountOf run _ hparents] at hread
            simp at hread
            simp [hread]
          | cons second rest => simp
      · have hlvPos : ((lv - 1 : Nat) : Int) = (lv : Int) - 1 := by
          have hle : runs.startOf run ≤ lv := hstart
          omega
        rw [if_pos hfirst, if_neg hfirst]
        simp [hlvPos, eq_comm]
    · rw [answer, hasSingleParent, hrunOf]

theorem Stores.answers_right (hint : Nat) (lookups : List Lookup)
    (hlookups : ∀ lookup ∈ lookups, lookup.lv < eventCount) :
    List.Forall₂ (Right eventCount (explicitParents explicit) runs) lookups
      ((runs.withHint hint).answers lookups) := by
  induction lookups generalizing hint with
  | nil => exact .nil
  | cons lookup rest ih =>
    obtain ⟨hright, next, hnext⟩ :=
      (hstores.withHint hint).answer_right h lookup (hlookups lookup mem_cons_self)
    rw [answers, hnext]
    refine .cons ?_ (ih next fun other hother => hlookups other (mem_cons_of_mem _ hother))
    cases lookup <;> exact hright

end

end

end

end GraphRuns

theorem represents_of_lt {eventCount : Nat} {explicit parentStarts parents : List Nat}
    (h : ExplicitParents eventCount (GraphRuns.listed explicit parentStarts parents))
    (hcount : eventCount < 2 ^ 32) :
    Represents eventCount (explicitParents (GraphRuns.listed explicit parentStarts parents))
      (GraphRuns.fromExplicitParents eventCount explicit parentStarts parents) := by
  have hstores := GraphRuns.fromExplicitParents_stores h hcount
  obtain ⟨runs, hruns⟩ : ∃ runs,
    GraphRuns.fromExplicitParents eventCount explicit parentStarts parents = runs := ⟨_, rfl⟩
  rw [hruns] at hstores ⊢
  have hends : ∀ run < runs.count, runs.startOf run < runs.endOf run ∧
      runs.endOf run ≤ eventCount := by
    intro run hrun
    have hpos := hstores.eventCount_pos hrun
    rw [(hstores.ends_eq hrun).1, (hstores.ends_eq hrun).2]
    rw [hstores.count_eq hpos] at hrun
    obtain ⟨start, hget⟩ := GraphRuns.exists_start hrun
    have hlast := (GraphRuns.contains_lastOf h hpos hrun).1
    rw [Codec.GraphRuns.lastOf] at hlast
    rw [GraphRuns.startOf_eq hpos hget]
    exact ⟨h.start_lt_endOf hpos hget, by omega⟩
  refine ⟨?_, ?_, hends, ?_, ?_⟩
  · exact hstores.answers_right h
  · intro lv hlv
    refine ⟨_, (hstores.contains_iff hlv).mp (GraphRuns.contains_runOf eventCount _ lv), ?_⟩
    intro other hother
    exact ((hstores.contains_iff hlv).mpr hother).unique (GraphRuns.contains_runOf eventCount _ lv)
  · intro run hrun lv hstart hend
    have hlv : lv < eventCount := Nat.lt_of_lt_of_le hend (hends run hrun).2
    have hcontains := (hstores.contains_iff hlv).mpr ⟨hrun, Nat.le_of_lt hstart, hend⟩
    have hbeforeLt : lv - 1 < eventCount := by omega
    have hbefore := (hstores.contains_iff hbeforeLt).mpr ⟨hrun, by omega, by omega⟩
    have hnotLast : lv - 1 ≠ (explicitRuns eventCount
        (GraphRuns.listed explicit parentStarts parents)).lastOf run := by
      rw [(hstores.ends_eq hrun).2] at hend
      rw [Codec.GraphRuns.lastOf]
      omega
    have hsucc : lv - 1 + 1 = lv := by omega
    have hnotStart := (GraphRuns.next_not_start hbeforeLt hbefore hnotLast).2
    have hchildren := GraphRuns.childrenOf_inside h hbeforeLt hbefore hnotLast
    rw [hsucc] at hnotStart hchildren
    exact ⟨(ExplicitParents.explicitParents_inside hnotStart).2, hchildren⟩
  · intro run hrun lv hstart hend parent hparent other hother hne hotherStart hotherEnd
    have hlv : lv < eventCount := Nat.lt_of_lt_of_le hend (hends run hrun).2
    have hparentLt : parent < eventCount := Nat.lt_of_lt_of_le hotherEnd (hends other hother).2
    have hcontains := (hstores.contains_iff hlv).mpr ⟨hrun, hstart, hend⟩
    have hparentIn := (hstores.contains_iff hparentLt).mpr ⟨hother, hotherStart, hotherEnd⟩
    obtain ⟨hlast, hfirst⟩ := GraphRuns.edge_cases h hlv hparent hcontains hparentIn hne
    rw [(hstores.ends_eq hother).2, (hstores.ends_eq hrun).1]
    rw [Codec.GraphRuns.lastOf] at hlast
    rw [(hstores.ends_eq hother).2] at hotherEnd
    exact ⟨by omega, hfirst⟩

end Softmaple.Graph
