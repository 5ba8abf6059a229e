import Softmaple.Codec.RunTraversal

/-!
The encoding order by events. The measure of a run is the measure of its first
event, so that the order of a graph is told by its edges and IDs alone.
-/
namespace Softmaple.Codec

open ReadyTraversal List

structure EventMeasures (eventCount : Nat) (parents : Nat → List Nat)
    (measures : Nat → BranchMeasure) : Prop where
  exclusiveSpan : ∀ lv < eventCount, (measures lv).exclusiveSpan =
    1 + (((childrenAt eventCount parents lv).filter fun child => (parents child).length = 1).map
      fun child => (measures child).exclusiveSpan).sum
  longestPath : ∀ lv < eventCount, (measures lv).longestPath =
    1 + ((childrenAt eventCount parents lv).map fun child =>
      (measures child).longestPath).foldl max 0

def rootsAt (eventCount : Nat) (parents : Nat → List Nat) (ids : EventIdView)
    (measures : Nat → BranchMeasure) : List Nat :=
  let roots := (List.range eventCount).filter fun lv => parents lv = []
  if 1 < roots.length then sortBranchGroup ids id measures roots else roots

def branchOrder (eventCount : Nat) (parents : Nat → List Nat) (ids : EventIdView)
    (measures : Nat → BranchMeasure) : List Nat :=
  visit (childrenAt eventCount parents) (fun lv => arrangeBranches ids id measures lv) eventCount
    (rootsAt eventCount parents ids measures) fun lv => (parents lv).length

theorem EarlierParents.branchOrder_spec {eventCount : Nat} {parents : Nat → List Nat}
    (h : EarlierParents eventCount parents) (ids : EventIdView)
    (measures : Nat → BranchMeasure) :
    (branchOrder eventCount parents ids measures).Perm (List.range eventCount) ∧
      ParentsFirst parents (branchOrder eventCount parents ids measures) := by
  have hperm : (rootsAt eventCount parents ids measures).Perm
      ((List.range eventCount).filter fun lv => parents lv = []) := by
    rw [rootsAt]
    split
    · exact sortBranchGroup_perm _
    · exact List.Perm.refl _
  have hroots : Visiting (List.range eventCount) parents []
      (rootsAt eventCount parents ids measures) fun lv => (parents lv).length := by
    apply visiting_roots
    · exact hperm.nodup_iff.mpr (nodup_range.filter _)
    · intro lv
      rw [hperm.mem_iff, mem_filter, decide_eq_true_eq]
    · exact fun lv _ => rfl
  have harrange : ∀ lv group, (arrangeBranches ids id measures lv group).Perm group :=
    arrangeBranches_perm
  exact hroots.visit h.graph harrange (by simp)

namespace GraphRuns

def runHolding (runs : GraphRuns) (lv : Nat) : Nat :=
  ((List.range runs.count).find? fun run => lv < runs.endOf run).getD 0

def eventMeasures (runs : GraphRuns) (lv : Nat) : BranchMeasure :=
  let run := runs.runHolding lv
  { exclusiveSpan := (runs.measures run).exclusiveSpan - (lv - runs.startOf run)
    longestPath := (runs.measures run).longestPath - (lv - runs.startOf run) }

theorem measureRun_congr {runs : GraphRuns} {measures other : Nat → BranchMeasure} {run : Nat}
    (h : ∀ child ∈ runs.childrenOf run, measures child = other child) :
    runs.measureRun measures run = runs.measureRun other run := by
  have hspans : (((runs.childrenOf run).filter fun child => runs.parentCountOf child = 1).map
      fun child => (measures child).exclusiveSpan) =
      ((runs.childrenOf run).filter fun child => runs.parentCountOf child = 1).map
        fun child => (other child).exclusiveSpan := by
    apply map_congr_left
    intro child hchild
    rw [h child (mem_filter.mp hchild).1]
  have hpaths : ((runs.childrenOf run).map fun child => (measures child).longestPath) =
      (runs.childrenOf run).map fun child => (other child).longestPath := by
    apply map_congr_left
    intro child hchild
    rw [h child hchild]
  rw [measureRun, measureRun, hspans, hpaths]

end GraphRuns

def GraphRuns.restOf (runs : GraphRuns) (run : Nat) : List Nat :=
  (List.range (runs.endOf run - runs.startOf run - 1)).map (runs.startOf run + 1 + ·)

theorem isChain_range {R : Nat → Nat → Prop} {start length : Nat}
    (h : ∀ offset < length, R (start + offset) (start + offset + 1)) :
    (start :: (List.range length).map (start + 1 + ·)).IsChain R := by
  induction length generalizing start with
  | zero => exact List.IsChain.singleton start
  | succ length ih =>
    have hmap : (List.range (length + 1)).map (start + 1 + ·) =
        (start + 1) :: (List.range length).map (start + 1 + 1 + ·) := by
      rw [range_succ_eq_map, map_cons, map_map, Nat.add_zero]
      congr 1
      apply map_congr_left
      intro offset _
      rw [Function.comp_apply]
      omega
    rw [hmap, isChain_cons_cons]
    refine ⟨h 0 (Nat.succ_pos _), ih ?_⟩
    intro offset hoffset
    have hnext := h (offset + 1) (by omega)
    rwa [← Nat.add_assoc, Nat.add_right_comm] at hnext

namespace RunsHold

variable {runs : GraphRuns} {parents : Nat → List Nat}

theorem measures_fold {order : List Nat} (hsorted : order.Pairwise (· < ·))
    (hchildren : ∀ run ∈ order, ∀ child ∈ runs.childrenOf run, run < child) :
    ∀ run ∈ order, (order.foldr (fun run measures =>
        Function.update measures run (runs.measureRun measures run)) fun _ => ⟨0, 0⟩) run =
      runs.measureRun (order.foldr (fun run measures =>
        Function.update measures run (runs.measureRun measures run)) fun _ => ⟨0, 0⟩) run := by
  induction order with
  | nil => simp
  | cons first rest ih =>
    obtain ⟨hfirst, hrest⟩ := pairwise_cons.mp hsorted
    obtain ⟨hown, hothers⟩ := forall_mem_cons.mp hchildren
    have hrun := ih hrest hothers
    obtain ⟨later, hlater⟩ : ∃ later : Nat → BranchMeasure, later = rest.foldr
        (fun run measures => Function.update measures run (runs.measureRun measures run))
        fun _ => ⟨0, 0⟩ := ⟨_, rfl⟩
    rw [foldr_cons, ← hlater]
    rw [← hlater] at hrun
    intro run hmem
    have hcongr : (∀ child ∈ runs.childrenOf run, first < child) →
        runs.measureRun (Function.update later first (runs.measureRun later first)) run =
          runs.measureRun later run := by
      intro hgreater
      apply GraphRuns.measureRun_congr
      intro child hchild
      rw [Function.update_of_ne (Nat.ne_of_gt (hgreater child hchild))]
    cases mem_cons.mp hmem with
    | inl heq =>
      rw [heq] at hcongr ⊢
      rw [hcongr hown, Function.update_self]
    | inr hin =>
      have hlt := hfirst run hin
      rw [Function.update_of_ne (Nat.ne_of_gt hlt), hrun run hin, hcongr]
      intro child hchild
      exact Nat.lt_trans hlt (hothers run hin child hchild)

variable (h : RunsHold runs parents) (hearlier : EarlierParents runs.eventCount parents)

include h

variable {run : Nat}

theorem runHolding_eq {lv : Nat} (hrun : run < runs.count)
    (hin : runs.startOf run ≤ lv ∧ lv < runs.endOf run) : runs.runHolding lv = run := by
  have hfind : ((List.range runs.count).find? fun run => decide (lv < runs.endOf run)) =
      some run := by
    rw [find?_range_eq_some]
    refine ⟨decide_eq_true hin.2, mem_range.mpr hrun, ?_⟩
    intro earlier hlt
    have hle := h.endOf_le hlt hrun
    simp only [Bool.not_eq_true', decide_eq_false_iff_not]
    omega
  rw [GraphRuns.runHolding, hfind, Option.getD_some]

theorem eventMeasures_start (hrun : run < runs.count) :
    runs.eventMeasures (runs.startOf run) = runs.measures run := by
  rw [GraphRuns.eventMeasures, h.runHolding_eq hrun ⟨Nat.le_refl _, h.startOf_lt run hrun⟩,
    Nat.sub_self, Nat.sub_zero, Nat.sub_zero]

include hearlier

theorem measures_eq (hrun : run < runs.count) : runs.measures run = runs.measureRun runs.measures run := by
  apply measures_fold pairwise_lt_range _ run (mem_range.mpr hrun)
  intro run hmem child hchild
  rw [mem_range] at hmem
  obtain ⟨hlt, hparent⟩ := (h.mem_childrenOf hmem).mp hchild
  exact h.parentRun_lt hearlier hlt hparent

theorem eventMeasures_hold : EventMeasures runs.eventCount parents runs.eventMeasures := by
  have hlength : ∀ run < runs.count,
      runs.endOf run - runs.startOf run ≤ (runs.measures run).exclusiveSpan ∧
        runs.endOf run - runs.startOf run ≤ (runs.measures run).longestPath := by
    intro run hrun
    rw [h.measures_eq hearlier hrun, GraphRuns.measureRun]
    exact ⟨Nat.le_add_right _ _, Nat.le_add_right _ _⟩
  have hchild : ∀ run < runs.count, ∀ child ∈ runs.childrenOf run,
      runs.eventMeasures (runs.startOf child) = runs.measures child :=
    fun run hrun child hmem => h.eventMeasures_start ((h.mem_childrenOf hrun).mp hmem).1
  have hinside : ∀ run < runs.count, ∀ lv, runs.startOf run ≤ lv → lv < runs.endOf run →
      runs.eventMeasures lv = ⟨(runs.measures run).exclusiveSpan - (lv - runs.startOf run),
        (runs.measures run).longestPath - (lv - runs.startOf run)⟩ := by
    intro run hrun lv hle hlt
    rw [GraphRuns.eventMeasures, h.runHolding_eq hrun ⟨hle, hlt⟩]
  constructor
  · intro lv hlv
    obtain ⟨run, hrun, hle, hlt⟩ := h.exists_run hlv
    obtain ⟨hspan, -⟩ := hlength run hrun
    rw [hinside run hrun lv hle hlt]
    by_cases hnext : lv + 1 < runs.endOf run
    · rw [h.childrenAt_inside hrun hle hnext, filter_singleton,
        h.parents_inside run hrun (lv + 1) (by omega) hnext]
      simp only [length_singleton, decide_true, cond_true, map_singleton,
        sum_singleton]
      rw [hinside run hrun (lv + 1) (by omega) hnext]
      simp only
      omega
    · have hlast : lv = runs.lastOf run := by
        rw [GraphRuns.lastOf]
        omega
      have hsum : (((childrenAt runs.eventCount parents lv).filter fun child =>
          (parents child).length = 1).map fun child =>
            (runs.eventMeasures child).exclusiveSpan).sum =
          (((runs.childrenOf run).filter fun child => runs.parentCountOf child = 1).map
            fun child => (runs.measures child).exclusiveSpan).sum := by
        rw [hlast, h.childrenAt_last hrun, filter_map, map_map]
        congr 1
        rw [map_congr_left (g := fun child => (runs.measures child).exclusiveSpan)]
        · congr 1
          apply filter_congr
          intro child hmem
          rw [Function.comp_apply, h.parentCountOf_eq ((h.mem_childrenOf hrun).mp hmem).1]
        · intro child hmem
          rw [Function.comp_apply, hchild run hrun child (mem_filter.mp hmem).1]
      rw [hsum]
      have hown := congrArg BranchMeasure.exclusiveSpan (h.measures_eq hearlier hrun)
      rw [GraphRuns.measureRun] at hown
      simp only at hown ⊢
      omega
  · intro lv hlv
    obtain ⟨run, hrun, hle, hlt⟩ := h.exists_run hlv
    obtain ⟨-, hpath⟩ := hlength run hrun
    rw [hinside run hrun lv hle hlt]
    by_cases hnext : lv + 1 < runs.endOf run
    · rw [h.childrenAt_inside hrun hle hnext, map_singleton,
        hinside run hrun (lv + 1) (by omega) hnext]
      simp only [foldl_cons, foldl_nil, Nat.zero_max]
      omega
    · have hlast : lv = runs.lastOf run := by
        rw [GraphRuns.lastOf]
        omega
      have hpaths : ((childrenAt runs.eventCount parents lv).map fun child =>
          (runs.eventMeasures child).longestPath) =
          (runs.childrenOf run).map fun child => (runs.measures child).longestPath := by
        rw [hlast, h.childrenAt_last hrun, map_map]
        apply map_congr_left
        intro child hmem
        rw [Function.comp_apply, hchild run hrun child hmem]
      rw [hpaths]
      have hown := congrArg BranchMeasure.longestPath (h.measures_eq hearlier hrun)
      rw [GraphRuns.measureRun] at hown
      simp only at hown ⊢
      omega

omit hearlier in
theorem offsetsOf_eq (hrun : run < runs.count) :
    runs.offsetsOf run = runs.startOf run :: runs.restOf run := by
  have hlt := h.startOf_lt run hrun
  obtain ⟨length, hlength⟩ : ∃ length, runs.endOf run - runs.startOf run = length + 1 :=
    ⟨runs.endOf run - runs.startOf run - 1, by omega⟩
  rw [GraphRuns.offsetsOf, GraphRuns.restOf, hlength, range_succ_eq_map, map_cons,
    map_map, Nat.add_zero, Nat.add_sub_cancel]
  congr 1
  apply map_congr_left
  intro offset _
  rw [Function.comp_apply]
  omega

omit hearlier in
theorem mem_restOf {lv : Nat} (hrun : run < runs.count) :
    lv ∈ runs.restOf run ↔ runs.startOf run < lv ∧ lv < runs.endOf run := by
  have hlt := h.startOf_lt run hrun
  rw [GraphRuns.restOf, mem_map]
  constructor
  · intro hex
    obtain ⟨offset, hoffset, heq⟩ := hex
    rw [mem_range] at hoffset
    omega
  · intro hbounds
    exact ⟨lv - (runs.startOf run + 1), mem_range.mpr (by omega), by omega⟩

omit hearlier in
theorem getLastD_restOf (hrun : run < runs.count) :
    (runs.restOf run).getLastD (runs.startOf run) = runs.lastOf run := by
  have hlt := h.startOf_lt run hrun
  rw [GraphRuns.restOf, GraphRuns.lastOf]
  cases hlength : runs.endOf run - runs.startOf run - 1 with
  | zero =>
    rw [range_zero, map_nil, getLastD_nil]
    omega
  | succ length =>
    rw [range_succ, map_append, map_singleton, getLastD_concat]
    omega

omit hearlier in
theorem chains (ids : EventIdView) : Chains (List.range runs.count) runs.startOf runs.restOf
    runs.childrenOf (childrenAt runs.eventCount parents)
    (fun run => arrangeBranches ids runs.startOf runs.measures (runs.lastOf run))
    (fun lv => arrangeBranches ids id runs.eventMeasures lv) where
  first_injective run hrun other hother :=
    h.startOf_injective (mem_range.mp hrun) (mem_range.mp hother)
  rest_nodup run _ := by
    apply List.Nodup.map _ nodup_range
    intro first second heq
    exact Nat.add_left_cancel heq
  first_not_mem run hrun other hother hmem := by
    rw [mem_range] at hrun hother
    rw [h.mem_restOf hother] at hmem
    have hsame := h.run_unique hrun hother ⟨Nat.le_refl _, h.startOf_lt run hrun⟩
      ⟨Nat.le_of_lt hmem.1, hmem.2⟩
    rw [hsame] at hmem
    exact Nat.lt_irrefl _ hmem.1
  disjoint run hrun other hother lv hmem hotherMem := by
    rw [mem_range] at hrun hother
    rw [h.mem_restOf hrun] at hmem
    rw [h.mem_restOf hother] at hotherMem
    exact h.run_unique hrun hother ⟨Nat.le_of_lt hmem.1, hmem.2⟩
      ⟨Nat.le_of_lt hotherMem.1, hotherMem.2⟩
  chain run hrun := by
    rw [mem_range] at hrun
    apply isChain_range
    intro offset hoffset
    exact h.childrenAt_inside hrun (Nat.le_add_right _ _) (by omega)
  last run hrun := by
    rw [mem_range] at hrun
    rw [h.getLastD_restOf hrun, h.childrenAt_last hrun]
  coarse_mem run hrun child hchild := by
    rw [mem_range] at hrun ⊢
    exact ((h.mem_childrenOf hrun).mp hchild).1
  coarse_nodup run hrun := h.nodup_childrenOf (mem_range.mp hrun)
  arrange_single lv child := arrangeBranches_single lv child
  arrange_mem run group other hother := (arrangeBranches_perm _ _).mem_iff.mp hother
  arrange_last run hrun group hgroup := by
    rw [mem_range] at hrun
    rw [h.getLastD_restOf hrun]
    apply arrangeBranches_map
    · intro branch hbranch
      exact h.eventMeasures_start (mem_range.mp (hgroup branch hbranch))
    · intro branch hbranch other hother
      exact h.startOf_injective (mem_range.mp (hgroup branch hbranch))
        (mem_range.mp (hgroup other hother))

omit hearlier in
theorem roots_map (ids : EventIdView) : (runs.roots ids).map runs.startOf =
    rootsAt runs.eventCount parents ids runs.eventMeasures := by
  have hroots : ((List.range runs.count).filter fun run => runs.parentCountOf run = 0).map
      runs.startOf = (List.range runs.eventCount).filter fun lv => parents lv = [] := by
    apply List.Pairwise.eq_of_mem_iff (r := (· < ·))
    · rw [pairwise_map]
      apply (pairwise_lt_range.filter _).imp_of_mem
      intro first second hfirst hsecond hlt
      have hsecondLt := mem_range.mp (mem_of_mem_filter hsecond)
      have hle := h.endOf_le hlt hsecondLt
      have hstart := h.startOf_lt first (by omega)
      omega
    · exact pairwise_lt_range.filter _
    · intro lv
      rw [mem_map, mem_filter, mem_range, decide_eq_true_eq]
      constructor
      · intro hex
        obtain ⟨run, hrun, heq⟩ := hex
        rw [mem_filter, mem_range, decide_eq_true_eq] at hrun
        rw [h.parentCountOf_eq hrun.1, heq] at hrun
        have hstart := h.startOf_lt run hrun.1
        have hend := h.endOf_le_eventCount hrun.1
        exact ⟨by omega, length_eq_zero_iff.mp hrun.2⟩
      · intro hboth
        obtain ⟨run, hrun, hin⟩ := h.exists_run hboth.1
        have hfirst : runs.startOf run = lv := by
          by_contra hne
          have hparents := h.parents_inside run hrun lv (by omega) hin.2
          rw [hboth.2] at hparents
          cases hparents
        refine ⟨run, ?_, hfirst⟩
        rw [mem_filter, mem_range, decide_eq_true_eq, h.parentCountOf_eq hrun, hfirst,
          hboth.2]
        exact ⟨hrun, rfl⟩
  rw [GraphRuns.roots, rootsAt, ← hroots, length_map]
  split
  · rw [sortBranchGroup_map]
    intro run hrun
    exact h.eventMeasures_start (mem_range.mp (mem_filter.mp hrun).1)
  · rfl

theorem encodingOrderOffsets_eq (ids : EventIdView) : runs.encodingOrderOffsets ids =
    some (branchOrder runs.eventCount parents ids runs.eventMeasures) := by
  obtain ⟨order, horder⟩ : ∃ order, visit runs.childrenOf
      (fun run => arrangeBranches ids runs.startOf runs.measures (runs.lastOf run)) runs.count
      (runs.roots ids) runs.parentCountOf = order := ⟨_, rfl⟩
  have hrootsPerm : (runs.roots ids).Perm
      ((List.range runs.count).filter fun run => runs.parentCountOf run = 0) := by
    rw [GraphRuns.roots]
    split
    · exact sortBranchGroup_perm _
    · exact List.Perm.refl _
  have hmem : ∀ run, run ∈ runs.roots ids ↔
      run ∈ List.range runs.count ∧ runs.parentRuns.getD run [] = [] := by
    intro run
    rw [hrootsPerm.mem_iff, mem_filter, decide_eq_true_eq, GraphRuns.parentCountOf,
      length_eq_zero_iff]
  have hvisiting : Visiting (List.range runs.count) (runs.parentRuns.getD · []) []
      (runs.roots ids) runs.parentCountOf := by
    apply visiting_roots _ hmem fun run _ => rfl
    exact hrootsPerm.nodup_iff.mpr (nodup_range.filter _)
  have hperm : order.Perm (List.range runs.count) := by
    have harrange : ∀ run group, (arrangeBranches ids runs.startOf runs.measures
        (runs.lastOf run) group).Perm group := fun run => arrangeBranches_perm (runs.lastOf run)
    have hfuel : (List.range runs.count).length ≤ ([] : List Nat).length + runs.count := by simp
    have hvisit := (hvisiting.visit (h.graph hearlier) harrange hfuel).1
    rw [nil_append, horder] at hvisit
    exact hvisit
  have hoffsets : order.flatMap runs.offsetsOf =
      order.flatMap fun run => runs.startOf run :: runs.restOf run := by
    apply flatMap_congr
    intro run hrun
    exact h.offsetsOf_eq (mem_range.mp (hperm.mem_iff.mp hrun))
  have hall : (order.flatMap runs.offsetsOf).Perm (List.range runs.eventCount) := by
    rw [← h.offsets_eq]
    exact hperm.flatMap_right _
  have hlength : (order.flatMap runs.offsetsOf).length = runs.eventCount := by
    rw [hall.length_eq, length_range]
  -- the run traversal is the event traversal
  have hevents : order.flatMap runs.offsetsOf =
      branchOrder runs.eventCount parents ids runs.eventMeasures := by
    have hfirst : ∀ run ∈ List.range runs.count,
        (parents (runs.startOf run)).length = runs.parentCountOf run :=
      fun run hrun => (h.parentCountOf_eq (mem_range.mp hrun)).symm
    have hrest : ∀ run ∈ order, ∀ lv ∈ runs.restOf run, (parents lv).length = 1 := by
      intro run hrun lv hlv
      have hrunLt := mem_range.mp (hperm.mem_iff.mp hrun)
      rw [h.mem_restOf hrunLt] at hlv
      rw [h.parents_inside run hrunLt lv hlv.1 hlv.2]
      rfl
    have hnodup := hperm.nodup_iff.mpr nodup_range
    rw [← horder] at hrest hnodup
    have hchains := (h.chains ids).visit_eq (fun run hrun => ((hmem run).mp hrun).1)
      hfirst hnodup hrest
    rw [horder, ← hoffsets, hlength, h.roots_map] at hchains
    rw [branchOrder, hchains]
  rw [GraphRuns.encodingOrderOffsets, horder]
  by_cases hlinear : runs.isLinear = true
  · rw [if_pos hlinear, ← hevents]
    congr 1
    rw [GraphRuns.isLinear, Bool.and_eq_true, decide_eq_true_eq] at hlinear
    have hsame : order = List.range runs.count := by
      cases hcount : runs.count with
      | zero =>
        rw [hcount] at hperm
        exact perm_nil.mp hperm
      | succ count =>
        have hzero : count = 0 := by omega
        rw [hcount, hzero] at hperm
        rw [hzero]
        exact perm_singleton.mp hperm
    rw [hsame, h.offsets_eq]
  · rw [if_neg hlinear, if_pos hlength, hevents]

end RunsHold

end Softmaple.Codec
