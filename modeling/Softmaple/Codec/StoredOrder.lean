import Softmaple.Codec.StoredColumns

/-!
The encoding order of a kept graph. Its runs, packed or rebuilt behind a tail,
hold the same parents, and a chain is its own order.
-/
namespace Softmaple.Codec

open ReadyTraversal List

section Explicit

variable {eventCount : Nat} {parents : Nat → List Nat} {explicit : List (Nat × List Nat)}

theorem explicitParents_of_entries (hentries : ∀ lv own, (lv, own) ∈ explicit → own = parents lv)
    (hdefault : ∀ lv < eventCount, (∀ own, (lv, own) ∉ explicit) → parents lv = defaultParents lv)
    {lv : Nat} (hlv : lv < eventCount) : explicitParents explicit lv = parents lv := by
  rw [explicitParents]
  cases hlookup : explicit.lookup lv with
  | some own => exact hentries lv own (mem_of_lookup hlookup)
  | none =>
    have hnot : ∀ own, (lv, own) ∉ explicit := by
      intro own hmem
      exact absurd rfl (bne_iff_ne.mp (lookup_eq_none_iff.mp hlookup _ hmem))
    rw [hdefault lv hlv hnot, defaultParents]
    by_cases hzero : lv = 0
    · simp [hzero]
    · simp [hzero, Nat.pos_of_ne_zero hzero]

theorem RunsHold.congr {runs : GraphRuns} {other : Nat → List Nat} (h : RunsHold runs parents)
    (heq : ∀ lv < runs.eventCount, other lv = parents lv) : RunsHold runs other where
  startOf_zero := h.startOf_zero
  startOf_lt := h.startOf_lt
  endOf_next := h.endOf_next
  endOf_last := h.endOf_last
  count_pos := h.count_pos
  parentRuns_lt := h.parentRuns_lt
  parents_start run hrun := by
    have hlt := h.startOf_lt run hrun
    have hend := h.endOf_le_eventCount hrun
    rw [heq _ (by omega)]
    exact h.parents_start run hrun
  parents_inside run hrun lv hstart hend := by
    have hle := h.endOf_le_eventCount hrun
    rw [heq _ (by omega)]
    exact h.parents_inside run hrun lv hstart hend
  child_inside run hrun lv hstart hend child hchild hmem := by
    rw [heq _ hchild] at hmem
    exact h.child_inside run hrun lv hstart hend child hchild hmem
  childrenOf_eq := h.childrenOf_eq

theorem eq_range_of_chain {order : List Nat} (hperm : order.Perm (List.range eventCount))
    (hfirst : ParentsFirst parents order)
    (hchain : ∀ lv < eventCount, parents lv = defaultParents lv) :
    order = List.range eventCount := by
  have hlength : order.length = eventCount := by rw [hperm.length_eq, length_range]
  have hnodup : order.Nodup := hperm.nodup_iff.mpr nodup_range
  have hprefix : ∀ k ≤ eventCount, order.take k = List.range k := by
    intro k
    induction k with
    | zero => exact fun _ => rfl
    | succ k ih =>
      intro hk
      have hlt : k < order.length := by omega
      obtain ⟨lv, hlv⟩ : ∃ lv, order[k] = lv := ⟨_, rfl⟩
      have hsplit : order = List.range k ++ lv :: order.drop (k + 1) := by
        rw [← ih (by omega), ← hlv, cons_getElem_drop_succ, take_append_drop]
      have hmem : lv < eventCount := by
        apply mem_range.mp
        apply hperm.mem_iff.mp
        rw [← hlv]
        exact getElem_mem hlt
      have hnot : lv ∉ List.range k := by
        rw [hsplit] at hnodup
        intro hin
        exact (disjoint_of_nodup_append hnodup) hin mem_cons_self
      rw [mem_range] at hnot
      have hsame : lv = k := by
        by_contra hne
        have hparent := hfirst _ _ _ hsplit (lv - 1) (by
          rw [hchain lv hmem, defaultParents, if_neg (by omega)]
          exact mem_singleton_self _)
        rw [mem_range] at hparent
        omega
      rw [take_succ_eq_append_getElem hlt, ih (by omega), hlv, hsame, range_succ]
  have hall := hprefix eventCount (Nat.le_refl _)
  rwa [← hlength, take_length, hlength] at hall

end Explicit

namespace StoredGraph

variable {Metadata : Type} {platform : Platform Metadata} {graph : StoredGraph Metadata}

variable (h : graph.Valid platform)

section Packed

include h

theorem packedRuns_hold : graph.packedRuns.eventCount = graph.packedCount ∧
    RunsHold graph.packedRuns graph.parentRanksAt := by
  cases hpacked : graph.packed with
  | none =>
    have hruns : graph.packedRuns = ⟨0, [], [], []⟩ := by
      rw [packedRuns, hpacked]
      rfl
    rw [hruns, packedCount_none hpacked]
    refine ⟨rfl, ?_⟩
    constructor <;> simp [GraphRuns.count]
  | some packed =>
    obtain ⟨hread, hbuild⟩ := h.packed packed hpacked
    obtain ⟨-, -, hbuilt⟩ := buildGraph_fields hbuild
    have hruns : graph.packedRuns =
        .fromExplicitParents packed.columns.count packed.columns.overrides := by
      rw [packedRuns, hpacked, Option.map_some, Option.getD_some, hbuilt]
    have hcount : (GraphRuns.fromExplicitParents packed.columns.count
        packed.columns.overrides).eventCount = packed.columns.count := by
      by_cases hzero : packed.columns.count = 0
      · rw [GraphRuns.fromExplicitParents, if_pos hzero, hzero]
        rfl
      · exact (ExplicitParents.fields (Nat.pos_of_ne_zero hzero)).2.2.2
    rw [hruns, packedCount_some hpacked]
    refine ⟨hcount, RunsHold.congr (hread.overrides.explicit.runsHold fun lv _ =>
      (explicitParents_valid hread.overrides lv).2) ?_⟩
    intro lv hlv
    rw [hcount] at hlv
    rw [parentRanksAt, columnAt_packed hpacked hlv, hbuilt]
    exact hread.overrides.explicit.parentsAt_eq hlv

theorem mem_packedExplicitParents {lv : Nat} {own : List Nat}
    (hmem : (lv, own) ∈ graph.packedExplicitParents) :
    lv < graph.packedCount ∧ own = graph.parentRanksAt lv := by
  obtain ⟨hcount, hruns⟩ := packedRuns_hold h
  obtain ⟨run, hrun, hentry⟩ := mem_filterMap.mp hmem
  rw [mem_range] at hrun
  simp only [Option.ite_none_left_eq_some, Option.some.injEq, Prod.mk.injEq] at hentry
  obtain ⟨-, rfl, rfl⟩ := hentry
  have hlt := hruns.startOf_lt run hrun
  have hend := hruns.endOf_le_eventCount hrun
  exact ⟨by omega, (hruns.parents_start run hrun).symm⟩

/-- An event of the base that is not listed has just its predecessor. -/
theorem parents_of_not_packedExplicit {lv : Nat} (hlv : lv < graph.packedCount)
    (hnot : ∀ own, (lv, own) ∉ graph.packedExplicitParents) :
    graph.parentRanksAt lv = defaultParents lv := by
  obtain ⟨hcount, hruns⟩ := packedRuns_hold h
  obtain ⟨run, hrun, hstart, hend⟩ := hruns.exists_run (hcount ▸ hlv)
  by_cases hfirst : lv = graph.packedRuns.startOf run
  · have hparents := hruns.parents_start run hrun
    rw [← hfirst] at hparents
    by_contra hne
    apply hnot (graph.parentRanksAt lv)
    rw [packedExplicitParents, mem_filterMap]
    refine ⟨run, mem_range.mpr hrun, ?_⟩
    simp only [← hfirst, ← hparents]
    rw [if_neg]
    intro hboth
    rw [defaultParents, if_neg hboth.1] at hne
    exact hne hboth.2
  · rw [hruns.parents_inside run hrun lv (by omega) hend, defaultParents, if_neg (by omega)]

theorem packedExplicitParents_ascending :
    graph.packedExplicitParents.Pairwise fun entry other => entry.1 < other.1 := by
  obtain ⟨-, hruns⟩ := packedRuns_hold h
  rw [packedExplicitParents, pairwise_filterMap]
  apply pairwise_lt_range.imp_of_mem
  intro run other hrun hother hlt entry hentry otherEntry hotherEntry
  rw [mem_range] at hrun hother
  simp only [Option.ite_none_left_eq_some, Option.some.injEq] at hentry hotherEntry
  rw [← hentry.2, ← hotherEntry.2]
  have hle := hruns.endOf_le hlt hother
  have hstart := hruns.startOf_lt run hrun
  simp only
  omega

end Packed

theorem mem_tailExplicitParents {lv : Nat} {own : List Nat} :
    (lv, own) ∈ graph.tailExplicitParents ↔ graph.packedCount ≤ lv ∧ lv < graph.count ∧
      own = graph.parentRanksAt lv ∧ own ≠ defaultParents lv := by
  rw [tailExplicitParents, mem_filterMap]
  simp only [Option.ite_none_left_eq_some, Option.some.injEq, Prod.mk.injEq]
  constructor
  · intro hex
    obtain ⟨tailIndex, hindex, hne, rfl, rfl⟩ := hex
    rw [mem_range] at hindex
    exact ⟨Nat.le_add_right _ _, Nat.add_lt_add_left hindex _, rfl, hne⟩
  · intro hall
    obtain ⟨hle, hlt, rfl, hne⟩ := hall
    have hsame : graph.packedCount + (lv - graph.packedCount) = lv := by omega
    rw [count] at hlt
    refine ⟨lv - graph.packedCount, mem_range.mpr (by omega), ?_, hsame, ?_⟩
    · rwa [hsame]
    · rw [hsame]

theorem tailExplicitParents_ascending :
    graph.tailExplicitParents.Pairwise fun entry other => entry.1 < other.1 := by
  rw [tailExplicitParents, pairwise_filterMap]
  apply pairwise_lt_range.imp
  intro tailIndex other hlt entry hentry otherEntry hotherEntry
  simp only [Option.ite_none_left_eq_some, Option.some.injEq] at hentry hotherEntry
  rw [← hentry.2, ← hotherEntry.2]
  exact Nat.add_lt_add_left hlt _

section Replay

include h

theorem explicitParents_hold :
    ExplicitParents graph.count (graph.packedExplicitParents ++ graph.tailExplicitParents) ∧
      ∀ lv < graph.count, explicitParents
        (graph.packedExplicitParents ++ graph.tailExplicitParents) lv = graph.parentRanksAt lv := by
  have hmem : ∀ lv own, (lv, own) ∈ graph.packedExplicitParents ++ graph.tailExplicitParents →
      lv < graph.count ∧ own = graph.parentRanksAt lv := by
    intro lv own hmem
    cases mem_append.mp hmem with
    | inl hpacked =>
      obtain ⟨hlt, hown⟩ := mem_packedExplicitParents h hpacked
      exact ⟨Nat.lt_of_lt_of_le hlt (Nat.le_add_right _ _), hown⟩
    | inr htail =>
      obtain ⟨-, hlt, hown, -⟩ := mem_tailExplicitParents.mp htail
      exact ⟨hlt, hown⟩
  constructor
  · constructor
    · rw [pairwise_append]
      refine ⟨packedExplicitParents_ascending h, tailExplicitParents_ascending, ?_⟩
      intro entry hentry other hother
      have hlt : entry.1 < graph.packedCount := (mem_packedExplicitParents h hentry).1
      have hle : graph.packedCount ≤ other.1 := (mem_tailExplicitParents.mp hother).1
      omega
    · exact fun lv own hin => (hmem lv own hin).1
    · intro lv own hin
      obtain ⟨hlt, hown⟩ := hmem lv own hin
      rw [hown]
      exact (earlierParents h).lt lv hlt
  · intro lv hlv
    apply explicitParents_of_entries (fun lv own hin => (hmem lv own hin).2) _ hlv
    intro lv hlt hnot
    by_cases hpacked : lv < graph.packedCount
    · apply parents_of_not_packedExplicit h hpacked
      exact fun own hin => hnot own (mem_append_left _ hin)
    · by_contra hne
      apply hnot (graph.parentRanksAt lv)
      apply mem_append_right
      exact mem_tailExplicitParents.mpr ⟨by omega, hlt, rfl, hne⟩

theorem replayRuns_hold : graph.replayRuns.eventCount = graph.count ∧
    RunsHold graph.replayRuns graph.parentRanksAt := by
  rw [replayRuns]
  by_cases htail : graph.tail = []
  · obtain ⟨hcount, hruns⟩ := packedRuns_hold h
    rw [if_pos htail]
    refine ⟨?_, hruns⟩
    rw [hcount, count, htail]
    rfl
  · obtain ⟨hexplicit, hparents⟩ := explicitParents_hold h
    have hpos : 0 < graph.count := by
      have hlength := length_pos_iff.mpr htail
      rw [count]
      omega
    have hcount : (GraphRuns.fromExplicitParents graph.count (graph.packedExplicitParents ++
        graph.tailExplicitParents)).eventCount = graph.count :=
      (ExplicitParents.fields hpos).2.2.2
    rw [if_neg htail]
    refine ⟨hcount, RunsHold.congr (hexplicit.runsHold ?_) ?_⟩
    · intro lv hlv
      rw [hparents lv hlv]
      exact (earlierParents h).nodup lv hlv
    · intro lv hlv
      rw [hcount] at hlv
      exact (hparents lv hlv).symm

end Replay

def encodingOrder (graph : StoredGraph Metadata) : List Nat :=
  branchOrder graph.count graph.parentRanksAt graph.idView graph.replayRuns.eventMeasures

section Order

include h

theorem encodingOrder_spec : graph.encodingOrder.Perm (List.range graph.count) ∧
    ParentsFirst graph.parentRanksAt graph.encodingOrder :=
  (earlierParents h).branchOrder_spec _ _

theorem encodingOrderOffsets_eq :
    graph.replayRuns.encodingOrderOffsets graph.idView = some graph.encodingOrder := by
  obtain ⟨hcount, hruns⟩ := replayRuns_hold h
  rw [hruns.encodingOrderOffsets_eq (hcount ▸ earlierParents h), encodingOrder, hcount]

theorem chain_of_isExactLinearHistory (hlinear : graph.isExactLinearHistory = true) :
    ∀ lv < graph.count, graph.parentRanksAt lv = defaultParents lv := by
  intro lv hlv
  rw [isExactLinearHistory, Bool.and_eq_true, all_eq_true] at hlinear
  by_cases hpacked : lv < graph.packedCount
  · obtain ⟨hcount, hruns⟩ := packedRuns_hold h
    obtain ⟨run, hrun, hstart, hend⟩ := hruns.exists_run (hcount ▸ hpacked)
    have hsingle := hlinear.1
    rw [GraphRuns.isLinear, Bool.and_eq_true, decide_eq_true_eq, List.isEmpty_iff,
      flatten_eq_nil_iff] at hsingle
    have hzero : run = 0 := by omega
    have hfirst := hruns.startOf_zero (by omega)
    by_cases hroot : lv = 0
    · have hparents := hruns.parents_start run hrun
      have hempty : graph.packedRuns.parentRuns.getD run [] = [] := by
        rw [getD_eq_getElem?_getD]
        cases hget : graph.packedRuns.parentRuns[run]? with
        | none => rfl
        | some own => exact hsingle.2 own (mem_of_getElem? hget)
      rw [hempty, hzero, hfirst] at hparents
      rw [hroot, hparents]
      rfl
    · rw [hruns.parents_inside run hrun lv (by rw [hzero, hfirst]; omega) hend, defaultParents,
        if_neg hroot]
  · rw [count] at hlv
    have hsame : graph.packedCount + (lv - graph.packedCount) = lv := by omega
    have htail := hlinear.2 (lv - graph.packedCount) (mem_range.mpr (by omega))
    rw [hsame, decide_eq_true_eq] at htail
    exact htail

theorem encodeTopologicalBinary_eq : graph.encodeTopologicalBinary platform =
    encodeTopologicalColumnsBinary platform graph.topologicalColumnSource
      (some graph.encodingOrder) graph.metadata graph.frontier := by
  rw [encodeTopologicalBinary]
  by_cases hlinear : graph.isExactLinearHistory = true
  · obtain ⟨hperm, hfirst⟩ := encodingOrder_spec h
    rw [if_pos hlinear, eq_range_of_chain hperm hfirst (chain_of_isExactLinearHistory h hlinear),
      encodeTopologicalColumnsBinary, encodeTopologicalColumnsBinary]
    simp only [Option.map_none, Option.map_some, Option.getD_none, Option.getD_some,
      length_range]
    rfl
  · rw [if_neg hlinear, encodingOrderOffsets_eq h]

end Order

end StoredGraph

end Softmaple.Codec
