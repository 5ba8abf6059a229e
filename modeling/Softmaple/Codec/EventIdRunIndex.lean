import Softmaple.Codec.EventIdText
import Mathlib.Data.List.Sort
import Mathlib.Data.List.Perm.Basic
import Mathlib.Data.List.Pairwise

/-!
Event IDs by local version, stored as runs (`graph/internals/event-id-run-index.ts`):
the index a decoder builds from a payload's ID runs. Agents are named by their
replica ID here; the source numbers them.
-/
namespace Softmaple.Codec

open List

structure IdRun where
  replicaId : Text
  startSequence : Nat
  startEventOffset : Nat
  length : Nat
  custom : Bool
  deriving DecidableEq, Repr

structure EventIdRunIndex where
  runs : List IdRun
  eventCount : Nat
  deriving DecidableEq, Repr

/-- The agent of a run: its replica ID, or that of a custom ID which parses. -/
def IdRun.agent (run : IdRun) : Option Text :=
  if run.custom then (parseEventId run.replicaId).map (·.1) else some run.replicaId

def isSortedBySequence : List IdRun → Bool
  | previous :: run :: rest =>
    !(run.startSequence < previous.startSequence) && isSortedBySequence (run :: rest)
  | _ => true

def runsByAgent (runs : List IdRun) (replicaId : Text) : List IdRun :=
  let agentRuns := runs.filter fun run => !run.custom && run.replicaId = replicaId
  if isSortedBySequence agentRuns then agentRuns
  else agentRuns.mergeSort fun left right => left.startSequence ≤ right.startSequence

def firstOverlap : List IdRun → Option IdRun
  | previous :: run :: rest =>
    if run.startSequence < numberAdd previous.startSequence previous.length then some run
    else firstOverlap (run :: rest)
  | _ => none

def firstRunAfter (runs : List IdRun) (sequence : Nat) : Nat :=
  runs.findIdx fun run => sequence < run.startSequence

def canonicalOffset (runs : List IdRun) (sequence : Nat) : Option Nat :=
  match firstRunAfter runs sequence with
  | 0 => none
  | after + 1 =>
    match runs[after]? with
    | some run =>
      if sequence < numberAdd run.startSequence run.length then
        some (run.startEventOffset + (sequence - run.startSequence))
      else none
    | none => none

namespace EventIdRunIndex

/-- The checks of each run, in order; `customIds` are the custom IDs before it. -/
def checkRuns (expectedCount : Nat) : Nat → Nat → List Text → List IdRun → Except CodecError Unit
  | _, eventOffset, _, [] =>
    if eventOffset ≠ expectedCount then .error (.idRunCount eventOffset expectedCount) else .ok ()
  | runIndex, eventOffset, customIds, run :: rest =>
    if run.replicaId = [] then .error (.invalidIdRun runIndex)
    else if !isSafeInteger run.startSequence || !isSafeInteger run.length || run.length = 0 ||
        run.startEventOffset ≠ eventOffset then .error (.invalidIdRun runIndex)
    else if run.custom && run.length ≠ 1 then .error (.invalidIdRunLength runIndex run.length)
    else if expectedCount < eventOffset + run.length then
      .error (.idRunCount (eventOffset + run.length) expectedCount)
    else if run.custom then
      if run.replicaId ∈ customIds then .error (.duplicateColumnarId run.replicaId)
      else
        checkRuns expectedCount (runIndex + 1) (eventOffset + run.length)
          (run.replicaId :: customIds) rest
    else if !isSafeInteger (numberAdd run.startSequence run.length - 1) then
      .error (.idRunSequence runIndex)
    else checkRuns expectedCount (runIndex + 1) (eventOffset + run.length) customIds rest

def checkAgents (runs : List IdRun) : List Text → Except CodecError Unit
  | [] => .ok ()
  | agent :: rest =>
    match firstOverlap (runsByAgent runs agent) with
    | some run => .error (.duplicateColumnarId (formatEventId run.replicaId run.startSequence))
    | none => checkAgents runs rest

def checkParsedCustom (runs : List IdRun) : List IdRun → Except CodecError Unit
  | [] => .ok ()
  | run :: rest =>
    match if run.custom then parseEventId run.replicaId else none with
    | some (replicaId, sequence) =>
      if canonicalOffset (runsByAgent runs replicaId) sequence ≠ none then
        .error (.duplicateColumnarId run.replicaId)
      else checkParsedCustom runs rest
    | none => checkParsedCustom runs rest

/-- Validate and index the ID runs of a payload. -/
def fromRuns (runs : List IdRun) (expectedCount : Nat) : Except CodecError EventIdRunIndex :=
  match checkRuns expectedCount 0 0 [] runs with
  | .error error => .error error
  | .ok () =>
    match checkAgents runs (runs.filterMap (·.agent)).eraseDups with
    | .error error => .error error
    | .ok () =>
      match checkParsedCustom runs runs with
      | .error error => .error error
      | .ok () => .ok ⟨runs, expectedCount⟩

def runBefore (index : EventIdRunIndex) (offset : Nat) : Option IdRun :=
  index.runs.find? fun run =>
    run.startEventOffset ≤ offset && offset < run.startEventOffset + run.length

def idAt (index : EventIdRunIndex) (offset : Nat) : Option Text :=
  if index.eventCount ≤ offset then none
  else
    (index.runBefore offset).map fun run =>
      if run.custom then run.replicaId
      else formatEventId run.replicaId (run.startSequence + (offset - run.startEventOffset))

def localVersionOf (index : EventIdRunIndex) (id : Text) : Option Nat :=
  let custom : Option Nat :=
    (index.runs.find? fun run => run.custom && run.replicaId = id).map (·.startEventOffset)
  match parseEventId id with
  | some (replicaId, sequence) =>
    match canonicalOffset (runsByAgent index.runs replicaId) sequence with
    | some offset => some offset
    | none => custom
  | none => custom

end EventIdRunIndex

def IdRun.ids (run : IdRun) : List Text :=
  if run.custom then [run.replicaId]
  else (List.range run.length).map fun offset =>
    formatEventId run.replicaId (run.startSequence + offset)

/-- A run a decoder can have read. -/
structure IdRun.Valid (run : IdRun) : Prop where
  replicaId_ne_nil : run.replicaId ≠ []
  length_pos : 0 < run.length
  custom : run.custom = true →
    run.length = 1 ∧ run.startSequence = 0 ∧ parseEventId run.replicaId = none
  sequence : run.custom = false → run.startSequence + run.length ≤ maxSafeInteger + 1

/-- The runs cover the offsets from `start` on without a gap. -/
def Tiles : Nat → List IdRun → Nat → Prop
  | start, [], stop => start = stop
  | start, run :: rest, stop => run.startEventOffset = start ∧ Tiles (start + run.length) rest stop

namespace IdRun

variable {run other : IdRun}

theorem length_ids (h : run.Valid) : run.ids.length = run.length := by
  rw [ids]
  cases hcustom : run.custom with
  | true => rw [if_pos rfl, (h.custom hcustom).1, length_singleton]
  | false => rw [if_neg (by simp), length_map, length_range]

theorem ids_nodup (h : run.Valid) : run.ids.Nodup := by
  rw [ids]
  cases hcustom : run.custom with
  | true => exact nodup_singleton _
  | false =>
    rw [if_neg (by simp)]
    have hsequence := h.sequence hcustom
    apply nodup_range.map_on
    intro offset hoffset later hlater heq
    rw [mem_range] at hoffset hlater
    have hsame := (formatEventId_injective h.replicaId_ne_nil h.replicaId_ne_nil (by omega)
      (by omega) heq).2
    omega

theorem parse_of_mem (h : run.Valid) {id : Text} (hid : id ∈ run.ids) :
    if run.custom then id = run.replicaId ∧ parseEventId id = none
    else ∃ sequence, parseEventId id = some (run.replicaId, sequence) ∧
      run.startSequence ≤ sequence ∧ sequence < run.startSequence + run.length := by
  rw [ids] at hid
  cases hcustom : run.custom with
  | true =>
    rw [hcustom, if_pos rfl, mem_singleton] at hid
    rw [if_pos rfl, hid]
    exact ⟨rfl, (h.custom hcustom).2.2⟩
  | false =>
    rw [hcustom, if_neg (by simp)] at hid
    obtain ⟨offset, hoffset, rfl⟩ := mem_map.mp hid
    rw [mem_range] at hoffset
    have hsequence := h.sequence hcustom
    rw [if_neg (by simp)]
    exact ⟨_, parseEventId_format h.replicaId_ne_nil (by omega), by omega, by omega⟩

theorem mem_ids_canonical (hcustom : run.custom = false) {sequence : Nat}
    (hle : run.startSequence ≤ sequence) (hlt : sequence < run.startSequence + run.length) :
    formatEventId run.replicaId sequence ∈ run.ids := by
  rw [ids, hcustom, if_neg (by simp)]
  apply mem_map.mpr
  exact ⟨sequence - run.startSequence, mem_range.mpr (by omega), by
    rw [Nat.add_sub_cancel' hle]⟩

theorem disjoint_iff (h : run.Valid) (hother : other.Valid) : List.Disjoint run.ids other.ids ↔
      (run.custom = true → other.custom = true → run.replicaId ≠ other.replicaId) ∧
      (run.custom = false → other.custom = false → run.replicaId = other.replicaId →
        run.startSequence + run.length ≤ other.startSequence ∨
          other.startSequence + other.length ≤ run.startSequence) := by
  constructor
  · intro hdisjoint
    refine ⟨?_, ?_⟩
    · intro hcustom hotherCustom heq
      apply hdisjoint (a := run.replicaId)
      · rw [ids, if_pos hcustom]
        exact mem_singleton_self _
      · rw [ids, if_pos hotherCustom, heq]
        exact mem_singleton_self _
    · intro hcustom hotherCustom heq
      by_contra hoverlap
      have hpos := h.length_pos
      have hotherPos := hother.length_pos
      have hmem : formatEventId run.replicaId (max run.startSequence other.startSequence) ∈
          run.ids := mem_ids_canonical hcustom (by omega) (by omega)
      apply hdisjoint hmem
      rw [heq]
      exact mem_ids_canonical hotherCustom (by omega) (by omega)
  · intro hboth id hid hotherId
    have hparse := parse_of_mem h hid
    have hotherParse := parse_of_mem hother hotherId
    cases hcustom : run.custom with
    | true =>
      rw [if_pos hcustom] at hparse
      cases hotherCustom : other.custom with
      | true =>
        rw [if_pos hotherCustom] at hotherParse
        exact hboth.1 hcustom hotherCustom (hparse.1.symm.trans hotherParse.1)
      | false =>
        rw [if_neg (by simp [hotherCustom]), hparse.2] at hotherParse
        obtain ⟨sequence, hsome, -⟩ := hotherParse
        cases hsome
    | false =>
      rw [if_neg (by simp [hcustom])] at hparse
      obtain ⟨sequence, hsome, hle, hlt⟩ := hparse
      cases hotherCustom : other.custom with
      | true =>
        rw [if_pos hotherCustom, hsome] at hotherParse
        cases hotherParse.2
      | false =>
        rw [if_neg (by simp [hotherCustom]), hsome] at hotherParse
        obtain ⟨otherSequence, hsame, hotherLe, hotherLt⟩ := hotherParse
        obtain ⟨hreplica, hsequence⟩ := Prod.mk.inj (Option.some.inj hsame)
        cases hboth.2 hcustom hotherCustom hreplica with
        | inl hbefore => omega
        | inr hafter => omega

end IdRun

def IdRun.Before (run other : IdRun) : Prop :=
  run.startSequence + run.length ≤ other.startSequence

variable {runs : List IdRun}

theorem isSortedBySequence_iff : isSortedBySequence runs = true ↔
      runs.Pairwise fun left right => left.startSequence ≤ right.startSequence := by
  induction runs with
  | nil => simp [isSortedBySequence]
  | cons previous rest ih =>
    cases rest with
    | nil => simp [isSortedBySequence]
    | cons run rest =>
      rw [isSortedBySequence, Bool.and_eq_true, ih, pairwise_cons (a := previous)]
      simp only [Bool.not_eq_eq_eq_not, Bool.not_true, decide_eq_false_iff_not, Nat.not_lt]
      constructor
      · intro h
        refine ⟨?_, h.2⟩
        intro later hlater
        cases mem_cons.mp hlater with
        | inl heq =>
          rw [heq]
          exact h.1
        | inr hmem => exact Nat.le_trans h.1 ((pairwise_cons.mp h.2).1 later hmem)
      · intro h
        exact ⟨h.1 run mem_cons_self, h.2⟩

theorem runsByAgent_perm (runs : List IdRun) (replicaId : Text) : (runsByAgent runs replicaId).Perm
      (runs.filter fun run => !run.custom && run.replicaId = replicaId) := by
  rw [runsByAgent]
  split
  · exact List.Perm.refl _
  · exact mergeSort_perm _ _

theorem mem_runsByAgent {replicaId : Text} {run : IdRun} : run ∈ runsByAgent runs replicaId ↔
      run ∈ runs ∧ run.custom = false ∧ run.replicaId = replicaId := by
  rw [(runsByAgent_perm runs replicaId).mem_iff]
  simp

theorem runsByAgent_sorted (runs : List IdRun) (replicaId : Text) :
    (runsByAgent runs replicaId).Pairwise
      fun left right => left.startSequence ≤ right.startSequence := by
  rw [runsByAgent]
  split
  · next h => exact isSortedBySequence_iff.mp h
  · have hsorted : ((runs.filter fun run => !run.custom && run.replicaId = replicaId).mergeSort
        fun left right => decide (left.startSequence ≤ right.startSequence)).Pairwise
        fun left right => decide (left.startSequence ≤ right.startSequence) = true := by
      apply pairwise_mergeSort
      · simp only [decide_eq_true_eq]
        omega
      · simp only [Bool.or_eq_true, decide_eq_true_eq]
        omega
    simpa using hsorted

theorem firstOverlap_eq_none (hvalid : ∀ run ∈ runs, run.Valid ∧ run.custom = false) :
    firstOverlap runs = none ↔ runs.Pairwise IdRun.Before := by
  induction runs with
  | nil => simp [firstOverlap]
  | cons previous rest ih =>
    obtain ⟨hprevious, hrest⟩ := forall_mem_cons.mp hvalid
    cases rest with
    | nil => simp [firstOverlap]
    | cons run rest =>
      rw [firstOverlap, numberAdd_of_le (hprevious.1.sequence hprevious.2), pairwise_cons]
      by_cases hoverlap : run.startSequence < previous.startSequence + previous.length
      · rw [if_pos hoverlap]
        refine iff_of_false (by simp) fun h => ?_
        have hbefore : previous.Before run := h.1 run mem_cons_self
        rw [IdRun.Before] at hbefore
        omega
      · rw [if_neg hoverlap, ih hrest]
        constructor
        · intro h
          refine ⟨?_, h⟩
          intro later hlater
          have hpos := (hrest run mem_cons_self).1.length_pos
          cases mem_cons.mp hlater with
          | inl heq =>
            rw [heq, IdRun.Before]
            omega
          | inr hmem =>
            have hbefore : run.Before later := (pairwise_cons.mp h).1 later hmem
            rw [IdRun.Before] at hbefore ⊢
            omega
        · exact fun h => h.2

theorem firstOverlap_runsByAgent {replicaId : Text} (hvalid : ∀ run ∈ runs, run.Valid) :
    firstOverlap (runsByAgent runs replicaId) = none ↔
      (runsByAgent runs replicaId).Pairwise fun run other => List.Disjoint run.ids other.ids := by
  have hmem : ∀ run ∈ runsByAgent runs replicaId,
      run.Valid ∧ run.custom = false ∧ run.replicaId = replicaId := by
    intro run hrun
    obtain ⟨hin, hcustom, heq⟩ := mem_runsByAgent.mp hrun
    exact ⟨hvalid run hin, hcustom, heq⟩
  rw [firstOverlap_eq_none fun run hrun => ⟨(hmem run hrun).1, (hmem run hrun).2.1⟩]
  constructor
  · intro h
    apply h.imp_of_mem
    intro run other hrun hother hbefore
    obtain ⟨hrunValid, hcustom, -⟩ := hmem run hrun
    obtain ⟨hotherValid, hotherCustom, -⟩ := hmem other hother
    apply (IdRun.disjoint_iff hrunValid hotherValid).mpr
    refine ⟨fun htrue => ?_, fun _ _ _ => .inl hbefore⟩
    rw [hcustom] at htrue
    cases htrue
  · intro h
    have hboth := h.and (runsByAgent_sorted runs replicaId)
    apply hboth.imp_of_mem
    intro run other hrun hother hpair
    obtain ⟨hrunValid, hcustom, heq⟩ := hmem run hrun
    obtain ⟨hotherValid, hotherCustom, hotherEq⟩ := hmem other hother
    have hcases := ((IdRun.disjoint_iff hrunValid hotherValid).mp hpair.1).2 hcustom hotherCustom
      (heq.trans hotherEq.symm)
    have hsorted : run.startSequence ≤ other.startSequence := hpair.2
    have hotherPos := hotherValid.length_pos
    rw [IdRun.Before]
    cases hcases with
    | inl hbefore => exact hbefore
    | inr hafter => omega

namespace EventIdRunIndex

variable {runs : List IdRun}

theorem checkAgents_eq_ok {agents : List Text} : checkAgents runs agents = .ok () ↔
      ∀ agent ∈ agents, firstOverlap (runsByAgent runs agent) = none := by
  induction agents with
  | nil => simp [checkAgents]
  | cons agent rest ih =>
    rw [checkAgents, forall_mem_cons]
    cases firstOverlap (runsByAgent runs agent) with
    | none => simp [ih]
    | some run => simp

theorem checkParsedCustom_eq_ok {rest : List IdRun} (hvalid : ∀ run ∈ rest, run.Valid) :
    checkParsedCustom runs rest = .ok () := by
  induction rest with
  | nil => rfl
  | cons run rest ih =>
    obtain ⟨hrun, hrest⟩ := forall_mem_cons.mp hvalid
    have hnone : (if run.custom then parseEventId run.replicaId else none) = none := by
      cases hcustom : run.custom with
      | true => rw [if_pos rfl, (hrun.custom hcustom).2.2]
      | false => rfl
    rw [checkParsedCustom, hnone]
    exact ih hrest

theorem checkRuns_eq_ok {count runIndex eventOffset : Nat} {customIds : List Text}
    (hcount : count ≤ maxSafeInteger) (hvalid : ∀ run ∈ runs, run.Valid)
    (htiles : Tiles eventOffset runs count) :
    checkRuns count runIndex eventOffset customIds runs = .ok () ↔
      (∀ run ∈ runs, run.custom = true → run.replicaId ∉ customIds) ∧
        runs.Pairwise fun run other =>
          run.custom = true → other.custom = true → run.replicaId ≠ other.replicaId := by
  have hstop : ∀ start runs, Tiles start runs count → start ≤ count := by
    intro start runs
    induction runs generalizing start with
    | nil => exact fun h => Nat.le_of_eq h
    | cons run rest ih =>
      intro h
      have hle := ih _ h.2
      omega
  induction runs generalizing runIndex eventOffset customIds with
  | nil =>
    have heq : eventOffset = count := htiles
    simp [checkRuns, heq]
  | cons run rest ih =>
    obtain ⟨hrun, hrest⟩ := forall_mem_cons.mp hvalid
    obtain ⟨hoffset, hnext⟩ := htiles
    have hend := hstop _ _ hnext
    have hpos := hrun.length_pos
    have hsafeStart : run.startSequence ≤ maxSafeInteger := by
      cases hcustom : run.custom with
      | true =>
        rw [(hrun.custom hcustom).2.1]
        exact Nat.zero_le _
      | false =>
        have := hrun.sequence hcustom
        omega
    have hshape : (!isSafeInteger run.startSequence || !isSafeInteger run.length ||
        decide (run.length = 0) || decide (run.startEventOffset ≠ eventOffset)) = false := by
      simp only [isSafeInteger, Bool.or_eq_false_iff, Bool.not_eq_eq_eq_not, Bool.not_false,
        decide_eq_true_eq, decide_eq_false_iff_not, ne_eq, not_not]
      omega
    rw [checkRuns, if_neg hrun.replicaId_ne_nil, hshape, if_neg (by simp),
      forall_mem_cons, pairwise_cons]
    cases hcustom : run.custom with
    | true =>
      rw [(hrun.custom hcustom).1] at hend hnext ⊢
      rw [if_neg (by simp), if_neg (by omega), if_pos rfl]
      by_cases hmem : run.replicaId ∈ customIds
      · rw [if_pos hmem]
        exact iff_of_false (by simp) fun h => h.1.1 rfl hmem
      · rw [if_neg hmem]
        refine (ih hrest hnext).trans ?_
        constructor
        · intro h
          refine ⟨⟨fun _ => hmem, ?_⟩, ?_, h.2⟩
          · intro other hother hotherCustom hin
            exact h.1 other hother hotherCustom (mem_cons_of_mem _ hin)
          · intro other hother _ hotherCustom heq
            apply h.1 other hother hotherCustom
            rw [heq]
            exact mem_cons_self
        · intro h
          refine ⟨?_, h.2.2⟩
          intro other hother hotherCustom hin
          cases mem_cons.mp hin with
          | inl heq => exact h.2.1 other hother rfl hotherCustom heq.symm
          | inr hold => exact h.1.2 other hother hotherCustom hold
    | false =>
      have hsequence := hrun.sequence hcustom
      rw [if_neg (by simp), if_neg (by omega), if_neg (by simp), numberAdd_of_le hsequence,
        if_neg (by simp only [isSafeInteger, Bool.not_eq_true', decide_eq_false_iff_not,
          not_not]; omega)]
      refine (ih hrest hnext).trans ?_
      simp

theorem ids_nodup_iff (hvalid : ∀ run ∈ runs, run.Valid) : (runs.flatMap (·.ids)).Nodup ↔
      runs.Pairwise fun run other => List.Disjoint run.ids other.ids := by
  rw [nodup_flatMap]
  constructor
  · exact fun h => h.2
  · exact fun h => ⟨fun run hrun => IdRun.ids_nodup (hvalid run hrun), h⟩

theorem fromRuns_eq_ok {count : Nat} {index : EventIdRunIndex}
    (hcount : count ≤ maxSafeInteger) (hvalid : ∀ run ∈ runs, run.Valid)
    (htiles : Tiles 0 runs count) :
    fromRuns runs count = .ok index ↔ (runs.flatMap (·.ids)).Nodup ∧ index = ⟨runs, count⟩ := by
  have hruns : checkRuns count 0 0 [] runs = .ok () ↔ runs.Pairwise fun run other =>
      run.custom = true → other.custom = true → run.replicaId ≠ other.replicaId := by
    rw [checkRuns_eq_ok hcount hvalid htiles]
    simp
  have hagent : ∀ agent, firstOverlap (runsByAgent runs agent) = none ↔
      runs.Pairwise fun run other => (!run.custom && decide (run.replicaId = agent)) = true →
        (!other.custom && decide (other.replicaId = agent)) = true →
          List.Disjoint run.ids other.ids := by
    intro agent
    rw [firstOverlap_runsByAgent hvalid, ← pairwise_filter]
    apply List.Perm.pairwise_iff _ (runsByAgent_perm runs agent)
    intro run other hdisjoint id hid hother
    exact hdisjoint hother hid
  rw [ids_nodup_iff hvalid, fromRuns, checkParsedCustom_eq_ok hvalid]
  cases hcheck : checkRuns count 0 0 [] runs with
  | error error =>
    refine iff_of_false (by simp) fun h => ?_
    rw [hcheck] at hruns
    have hpairs : runs.Pairwise fun run other =>
        run.custom = true → other.custom = true → run.replicaId ≠ other.replicaId := by
      apply h.1.imp_of_mem
      intro run other hrun hother hdisjoint
      exact ((IdRun.disjoint_iff (hvalid run hrun) (hvalid other hother)).mp hdisjoint).1
    cases hruns.mpr hpairs
  | ok _ =>
    have hcustoms := hruns.mp hcheck
    cases hagents : checkAgents runs (runs.filterMap (·.agent)).eraseDups with
    | error error =>
      refine iff_of_false (by simp) fun h => ?_
      have hok : checkAgents runs (runs.filterMap (·.agent)).eraseDups = .ok () := by
        apply checkAgents_eq_ok.mpr
        intro agent _
        exact (hagent agent).mpr (h.1.imp fun hdisjoint _ _ => hdisjoint)
      rw [hagents] at hok
      cases hok
    | ok _ =>
      simp only [Except.ok.injEq, eq_comm]
      refine ⟨fun h => ⟨?_, h⟩, fun h => h.2⟩
      have hall := checkAgents_eq_ok.mp hagents
      rw [pairwise_iff_getElem]
      intro i j hi hj hlt
      have hleft := hvalid _ (getElem_mem hi)
      have hright := hvalid _ (getElem_mem hj)
      apply (IdRun.disjoint_iff hleft hright).mpr
      refine ⟨pairwise_iff_getElem.mp hcustoms i j hi hj hlt, ?_⟩
      intro hcustom hother heq
      have hmem : runs[i].replicaId ∈ (runs.filterMap (·.agent)).eraseDups := by
        rw [mem_eraseDups]
        apply mem_filterMap.mpr
        exact ⟨runs[i], getElem_mem hi, by rw [IdRun.agent, if_neg (by simp [hcustom])]⟩
      have hpairs := (hagent _).mp (hall _ hmem)
      have hdisjoint := pairwise_iff_getElem.mp hpairs i j hi hj hlt (by simp [hcustom])
        (by simp [hother, heq])
      exact ((IdRun.disjoint_iff hleft hright).mp hdisjoint).2 hcustom hother heq

section Lookup

variable {runs : List IdRun} {count : Nat}

section

variable (hvalid : ∀ run ∈ runs, run.Valid)
include hvalid

theorem find_run {start stop offset : Nat} (htiles : Tiles start runs stop) (hle : start ≤ offset) :
    ((runs.find? fun run => decide (run.startEventOffset ≤ offset) &&
        decide (offset < run.startEventOffset + run.length)).map fun run =>
      if run.custom then run.replicaId
      else formatEventId run.replicaId (run.startSequence + (offset - run.startEventOffset))) =
      (runs.flatMap (·.ids))[offset - start]? := by
  induction runs generalizing start with
  | nil => rfl
  | cons run rest ih =>
    obtain ⟨hrun, hrest⟩ := forall_mem_cons.mp hvalid
    obtain ⟨hoffset, hnext⟩ := htiles
    have hlength := IdRun.length_ids hrun
    rw [flatMap_cons, find?_cons, hoffset]
    by_cases hlt : offset < start + run.length
    · rw [show (decide (start ≤ offset) && decide (offset < start + run.length)) = true by
        simp [hle, hlt], getElem?_append_left (by omega)]
      simp only [Option.map_some]
      cases hcustom : run.custom with
      | true =>
        have hzero : offset - start = 0 := by
          have hone := (hrun.custom hcustom).1
          omega
        rw [if_pos rfl, hzero, IdRun.ids, if_pos hcustom]
        rfl
      | false =>
        rw [if_neg (by simp), IdRun.ids, if_neg (by simp [hcustom]), getElem?_map,
          getElem?_range (by omega), hoffset]
        rfl
    · rw [show (decide (start ≤ offset) && decide (offset < start + run.length)) = false by
        simp [hlt], getElem?_append_right (by omega), hlength]
      simp only
      rw [ih hrest hnext (by omega), Nat.sub_sub]

theorem length_ids_of_tiles {start stop : Nat}
    (htiles : Tiles start runs stop) : start + (runs.flatMap (·.ids)).length = stop := by
  induction runs generalizing start with
  | nil => exact htiles
  | cons run rest ih =>
    obtain ⟨hrun, hrest⟩ := forall_mem_cons.mp hvalid
    have hall := ih hrest htiles.2
    rw [flatMap_cons, length_append, IdRun.length_ids hrun]
    omega

theorem idAt_eq (htiles : Tiles 0 runs count) (offset : Nat) :
    idAt ⟨runs, count⟩ offset = (runs.flatMap (·.ids))[offset]? := by
  have hcount := length_ids_of_tiles hvalid htiles
  rw [idAt]
  by_cases hle : count ≤ offset
  · rw [if_pos hle, getElem?_eq_none (by omega)]
  · rw [if_neg hle]
    exact find_run hvalid htiles (Nat.zero_le _)

omit hvalid in
theorem canonicalOffset_eq {ordered : List IdRun} {run : IdRun} {sequence : Nat}
    (hbefore : ordered.Pairwise IdRun.Before) (hmem : run ∈ ordered)
    (hsafe : run.startSequence + run.length ≤ maxSafeInteger + 1)
    (hle : run.startSequence ≤ sequence) (hlt : sequence < run.startSequence + run.length) :
    canonicalOffset ordered sequence =
      some (run.startEventOffset + (sequence - run.startSequence)) := by
  obtain ⟨before, after, rfl⟩ := append_of_mem hmem
  obtain ⟨-, hown, hcross⟩ := pairwise_append.mp hbefore
  obtain ⟨hafter, -⟩ := pairwise_cons.mp hown
  have hfirst : firstRunAfter (before ++ run :: after) sequence = before.length + 1 := by
    have hearlier : ∀ other ∈ before, decide (sequence < other.startSequence) = false := by
      intro other hother
      have hless : other.Before run := hcross other hother run mem_cons_self
      rw [IdRun.Before] at hless
      rw [decide_eq_false_iff_not]
      omega
    rw [firstRunAfter, findIdx_append, findIdx_eq_length_of_false hearlier,
      if_neg (Nat.lt_irrefl _), findIdx_cons, decide_eq_false (by omega)]
    simp only [cond_false]
    cases after with
    | nil =>
      simp only [findIdx_nil]
      omega
    | cons next rest =>
      have hless : run.Before next := hafter next mem_cons_self
      rw [IdRun.Before] at hless
      rw [findIdx_cons, decide_eq_true (by omega)]
      simp only [cond_true]
      omega
  rw [canonicalOffset, hfirst]
  simp only [getElem?_append_right (Nat.le_refl _), Nat.sub_self, getElem?_cons_zero,
    numberAdd_of_le hsafe, if_pos hlt]

theorem localVersionOf_of_idAt (hnodup : (runs.flatMap (·.ids)).Nodup) {offset : Nat} {id : Text}
    (h : idAt ⟨runs, count⟩ offset = some id) : localVersionOf ⟨runs, count⟩ id = some offset := by
  have hpairs := (ids_nodup_iff hvalid).mp hnodup
  rw [idAt] at h
  split at h
  · cases h
  obtain ⟨run, hfind, hid⟩ := Option.map_eq_some_iff.mp h
  have hmem : run ∈ runs := mem_of_find?_eq_some hfind
  have hrun := hvalid run hmem
  have hrange := find?_some hfind
  simp only [Bool.and_eq_true, decide_eq_true_eq] at hrange
  cases hcustom : run.custom with
  | true =>
    rw [if_pos hcustom] at hid
    have hone := (hrun.custom hcustom).1
    rw [localVersionOf, ← hid, (hrun.custom hcustom).2.2]
    simp only
    cases hcustomFind : runs.find? fun other =>
        other.custom && decide (other.replicaId = run.replicaId) with
    | none =>
      have hnot := find?_eq_none.mp hcustomFind run hmem
      simp [hcustom] at hnot
    | some other =>
      have hother := mem_of_find?_eq_some hcustomFind
      have hsame := find?_some hcustomFind
      simp only [Bool.and_eq_true, decide_eq_true_eq] at hsame
      have heq : other = run := by
        by_contra hne
        have hsymm : Std.Symm fun run other : IdRun => List.Disjoint run.ids other.ids :=
          ⟨fun _ _ hdisjoint _ hleft hright => hdisjoint hright hleft⟩
        have hdisjoint := hpairs.forall hother hmem hne
        exact ((IdRun.disjoint_iff (hvalid other hother) hrun).mp hdisjoint).1 hsame.1
          hcustom hsame.2
      rw [heq, Option.map_some]
      congr 1
      omega
  | false =>
    rw [if_neg (by simp [hcustom])] at hid
    have hsequence := hrun.sequence hcustom
    have hparse := parseEventId_format hrun.replicaId_ne_nil
      (show run.startSequence + (offset - run.startEventOffset) ≤ maxSafeInteger by omega)
    rw [hid] at hparse
    have hordered : (runsByAgent runs run.replicaId).Pairwise IdRun.Before := by
      apply (firstOverlap_eq_none fun other hother =>
        ⟨hvalid other (mem_runsByAgent.mp hother).1, (mem_runsByAgent.mp hother).2.1⟩).mp
      apply (firstOverlap_runsByAgent hvalid).mpr
      apply (List.Perm.pairwise_iff _ (runsByAgent_perm runs run.replicaId)).mpr
      · exact hpairs.filter _
      · intro left right hdisjoint shared hleft hright
        exact hdisjoint hright hleft
    rw [localVersionOf, hparse]
    simp only
    rw [canonicalOffset_eq hordered (mem_runsByAgent.mpr ⟨hmem, hcustom, rfl⟩) hsequence
      (by omega) (by omega)]
    simp only
    congr 1
    omega

end

end Lookup

end EventIdRunIndex

end Softmaple.Codec
