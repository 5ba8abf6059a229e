import Softmaple.Graph.EventIdRunIndex

/-!
What an index of event IDs holds, and what it answers: local versions and IDs are
inverse to one another below every limit.
-/
namespace Softmaple.Graph

open List

open Codec (parseEventId formatEventId numberAdd numberAdd_of_le)
open Tiling (Tiles Covers Apart Splits)

theorem lt_numberAdd_iff {sequence a b : Nat} (hsafe : sequence ≤ maxSafeInteger)
    (h : a + b ≤ maxSafeInteger + 2) : sequence < numberAdd a b ↔ sequence < a + b := by
  have hmax : maxSafeInteger = 9007199254740991 := rfl
  unfold numberAdd
  dsimp only
  split
  · rfl
  · split <;> omega

namespace EventIdRun

def idOf (run : EventIdRun) (offset : Nat) : Text :=
  if run.custom then run.replicaId
  else formatEventId run.replicaId (run.startSequence + (offset - run.startEventOffset))

def ids (run : EventIdRun) : List Text :=
  if run.custom then [run.replicaId]
  else (List.range run.length).map fun place =>
    formatEventId run.replicaId (run.startSequence + place)

def Holds (run : EventIdRun) (agent sequence : Nat) : Prop :=
  run.agent = some agent ∧ Covers startSequence length run sequence

/-- The run of a canonical ID names its agent and ends by the sequence `last`. A custom run
whose ID parses has the parts of it. -/
structure Sound (agents : AgentTable) (last : Nat) (run : EventIdRun) : Prop where
  length_pos : 0 < run.length
  canonical : run.custom = false → run.startSequence + run.length ≤ last + 1 ∧
    ∃ agent, run.agent = some agent ∧ agents.nameOf agent = some run.replicaId
  custom : run.custom = true → run.length = 1
  parsed : run.custom = true → ∀ agent, run.agent = some agent →
    ∃ replicaId, agents.nameOf agent = some replicaId ∧
      parseEventId run.replicaId = some (replicaId, run.startSequence)
  unparsed : run.custom = true → run.agent = none → parseEventId run.replicaId = none

variable {run : EventIdRun} {agents later : AgentTable} {last offset : Nat}

theorem Sound.extends (h : run.Sound agents last) (hlater : agents.Extends later) :
    run.Sound later last where
  length_pos := h.length_pos
  canonical := by
    intro hcustom
    obtain ⟨hend, agent, hagent, hname⟩ := h.canonical hcustom
    exact ⟨hend, agent, hagent, hlater.nameOf hname⟩
  custom := h.custom
  parsed := by
    intro hcustom agent hagent
    obtain ⟨replicaId, hname, hparse⟩ := h.parsed hcustom agent hagent
    exact ⟨replicaId, hlater.nameOf hname, hparse⟩
  unparsed := h.unparsed

theorem Sound.length_ids (h : run.Sound agents last) : run.ids.length = run.length := by
  unfold ids
  split
  · rename_i hcustom
    rw [h.custom hcustom, length_singleton]
  · rw [length_map, length_range]

theorem Sound.getElem?_ids (h : run.Sound agents last)
    (hcovers : Covers startEventOffset length run offset) :
    run.ids[offset - run.startEventOffset]? = some (run.idOf offset) := by
  obtain ⟨hstart, hend⟩ := hcovers
  unfold ids idOf
  split
  · rename_i hcustom
    have hlength := h.custom hcustom
    rw [show offset - run.startEventOffset = 0 by omega]
    rfl
  · rw [getElem?_map, getElem?_range (by omega)]
    rfl

theorem containsOffset_iff : containsOffset run offset = true ↔
    Covers startEventOffset length run offset := by
  simp [containsOffset, Covers]

end EventIdRun

section Sequences

variable {runs : List EventIdRun} {sequence : Nat} {run : EventIdRun}

section

variable (h : Apart EventIdRun.startSequence EventIdRun.length runs)
include h

theorem firstRunAfter_splits :
    Splits EventIdRun.startSequence runs sequence (firstRunAfter runs sequence) := by
  unfold firstRunAfter
  cases hlast : runs.getLast? with
  | none =>
    rw [getLast?_eq_none_iff.mp hlast]
    exact ⟨Nat.le_refl _, fun _ _ hlt => absurd hlt (Nat.not_lt_zero _), fun _ _ _ h => nomatch h⟩
  | some last =>
    have hend : ∀ (place : Nat) (item : EventIdRun), runs.length ≤ place →
        runs[place]? = some item → sequence < item.startSequence := by
      intro place item hle hget
      rw [getElem?_eq_none hle] at hget
      cases hget
    dsimp only
    split
    · rename_i hstarts
      refine ⟨Nat.le_refl _, fun place item hlt hget => ?_, hend⟩
      rw [getLast?_eq_getElem?] at hlast
      obtain hbefore | heq := Nat.lt_or_eq_of_le (Nat.le_sub_one_of_lt hlt)
      · obtain ⟨hplace, rfl⟩ := List.getElem?_eq_some_iff.mp hget
        obtain ⟨hlastPlace, rfl⟩ := List.getElem?_eq_some_iff.mp hlast
        exact Nat.le_trans
          (pairwise_iff_getElem.mp h.sorted _ _ hplace hlastPlace hbefore) hstarts
      · rw [heq, hlast] at hget
        rwa [← Option.some.inj hget]
    · exact Tiling.firstAfter_splits h.sorted (Nat.zero_le _) (Nat.le_refl _)
        (fun _ _ hlt => absurd hlt (Nat.not_lt_zero _)) hend

theorem runUpTo_eq_some :
    (runUpTo runs sequence = some run ∧ sequence < run.startSequence + run.length) ↔
      run ∈ runs ∧ Covers EventIdRun.startSequence EventIdRun.length run sequence := by
  have hsplits := @firstRunAfter_splits _ sequence h
  unfold runUpTo
  constructor
  · rintro ⟨hrun, hend⟩
    cases hfirst : firstRunAfter runs sequence with
    | zero =>
      rw [hfirst] at hrun
      cases hrun
    | succ before =>
      rw [hfirst] at hrun
      have hmem : run ∈ runs := mem_of_getElem? hrun
      exact ⟨hmem, (hsplits.covers_iff h hmem).mpr ⟨before, hfirst, hrun, hend⟩⟩
  · rintro ⟨hmem, hcovers⟩
    obtain ⟨before, hfirst, hget, hend⟩ := (hsplits.covers_iff h hmem).mp hcovers
    rw [hfirst]
    exact ⟨hget, hend⟩

omit h in
theorem runUpTo_mem (h : runUpTo runs sequence = some run) : run ∈ runs := by
  unfold runUpTo at h
  cases hfirst : firstRunAfter runs sequence with
  | zero =>
    rw [hfirst] at h
    cases h
  | succ before =>
    rw [hfirst] at h
    exact mem_of_getElem? h

theorem canonicalOffset_eq_some
    (hend : ∀ run ∈ runs, run.startSequence + run.length ≤ maxSafeInteger + 2)
    (hsafe : sequence ≤ maxSafeInteger) {offset : Nat} :
    canonicalOffset runs sequence = some offset ↔
      ∃ run ∈ runs, Covers EventIdRun.startSequence EventIdRun.length run sequence ∧
        offset = run.startEventOffset + (sequence - run.startSequence) := by
  unfold canonicalOffset
  constructor
  · intro hoffset
    cases hrun : runUpTo runs sequence with
    | none =>
      rw [hrun] at hoffset
      cases hoffset
    | some run =>
      rw [hrun] at hoffset
      dsimp only at hoffset
      split at hoffset
      · rename_i hlt
        have hlt := (lt_numberAdd_iff hsafe (hend run (runUpTo_mem hrun))).mp hlt
        obtain ⟨hin, hcovers⟩ := (runUpTo_eq_some h).mp ⟨hrun, hlt⟩
        exact ⟨run, hin, hcovers, (Option.some.inj hoffset).symm⟩
      · cases hoffset
  · rintro ⟨run, hin, hcovers, rfl⟩
    obtain ⟨hrun, hlt⟩ := (runUpTo_eq_some h).mpr ⟨hin, hcovers⟩
    rw [hrun]
    exact if_pos ((lt_numberAdd_iff hsafe (hend run hin)).mpr hlt)

end

end Sequences

/-- In the list of an agent one run ends before the next starts. Where the run was indexed
after the next one, it may grow up to it only. -/
def Follows (runs : List EventIdRun) (place next : Nat) : Prop :=
  ∀ run follower, runs[place]? = some run → runs[next]? = some follower →
    run.startSequence + run.length ≤ follower.startSequence ∧
      (next < place → ∃ limit, run.sequenceLimit = some limit ∧ limit ≤ follower.startSequence)

namespace EventIdRunIndex

/-- The runs end at the offset `stop` and are filed by agent and by custom ID. -/
structure Filed (last : Nat) (index : EventIdRunIndex) (stop : Nat) : Prop where
  agents : index.agents.Sound
  tiles : Tiles EventIdRun.startEventOffset EventIdRun.length 0 index.runs stop
  sound : ∀ run ∈ index.runs, run.Sound index.agents last
  byAgent : ∀ agent place, place ∈ index.runsByAgent agent ↔
    ∃ run, index.runs[place]? = some run ∧ run.custom = false ∧ run.agent = some agent
  customOffsets : ∀ id offset, index.customOffsets.get? id = some offset ↔
    ∃ run ∈ index.runs, run.custom = true ∧ run.replicaId = id ∧ run.startEventOffset = offset

structure Placed (last : Nat) (index : EventIdRunIndex) (stop : Nat) : Prop where
  filed : index.Filed last stop
  follows : ∀ agent, (index.runsByAgent agent).Pairwise (Follows index.runs)
  apart : ∀ run ∈ index.runs, ∀ other ∈ index.runs, run.custom = true → other.custom = false →
    ∀ agent, run.agent = some agent → ¬ other.Holds agent run.startSequence

structure Indexed (last : Nat) (index : EventIdRunIndex) : Prop where
  placed : index.Placed last index.eventCount
  eventCount : index.eventCount ≤ maxSafeInteger + 1
  parsed : ∀ run, run ∈ index.parsedCustomRuns ↔
    run ∈ index.runs ∧ run.custom = true ∧ run.agent.isSome

def ids (index : EventIdRunIndex) : List Text := index.runs.flatMap EventIdRun.ids

variable {index : EventIdRunIndex} {last stop agent offset limit : Nat} {run : EventIdRun}
  {id replicaId : Text}

theorem Filed.mem_agentRuns (h : index.Filed last stop) : run ∈ index.agentRuns agent ↔
      run ∈ index.runs ∧ run.custom = false ∧ run.agent = some agent := by
  unfold agentRuns
  rw [mem_filterMap]
  constructor
  · rintro ⟨place, hplace, hget⟩
    obtain ⟨found, hfound, hcanonical⟩ := (h.byAgent agent place).mp hplace
    obtain rfl := Option.some.inj (hfound.symm.trans hget)
    exact ⟨mem_of_getElem? hget, hcanonical⟩
  · rintro ⟨hmem, hcanonical⟩
    obtain ⟨place, hget⟩ := mem_iff_getElem?.mp hmem
    exact ⟨place, (h.byAgent agent place).mpr ⟨run, hget, hcanonical⟩, hget⟩

theorem Filed.getElem?_ids (h : index.Filed last stop) : index.ids[offset]? = some id ↔
      ∃ run ∈ index.runs, Covers EventIdRun.startEventOffset EventIdRun.length run offset ∧
        run.idOf offset = id := by
  have hplaces := @Tiles.getElem?_flatMap _ _ _ _ _ _ h.tiles _ _ _ id
    (fun run hrun => (h.sound run hrun).length_ids) (Nat.zero_le offset)
  rw [Nat.sub_zero] at hplaces
  rw [ids, hplaces]
  refine exists_congr fun run => and_congr_right fun hrun => and_congr_right fun hcovers => ?_
  rw [(h.sound run hrun).getElem?_ids hcovers, Option.some.injEq]

theorem Filed.length_ids (h : index.Filed last stop) : index.ids.length = stop := by
  apply Nat.le_antisymm
  · by_contra hlt
    obtain ⟨id, hid⟩ : ∃ id, index.ids[stop]? = some id :=
      ⟨_, getElem?_eq_getElem (not_le.mp hlt)⟩
    obtain ⟨run, hrun, ⟨-, hcovers⟩, -⟩ := h.getElem?_ids.mp hid
    have := (h.tiles.mem hrun).2.2
    omega
  · by_contra hlt
    obtain ⟨index, run, hget, hcovers⟩ := h.tiles.exists_covers (Nat.zero_le _) (not_le.mp hlt)
    have hid := h.getElem?_ids.mpr ⟨run, mem_of_getElem? hget, hcovers, rfl⟩
    rw [getElem?_eq_none (Nat.le_refl _)] at hid
    cases hid

theorem agentRuns_apart (hfollows : (index.runsByAgent agent).Pairwise (Follows index.runs)) :
    Apart EventIdRun.startSequence EventIdRun.length (index.agentRuns agent) := by
  unfold agentRuns Apart
  rw [pairwise_filterMap]
  apply hfollows.imp
  intro place next hfollows run hrun follower hfollower
  exact (hfollows run follower hrun hfollower).1

theorem Placed.agentRuns_apart (h : index.Placed last stop) (agent : Nat) :
    Apart EventIdRun.startSequence EventIdRun.length (index.agentRuns agent) :=
  EventIdRunIndex.agentRuns_apart (h.follows agent)

theorem Placed.canonicalOffset_eq_some (h : index.Placed last stop) (hlast : last ≤ maxSafeInteger + 1)
    {sequence : Nat} (hsafe : sequence ≤ maxSafeInteger) :
    canonicalOffset (index.agentRuns agent) sequence = some offset ↔
      ∃ run ∈ index.runs, run.custom = false ∧ run.Holds agent sequence ∧
        offset = run.startEventOffset + (sequence - run.startSequence) := by
  rw [Graph.canonicalOffset_eq_some (h.agentRuns_apart agent) ?_ hsafe]
  · constructor
    · rintro ⟨run, hrun, hcovers, hoffset⟩
      obtain ⟨hmem, hcustom, hagent⟩ := h.filed.mem_agentRuns.mp hrun
      exact ⟨run, hmem, hcustom, ⟨hagent, hcovers⟩, hoffset⟩
    · rintro ⟨run, hmem, hcustom, ⟨hagent, hcovers⟩, hoffset⟩
      exact ⟨run, h.filed.mem_agentRuns.mpr ⟨hmem, hcustom, hagent⟩, hcovers, hoffset⟩
  · intro run hrun
    obtain ⟨hmem, hcustom, -⟩ := h.filed.mem_agentRuns.mp hrun
    have hend := ((h.filed.sound run hmem).canonical hcustom).1
    omega

theorem Indexed.runBefore_spec (h : index.Indexed last) (hlimit : limit ≤ index.eventCount)
    (hoffset : offset < limit) :
    ∃ run ∈ index.runs, Covers EventIdRun.startEventOffset EventIdRun.length run offset ∧
      ∃ hint, index.runBefore offset limit =
        (some run, { index with offsetRunHint := hint }) := by
  have htiles := h.placed.filed.tiles
  have hcount := h.eventCount
  obtain ⟨place, run, hget, hcovers⟩ :=
    htiles.exists_covers (Nat.zero_le offset) (Nat.lt_of_lt_of_le hoffset hlimit)
  have hsafe : isSafeInteger offset = true := by
    rw [isSafeInteger, decide_eq_true_eq]
    omega
  have hnone : ¬ (isSafeInteger offset = false ∨ limit ≤ offset) := by
    rw [hsafe]
    simp [hoffset]
  unfold runBefore
  rw [if_neg hnone]
  split
  · rename_i hsingle
    have hone := htiles.single (by omega) hget
    obtain ⟨hstart, hend⟩ := hcovers
    obtain rfl : place = offset := by omega
    rw [hget]
    exact ⟨run, mem_of_getElem? hget, ⟨hstart, hend⟩, index.offsetRunHint, rfl⟩
  · cases hhint : index.runs[index.offsetRunHint]?.filter (containsOffset · offset) with
    | some hinted =>
      obtain ⟨hgetHint, hcontains⟩ := Option.filter_eq_some_iff.mp hhint
      exact ⟨hinted, mem_of_getElem? hgetHint,
        EventIdRun.containsOffset_iff.mp hcontains, index.offsetRunHint, rfl⟩
    | none =>
      cases hnext : index.runs[index.offsetRunHint + 1]?.filter (containsOffset · offset) with
      | some next =>
        obtain ⟨hgetNext, hcontains⟩ := Option.filter_eq_some_iff.mp hnext
        exact ⟨next, mem_of_getElem? hgetNext,
          EventIdRun.containsOffset_iff.mp hcontains, index.offsetRunHint + 1, rfl⟩
      | none =>
        rw [htiles.search_eq hget hcovers (Nat.zero_le _)
          (List.getElem?_eq_some_iff.mp hget).1 (Nat.le_refl _)]
        exact ⟨run, mem_of_getElem? hget, hcovers, place, rfl⟩

theorem idAt_eq_none (hoffset : limit ≤ offset) : index.idAt offset limit = (none, index) := by
  rw [idAt, runBefore, if_pos (.inr hoffset)]

theorem Indexed.idAt_spec (h : index.Indexed last) (hlast : last ≤ maxSafeInteger + 1)
    (hlimit : limit ≤ index.eventCount) :
    (index.idAt offset limit).1 = (index.ids.take limit)[offset]? ∧
      ∃ hint, (index.idAt offset limit).2 = { index with offsetRunHint := hint } := by
  obtain hoffset | hoffset := Nat.lt_or_ge offset limit
  · obtain ⟨run, hrun, hcovers, hint, hlooked⟩ := h.runBefore_spec hlimit hoffset
    rw [idAt, hlooked, getElem?_take_of_lt hoffset,
      h.placed.filed.getElem?_ids.mpr ⟨run, hrun, hcovers, rfl⟩]
    refine ⟨congrArg some ?_, hint, rfl⟩
    unfold EventIdRun.idOf
    cases hcustom : run.custom with
    | true => rfl
    | false =>
      have hend := ((h.placed.filed.sound run hrun).canonical hcustom).1
      obtain ⟨hstart, hstop⟩ := hcovers
      rw [if_neg Bool.false_ne_true, if_neg Bool.false_ne_true, numberAdd_of_le (by omega)]
  · rw [idAt_eq_none hoffset, getElem?_eq_none]
    · exact ⟨rfl, index.offsetRunHint, rfl⟩
    · rw [length_take]
      omega

theorem Filed.parse_idOf (h : index.Filed last stop) (hlast : last ≤ maxSafeInteger)
    (hrun : run ∈ index.runs) (hcustom : run.custom = false)
    (hcovers : Covers EventIdRun.startEventOffset EventIdRun.length run offset) :
    parseEventId (run.idOf offset) =
      some (run.replicaId, run.startSequence + (offset - run.startEventOffset)) := by
  obtain ⟨hend, agent, -, hname⟩ := (h.sound run hrun).canonical hcustom
  obtain ⟨hstart, hstop⟩ := hcovers
  unfold EventIdRun.idOf
  rw [if_neg (by simp [hcustom])]
  exact Codec.parseEventId_format (h.agents.name_ne_nil hname) (by omega)

theorem resolvePrefix_parse (hsound : index.agents.Sound) {sequence : Nat}
    (hparse : parseEventId id = some (replicaId, sequence)) :
    (index.agents.resolvePrefix id replicaId.length).1 = index.agents.numberOf replicaId ∧
      index.agents.Extends (index.agents.resolvePrefix id replicaId.length).2 := by
  have hid := (Codec.parseEventId_eq_some hparse).1
  have htake : id.take replicaId.length = replicaId := by
    rw [hid]
    exact take_left
  have hlength : replicaId.length ≤ id.length := by
    rw [hid, formatEventId, length_append]
    omega
  obtain ⟨hnumber, hnames, hresolved⟩ := AgentTable.resolvePrefix_spec hsound hlength
  rw [htake] at hnumber
  exact ⟨hnumber, hnames ▸ prefix_refl _, hresolved⟩

theorem Filed.listed_iff (h : index.Filed last stop) {version : Nat} :
    (index.ids.take limit)[version]? = some id ↔ version < limit ∧ ∃ run ∈ index.runs,
        Covers EventIdRun.startEventOffset EventIdRun.length run version ∧
          run.idOf version = id := by
  rw [getElem?_take]
  split
  · rename_i hlt
    rw [h.getElem?_ids]
    simp [hlt]
  · rename_i hge
    simp [hge]

theorem Filed.customOffset_iff (h : index.Filed last stop) {version : Nat} :
    (index.customOffsets.get? id).filter (· < limit) = some version ↔
      version < limit ∧ ∃ run ∈ index.runs, run.custom = true ∧
        Covers EventIdRun.startEventOffset EventIdRun.length run version ∧
          run.idOf version = id := by
  rw [Option.filter_eq_some_iff, h.customOffsets, decide_eq_true_eq, and_comm]
  refine and_congr_right fun hlt => exists_congr fun run => and_congr_right fun hrun =>
    and_congr_right fun hcustom => ?_
  have hone := (h.sound run hrun).custom hcustom
  rw [EventIdRun.idOf, if_pos hcustom, Covers]
  constructor
  · rintro ⟨hid, rfl⟩
    exact ⟨⟨Nat.le_refl _, by omega⟩, hid⟩
  · rintro ⟨⟨hstart, hstop⟩, hid⟩
    exact ⟨hid, by omega⟩

theorem Filed.agent_eq (h : index.Filed last stop) (hrun : run ∈ index.runs)
    (hcustom : run.custom = false) (hagent : run.agent = some agent) :
    index.agents.nameOf agent = some run.replicaId := by
  obtain ⟨-, other, hother, hname⟩ := (h.sound run hrun).canonical hcustom
  obtain rfl := Option.some.inj (hagent.symm.trans hother)
  exact hname

section

variable (h : index.Placed last stop)
include h

theorem Placed.canonicalOffset_iff (hlast : last ≤ maxSafeInteger)
    {sequence version : Nat} (hparse : parseEventId id = some (replicaId, sequence)) :
    ((index.agents.numberOf replicaId).bind fun agent =>
        canonicalOffset (index.agentRuns agent) sequence) = some version ↔
      ∃ run ∈ index.runs, run.custom = false ∧
        Covers EventIdRun.startEventOffset EventIdRun.length run version ∧
          run.idOf version = id := by
  have hfiled := h.filed
  obtain ⟨hid, -, hsafe⟩ := Codec.parseEventId_eq_some hparse
  rw [Option.bind_eq_some_iff]
  constructor
  · rintro ⟨agent, hagent, hoffset⟩
    obtain ⟨run, hrun, hcustom, ⟨hholds, hstart, hstop⟩, rfl⟩ :=
      (h.canonicalOffset_eq_some (by omega) hsafe).mp hoffset
    have hname := hfiled.agent_eq hrun hcustom hholds
    have hreplica := (AgentTable.numberOf_eq_some hfiled.agents).mp hagent
    rw [hname] at hreplica
    refine ⟨run, hrun, hcustom, ⟨by omega, by omega⟩, ?_⟩
    rw [EventIdRun.idOf, if_neg (by simp [hcustom]), hid, Option.some.inj hreplica,
      Nat.add_sub_cancel_left, Nat.add_sub_cancel' hstart]
  · rintro ⟨run, hrun, hcustom, hcovers, hsame⟩
    have hparsed := hfiled.parse_idOf hlast hrun hcustom hcovers
    rw [hsame, hparse] at hparsed
    obtain ⟨hreplica, hsequence⟩ := Prod.mk.inj (Option.some.inj hparsed)
    obtain ⟨-, agent, hagent, hname⟩ := (hfiled.sound run hrun).canonical hcustom
    obtain ⟨hstart, hstop⟩ := hcovers
    refine ⟨agent, ?_, (h.canonicalOffset_eq_some (by omega) hsafe).mpr
      ⟨run, hrun, hcustom, ⟨hagent, by omega, by omega⟩, by omega⟩⟩
    rw [AgentTable.numberOf_eq_some hfiled.agents, hname, hreplica]

theorem Placed.custom_eq (hlast : last ≤ maxSafeInteger)
    {other : EventIdRun} {version : Nat} (hrun : run ∈ index.runs) (hother : other ∈ index.runs)
    (hcustom : run.custom = true) (hcanonical : other.custom = false)
    (hcovers : Covers EventIdRun.startEventOffset EventIdRun.length other version) :
    run.replicaId ≠ other.idOf version := by
  have hfiled := h.filed
  intro heq
  have hparse := hfiled.parse_idOf hlast hother hcanonical hcovers
  rw [← heq] at hparse
  cases hagent : run.agent with
  | none =>
    rw [(hfiled.sound run hrun).unparsed hcustom hagent] at hparse
    cases hparse
  | some agent =>
    obtain ⟨replicaId, hname, hparsed⟩ := (hfiled.sound run hrun).parsed hcustom agent hagent
    rw [hparsed] at hparse
    obtain ⟨hreplica, hsequence⟩ := Prod.mk.inj (Option.some.inj hparse)
    obtain ⟨-, holder, hholder, hholderName⟩ := (hfiled.sound other hother).canonical hcanonical
    rw [hreplica] at hname
    obtain rfl := AgentTable.nameOf_injective hfiled.agents hname hholderName
    obtain ⟨hstart, hstop⟩ := hcovers
    exact h.apart run hrun other hother hcustom hcanonical agent hagent
      ⟨hholder, by omega, by omega⟩

theorem Placed.localVersionOf_parsed {sequence : Nat}
    (hparse : parseEventId id = some (replicaId, sequence)) :
    ∃ agents, index.agents.Extends agents ∧ index.localVersionOf id limit =
      (match (index.agents.numberOf replicaId).bind fun agent =>
          canonicalOffset (index.agentRuns agent) sequence with
        | some offset => if offset < limit then some offset else none
        | none => (index.customOffsets.get? id).filter (· < limit),
        { index with agents := agents }) := by
  obtain ⟨hnumber, hextends⟩ := resolvePrefix_parse h.filed.agents hparse
  refine ⟨_, hextends, ?_⟩
  unfold localVersionOf
  rw [hparse]
  dsimp only
  rw [hnumber]
  cases (index.agents.numberOf replicaId).bind fun agent =>
    canonicalOffset (index.agentRuns agent) sequence <;> rfl

theorem Placed.localVersionOf_spec (hlast : last ≤ maxSafeInteger) :
    (∀ version, (index.localVersionOf id limit).1 = some version ↔
      (index.ids.take limit)[version]? = some id) ∧ ∃ agents, index.agents.Extends agents ∧
        (index.localVersionOf id limit).2 = { index with agents := agents } := by
  have hfiled := h.filed
  -- Without a canonical run for the ID, only a custom run can list it.
  have hcustom : (∀ version, ∀ run ∈ index.runs, run.custom = false →
      Covers EventIdRun.startEventOffset EventIdRun.length run version → run.idOf version ≠ id) →
      ∀ version, (index.customOffsets.get? id).filter (· < limit) = some version ↔
        (index.ids.take limit)[version]? = some id := by
    intro hnone version
    rw [hfiled.customOffset_iff, hfiled.listed_iff]
    refine and_congr_right fun _ => exists_congr fun run => and_congr_right fun hrun => ?_
    refine ⟨fun hfound => hfound.2, fun hfound => ⟨?_, hfound⟩⟩
    cases hcustom : run.custom with
    | true => rfl
    | false => exact absurd hfound.2 (hnone version run hrun hcustom hfound.1)
  cases hparse : parseEventId id with
  | none =>
    rw [localVersionOf, hparse]
    refine ⟨hcustom fun version run hrun hcanonical hcovers heq => ?_, index.agents,
      hfiled.agents.refl, rfl⟩
    have hsome := hfiled.parse_idOf hlast hrun hcanonical hcovers
    rw [heq, hparse] at hsome
    cases hsome
  | some pair =>
    obtain ⟨replicaId, sequence⟩ := pair
    have hcanonical := fun version => @Placed.canonicalOffset_iff _ _ _ _ _ h hlast _ version hparse
    obtain ⟨agents, hextends, hlocal⟩ := @Placed.localVersionOf_parsed _ _ _ limit _ _ h _ hparse
    rw [hlocal]
    refine ⟨?_, agents, hextends, rfl⟩
    cases hoffset : ((index.agents.numberOf replicaId).bind fun agent =>
        canonicalOffset (index.agentRuns agent) sequence) with
    | none =>
      refine hcustom fun version run hrun hcustom hcovers heq => ?_
      have hsome := (hcanonical version).mpr ⟨run, hrun, hcustom, hcovers, heq⟩
      rw [hoffset] at hsome
      cases hsome
    | some offset =>
      obtain ⟨run, hrun, hcustom, hcovers, hsame⟩ := (hcanonical offset).mp hoffset
      intro version
      rw [hfiled.listed_iff]
      dsimp only
      constructor
      · intro hsome
        split at hsome
        · rename_i hlt
          obtain rfl := Option.some.inj hsome
          exact ⟨hlt, run, hrun, hcovers, hsame⟩
        · cases hsome
      · rintro ⟨hlt, other, hother, hcovers', hsame'⟩
        cases hcustom' : other.custom with
        | false =>
          have hversion := (hcanonical version).mpr ⟨other, hother, hcustom', hcovers', hsame'⟩
          rw [hoffset] at hversion
          obtain rfl := Option.some.inj hversion
          exact if_pos hlt
        | true =>
          rw [EventIdRun.idOf, if_pos hcustom', ← hsame] at hsame'
          exact absurd hsame' (h.custom_eq hlast hother hrun hcustom' hcustom hcovers)

end

def IsMaximumSequence (ids : List Text) (replicaId : Text) (maximum : Nat) : Prop :=
  (∃ id ∈ ids, parseEventId id = some (replicaId, maximum)) ∧
    ∀ id ∈ ids, ∀ sequence, parseEventId id = some (replicaId, sequence) → sequence ≤ maximum

theorem Filed.exists_sequence_iff (h : index.Filed last stop) (hlast : last ≤ maxSafeInteger)
    {sequence : Nat} :
    (∃ id ∈ index.ids.take limit, parseEventId id = some (replicaId, sequence)) ↔
      ∃ run ∈ index.runs, ∃ agent, index.agents.numberOf replicaId = some agent ∧
        run.Holds agent sequence ∧
          run.startEventOffset + (sequence - run.startSequence) < limit := by
  constructor
  · rintro ⟨id, hid, hparse⟩
    obtain ⟨version, hversion⟩ := mem_iff_getElem?.mp hid
    obtain ⟨hlt, run, hrun, hcovers, rfl⟩ := h.listed_iff.mp hversion
    have hboth := hcovers
    obtain ⟨hstart, hstop⟩ := hcovers
    refine ⟨run, hrun, ?_⟩
    cases hcustom : run.custom with
    | false =>
      rw [h.parse_idOf hlast hrun hcustom hboth] at hparse
      obtain ⟨hreplica, hsequence⟩ := Prod.mk.inj (Option.some.inj hparse)
      obtain ⟨-, agent, hagent, hname⟩ := (h.sound run hrun).canonical hcustom
      rw [hreplica] at hname
      exact ⟨agent, (AgentTable.numberOf_eq_some h.agents).mpr hname,
        ⟨hagent, by omega, by omega⟩, by omega⟩
    | true =>
      have hone := (h.sound run hrun).custom hcustom
      rw [EventIdRun.idOf, if_pos hcustom] at hparse
      cases hagent : run.agent with
      | none =>
        rw [(h.sound run hrun).unparsed hcustom hagent] at hparse
        cases hparse
      | some agent =>
        obtain ⟨name, hname, hparsed⟩ := (h.sound run hrun).parsed hcustom agent hagent
        rw [hparsed] at hparse
        obtain ⟨hreplica, hsequence⟩ := Prod.mk.inj (Option.some.inj hparse)
        rw [hreplica] at hname
        exact ⟨agent, (AgentTable.numberOf_eq_some h.agents).mpr hname,
          ⟨hagent, by omega, by omega⟩, by omega⟩
  · rintro ⟨run, hrun, agent, hnumber, ⟨hagent, hstart, hstop⟩, hlt⟩
    have hname := (AgentTable.numberOf_eq_some h.agents).mp hnumber
    have hcovers : Covers EventIdRun.startEventOffset EventIdRun.length run
        (run.startEventOffset + (sequence - run.startSequence)) := ⟨by omega, by omega⟩
    refine ⟨_, mem_of_getElem? (h.listed_iff.mpr ⟨hlt, run, hrun, hcovers, rfl⟩), ?_⟩
    cases hcustom : run.custom with
    | false =>
      rw [h.parse_idOf hlast hrun hcustom hcovers]
      have hholder := h.agent_eq hrun hcustom hagent
      rw [hname] at hholder
      rw [← Option.some.inj hholder, Nat.add_sub_cancel_left, Nat.add_sub_cancel' hstart]
    | true =>
      have hone := (h.sound run hrun).custom hcustom
      obtain ⟨holder, hholder, hparsed⟩ := (h.sound run hrun).parsed hcustom agent hagent
      rw [hname] at hholder
      rw [EventIdRun.idOf, if_pos hcustom, hparsed, ← Option.some.inj hholder]
      congr 2
      omega

theorem foldl_maximum (keep : EventIdRun → Prop) [DecidablePred keep] (runs : List EventIdRun)
    (start : Option Nat) (maximum : Nat) :
    runs.foldl (fun maximum run =>
        if keep run ∧ maximum.all (· < run.startSequence) = true then some run.startSequence
        else maximum) start = some maximum ↔
      (start = some maximum ∨ ∃ run ∈ runs, keep run ∧ run.startSequence = maximum) ∧
        (∀ first, start = some first → first ≤ maximum) ∧
          ∀ run ∈ runs, keep run → run.startSequence ≤ maximum := by
  induction runs generalizing start with
  | nil =>
    rw [foldl_nil]
    constructor
    · rintro rfl
      exact ⟨.inl rfl, fun first hfirst => Nat.le_of_eq (Option.some.inj hfirst).symm,
        fun run hrun => nomatch hrun⟩
    · rintro ⟨hstart | ⟨run, hrun, -⟩, -⟩
      · exact hstart
      · cases hrun
  | cons run runs ih =>
    rw [foldl_cons, ih, forall_mem_cons, exists_mem_cons_iff]
    split
    · rename_i hkeep
      obtain ⟨hkeep, hall⟩ := hkeep
      have hbelow : ∀ first, start = some first → first < run.startSequence := by
        rintro first rfl
        simpa using hall
      constructor
      · rintro ⟨hreached, hfirst, hrest⟩
        have hle := hfirst _ rfl
        refine ⟨.inr ?_, fun first hstart => ?_, fun _ => hle, hrest⟩
        · exact hreached.imp (fun hsome => ⟨hkeep, Option.some.inj hsome⟩) fun hfound => hfound
        · exact Nat.le_trans (Nat.le_of_lt (hbelow first hstart)) hle
      · rintro ⟨hreached, -, hle, hrest⟩
        refine ⟨?_, fun first hsome => ?_, hrest⟩
        · obtain hstart | ⟨-, heq⟩ | hfound := hreached
          · have hlt := hbelow _ hstart
            have := hle hkeep
            omega
          · exact .inl (congrArg some heq)
          · exact .inr hfound
        · rw [← Option.some.inj hsome]
          exact hle hkeep
    · rename_i hskip
      have habove : keep run → ∃ first, start = some first ∧ run.startSequence ≤ first := by
        intro hkeep
        cases start with
        | none => exact absurd ⟨hkeep, rfl⟩ hskip
        | some first =>
          refine ⟨first, rfl, ?_⟩
          by_contra hlt
          exact hskip ⟨hkeep, by simpa using hlt⟩
      constructor
      · rintro ⟨hreached, hfirst, hrest⟩
        refine ⟨hreached.imp_right .inr, hfirst, fun hkeep => ?_, hrest⟩
        obtain ⟨first, hstart, hle⟩ := habove hkeep
        exact Nat.le_trans hle (hfirst first hstart)
      · rintro ⟨hreached, hfirst, hle, hrest⟩
        refine ⟨?_, hfirst, hrest⟩
        obtain hstart | ⟨hkeep, heq⟩ | hfound := hreached
        · exact .inl hstart
        · obtain ⟨first, hstart, hstartLe⟩ := habove hkeep
          have := hfirst first hstart
          obtain rfl : first = maximum := by omega
          exact .inl hstart
        · exact .inr hfound

theorem canonicalMaximum_iff {runs : List EventIdRun}
    (h : Apart EventIdRun.startSequence EventIdRun.length runs)
    (hpos : ∀ run ∈ runs, 0 < run.length)
    (hend : ∀ run ∈ runs, run.startSequence + run.length ≤ maxSafeInteger + 1) (maximum : Nat) :
    ((runs.reverse.find? (·.startEventOffset < limit)).map fun run =>
        numberAdd run.startSequence (min run.length (limit - run.startEventOffset)) - 1) =
          some maximum ↔
      (∃ run ∈ runs, Covers EventIdRun.startSequence EventIdRun.length run maximum ∧
        run.startEventOffset + (maximum - run.startSequence) < limit) ∧
      ∀ run ∈ runs, ∀ sequence, Covers EventIdRun.startSequence EventIdRun.length run sequence →
        run.startEventOffset + (sequence - run.startSequence) < limit → sequence ≤ maximum := by
  induction runs using List.reverseRecOn with
  | nil => simp
  | append_singleton runs run ih =>
    obtain ⟨hruns, -, hbefore⟩ := pairwise_append.mp h
    have hrunPos := hpos run (by simp)
    have hrunEnd := hend run (by simp)
    have hbefore : ∀ earlier ∈ runs, earlier.startSequence + earlier.length ≤ run.startSequence :=
      fun earlier hearlier => hbefore earlier hearlier run (mem_singleton_self _)
    have hexists : ∀ p : EventIdRun → Prop,
        (∃ other ∈ runs ++ [run], p other) ↔ (∃ other ∈ runs, p other) ∨ p run := by
      intro p
      simp only [mem_append, mem_singleton, or_and_right, exists_or, exists_eq_left]
    rw [reverse_append, reverse_singleton, singleton_append, find?_cons,
      hexists, forall_mem_append, forall_mem_singleton]
    split
    · rename_i hstarts
      have hstarts := of_decide_eq_true hstarts
      rw [Option.map_some, Option.some.injEq, numberAdd_of_le (by omega)]
      constructor
      · rintro rfl
        refine ⟨.inr ⟨⟨by omega, by omega⟩, by omega⟩, ?_, ?_⟩
        · rintro earlier hearlier sequence ⟨-, hstop⟩ -
          have := hbefore earlier hearlier
          omega
        · rintro sequence ⟨hstart, hstop⟩ hlt
          omega
      · rintro ⟨hreached, -, hgreatest⟩
        have hlast := hgreatest
          (run.startSequence + min run.length (limit - run.startEventOffset) - 1)
          ⟨by omega, by omega⟩ (by omega)
        obtain ⟨earlier, hearlier, ⟨-, hstop⟩, -⟩ | ⟨⟨hstart, hstop⟩, hlt⟩ := hreached
        · have := hbefore earlier hearlier
          omega
        · omega
    · rename_i hafter
      have hafter := of_decide_eq_false hafter
      rw [ih hruns (fun other hother => hpos other (by simp [hother]))
        (fun other hother => hend other (by simp [hother]))]
      constructor
      · rintro ⟨hreached, hgreatest⟩
        exact ⟨.inl hreached, hgreatest, fun sequence _ hlt => by omega⟩
      · rintro ⟨hreached | ⟨-, hlt⟩, hgreatest, -⟩
        · exact ⟨hreached, hgreatest⟩
        · omega

theorem canonicalMaximum_eq_none {runs : List EventIdRun} {value : EventIdRun → Nat}
    (h : (runs.reverse.find? (·.startEventOffset < limit)).map value = none) :
    ∀ run ∈ runs, limit ≤ run.startEventOffset := by
  intro run hrun
  have hnone := find?_eq_none.mp (Option.map_eq_none_iff.mp h) run (mem_reverse.mpr hrun)
  simpa using hnone

theorem Indexed.holds_iff (h : index.Indexed last) {sequence : Nat} :
    (∃ run ∈ index.runs, run.Holds agent sequence ∧
        run.startEventOffset + (sequence - run.startSequence) < limit) ↔
      (∃ run ∈ index.agentRuns agent,
        Covers EventIdRun.startSequence EventIdRun.length run sequence ∧
          run.startEventOffset + (sequence - run.startSequence) < limit) ∨
      ∃ run ∈ index.parsedCustomRuns, (run.agent = some agent ∧
        run.startEventOffset < limit) ∧ run.startSequence = sequence := by
  have hfiled := h.placed.filed
  constructor
  · rintro ⟨run, hrun, ⟨hagent, hstart, hstop⟩, hlt⟩
    cases hcustom : run.custom with
    | false =>
      exact .inl ⟨run, hfiled.mem_agentRuns.mpr ⟨hrun, hcustom, hagent⟩, ⟨hstart, hstop⟩, hlt⟩
    | true =>
      have hone := (hfiled.sound run hrun).custom hcustom
      have hparsed := (h.parsed run).mpr ⟨hrun, hcustom, by rw [hagent]; rfl⟩
      exact .inr ⟨run, hparsed, ⟨hagent, by omega⟩, by omega⟩
  · rintro (⟨run, hrun, hcovers, hlt⟩ | ⟨run, hrun, ⟨hagent, hlt⟩, rfl⟩)
    · obtain ⟨hmem, -, hagent⟩ := hfiled.mem_agentRuns.mp hrun
      exact ⟨run, hmem, ⟨hagent, hcovers⟩, hlt⟩
    · have hmem := ((h.parsed run).mp hrun).1
      have hpos := (hfiled.sound run hmem).length_pos
      exact ⟨run, hmem, ⟨hagent, Nat.le_refl _, by omega⟩, by omega⟩

theorem Indexed.maximumSequenceBefore_spec (h : index.Indexed last) (hlast : last ≤ maxSafeInteger)
    (replicaId : Text) (limit maximum : Nat) :
    index.maximumSequenceBefore replicaId limit = some maximum ↔
      IsMaximumSequence (index.ids.take limit) replicaId maximum := by
  have hfiled := h.placed.filed
  have hmaximum : IsMaximumSequence (index.ids.take limit) replicaId maximum ↔
      (∃ id ∈ index.ids.take limit, parseEventId id = some (replicaId, maximum)) ∧
        ∀ sequence, (∃ id ∈ index.ids.take limit,
          parseEventId id = some (replicaId, sequence)) → sequence ≤ maximum :=
    and_congr_right fun _ => ⟨fun hall sequence ⟨id, hid, hparse⟩ => hall id hid sequence hparse,
      fun hall id hid sequence hparse => hall sequence ⟨id, hid, hparse⟩⟩
  simp only [hmaximum, hfiled.exists_sequence_iff hlast]
  unfold maximumSequenceBefore
  dsimp only
  rw [foldl_maximum fun run => run.agent = index.agents.numberOf replicaId ∧
    run.startEventOffset < limit]
  cases hnumber : index.agents.numberOf replicaId with
  | none =>
    constructor
    · rintro ⟨hstart | ⟨run, hrun, ⟨hagent, -⟩, -⟩, -⟩
      · cases hstart
      · have hsome := ((h.parsed run).mp hrun).2.2
        rw [hagent] at hsome
        cases hsome
    · rintro ⟨⟨run, hrun, agent, hagent, -⟩, -⟩
      cases hagent
  | some agent =>
    have hmem : ∀ run ∈ index.agentRuns agent, run ∈ index.runs ∧ run.custom = false ∧
        run.agent = some agent := fun run hrun => hfiled.mem_agentRuns.mp hrun
    have hcanonical := @canonicalMaximum_iff limit _ (h.placed.agentRuns_apart agent)
      (fun run hrun => (hfiled.sound run (hmem run hrun).1).length_pos)
      (fun run hrun => by
        have := ((hfiled.sound run (hmem run hrun).1).canonical (hmem run hrun).2.1).1
        omega)
    simp only [Option.some.injEq, exists_eq_left', h.holds_iff, Option.elim_some]
    constructor
    · rintro ⟨hreached, hfirst, hparsed⟩
      refine ⟨hreached.imp_left fun hstart => ((hcanonical maximum).mp hstart).1, ?_⟩
      rintro sequence (⟨run, hrun, hcovers, hlt⟩ | ⟨run, hrun, hkeep, rfl⟩)
      · cases hstart : ((index.agentRuns agent).reverse.find? (·.startEventOffset < limit)).map
          fun run => numberAdd run.startSequence
            (min run.length (limit - run.startEventOffset)) - 1 with
        | none =>
          have := canonicalMaximum_eq_none hstart run hrun
          omega
        | some first =>
          have hgreatest := ((hcanonical first).mp hstart).2 run hrun sequence hcovers hlt
          exact Nat.le_trans hgreatest (hfirst first hstart)
      · exact hparsed run hrun hkeep
    · rintro ⟨hreached, hgreatest⟩
      refine ⟨?_, ?_, fun run hrun hkeep => hgreatest _ (.inr ⟨run, hrun, hkeep, rfl⟩)⟩
      · refine hreached.imp_left fun hfound => (hcanonical maximum).mpr ⟨hfound, ?_⟩
        exact fun run hrun sequence hcovers hlt => hgreatest _ (.inl ⟨run, hrun, hcovers, hlt⟩)
      · intro first hstart
        exact hgreatest first (.inl ((hcanonical first).mp hstart).1)

end EventIdRunIndex

end Softmaple.Graph
