import Softmaple.Graph.IdRunLookup

/-!
What appending and truncating do to an index of event IDs: the last run is pushed,
resized or dropped, and every other run stays filed where it was.
-/
namespace Softmaple.Graph

open List

open Codec (JsNumber parseEventId formatEventId numberAdd numberAdd_of_le)
open Tiling (Tiles Covers Apart Splits)

theorem mem_concat_iff {α : Type} {items : List α} {last item : α} :
    item ∈ items ++ [last] ↔ item ∈ items ∨ item = last := by
  rw [mem_append, mem_singleton]

theorem pairwise_insertIdx {α : Type} {R : α → α → Prop} {items : List α} {added : α}
    {position : Nat} (hpairs : items.Pairwise R) (hle : position ≤ items.length)
    (hbefore : ∀ (place : Nat) (item : α), place < position → items[place]? = some item → R item added)
    (hafter : ∀ (place : Nat) (item : α), position ≤ place → items[place]? = some item →
      R added item) : (items.insertIdx position added).Pairwise R := by
  have hall : ∀ item ∈ items, ∃ place, items[place]? = some item :=
    fun item hitem => mem_iff_getElem?.mp hitem
  induction items generalizing position with
  | nil =>
    obtain rfl : position = 0 := Nat.le_zero.mp hle
    exact pairwise_singleton R added
  | cons first items ih =>
    obtain ⟨hfirst, hrest⟩ := pairwise_cons.mp hpairs
    cases position with
    | zero =>
      rw [insertIdx_zero, pairwise_cons]
      refine ⟨fun item hitem => ?_, hpairs⟩
      obtain ⟨place, hget⟩ := hall item hitem
      exact hafter place item (Nat.zero_le _) hget
    | succ position =>
      rw [length_cons] at hle
      rw [insertIdx_succ_cons, pairwise_cons]
      constructor
      · intro item hitem
        obtain rfl | hitem := eq_or_mem_of_mem_insertIdx hitem
        · exact hbefore 0 first (Nat.succ_pos _) rfl
        · exact hfirst item hitem
      · refine ih hrest (by omega) ?_ ?_ fun item hitem => mem_iff_getElem?.mp hitem
        · intro place item hlt hget
          exact hbefore (place + 1) item (by omega) hget
        · intro place item hge hget
          exact hafter (place + 1) item (by omega) hget

theorem getElem?_filterMap_of_isSome {α β : Type} {f : α → Option β} {items : List α}
    (h : ∀ item ∈ items, (f item).isSome) (place : Nat) :
    (items.filterMap f)[place]? = items[place]?.bind f := by
  induction items generalizing place with
  | nil => rfl
  | cons first items ih =>
    obtain ⟨hfirst, hrest⟩ := forall_mem_cons.mp h
    obtain ⟨value, hvalue⟩ := Option.isSome_iff_exists.mp hfirst
    rw [filterMap_cons_some hvalue]
    cases place with
    | zero => exact hvalue.symm
    | succ place => exact ih hrest place

theorem follows_append_iff {runs more : List EventIdRun} {place next : Nat}
    (hplace : place < runs.length) (hnext : next < runs.length) :
    Follows (runs ++ more) place next ↔ Follows runs place next := by
  unfold Follows
  rw [List.getElem?_append_left hplace, List.getElem?_append_left hnext]

namespace EventIdRunIndex

variable {index next : EventIdRunIndex} {last stop agent place : Nat} {run : EventIdRun}
  {init : List EventIdRun}

theorem Filed.lt_length (h : index.Filed last stop) (hplace : place ∈ index.runsByAgent agent) :
    place < index.runs.length := by
  obtain ⟨run, hget, -⟩ := (h.byAgent agent place).mp hplace
  exact (List.getElem?_eq_some_iff.mp hget).1

/-- Others may use the table of agents, and a lookup moves the hint. -/
theorem Filed.anew (h : index.Filed last stop) (hextends : index.agents.Extends next.agents)
    (hruns : next.runs = index.runs) (hby : next.runsByAgent = index.runsByAgent)
    (hcustom : next.customOffsets = index.customOffsets) : next.Filed last stop where
  agents := hextends.sound
  tiles := hruns ▸ h.tiles
  sound := by
    rw [hruns]
    exact fun run hrun => (h.sound run hrun).extends hextends
  byAgent := by
    rw [hruns, hby]
    exact h.byAgent
  customOffsets := by
    rw [hruns, hcustom]
    exact h.customOffsets

theorem Placed.anew (h : index.Placed last stop) (hextends : index.agents.Extends next.agents)
    (hruns : next.runs = index.runs) (hby : next.runsByAgent = index.runsByAgent)
    (hcustom : next.customOffsets = index.customOffsets) : next.Placed last stop where
  filed := h.filed.anew hextends hruns hby hcustom
  follows := by
    rw [hruns, hby]
    exact h.follows
  apart := by
    rw [hruns]
    exact h.apart

theorem Indexed.anew (h : index.Indexed last) (hextends : index.agents.Extends next.agents)
    (hruns : next.runs = index.runs) (hby : next.runsByAgent = index.runsByAgent)
    (hcustom : next.customOffsets = index.customOffsets)
    (hparsed : next.parsedCustomRuns = index.parsedCustomRuns)
    (hcount : next.eventCount = index.eventCount) : next.Indexed last where
  placed := hcount ▸ h.placed.anew hextends hruns hby hcustom
  eventCount := hcount ▸ h.eventCount
  parsed := by
    rw [hruns, hparsed]
    exact h.parsed

theorem Filed.pushRun (h : index.Filed last stop) (hstart : run.startEventOffset = stop)
    (hsound : run.Sound next.agents last) (hextends : index.agents.Extends next.agents)
    (hruns : next.runs = index.runs ++ [run])
    (hby : ∀ agent place, place ∈ next.runsByAgent agent ↔ place ∈ index.runsByAgent agent ∨
      (place = index.runs.length ∧ run.custom = false ∧ run.agent = some agent))
    (hcustom : ∀ id offset, next.customOffsets.get? id = some offset ↔
      index.customOffsets.get? id = some offset ∨
        (run.custom = true ∧ run.replicaId = id ∧ run.startEventOffset = offset)) :
    next.Filed last (stop + run.length) where
  agents := hextends.sound
  tiles := by
    rw [hruns, Tiles.concat_iff, hstart]
    exact ⟨h.tiles, hsound.length_pos, rfl⟩
  sound := by
    rw [hruns, forall_mem_append, forall_mem_singleton]
    exact ⟨fun other hother => (h.sound other hother).extends hextends, hsound⟩
  byAgent := by
    intro agent place
    rw [hby, h.byAgent, hruns]
    simp only [getElem?_concat_eq_some, or_and_right, exists_or, and_assoc, exists_and_left,
      exists_eq_left']
  customOffsets := by
    intro id offset
    rw [hcustom, h.customOffsets, hruns]
    simp only [mem_append, mem_singleton, or_and_right, exists_or, exists_eq_left]

theorem Placed.pushRun (h : index.Placed last stop) (hfiled : next.Filed last (stop + run.length))
    (hruns : next.runs = index.runs ++ [run])
    (hfollows : ∀ agent, (next.runsByAgent agent).Pairwise (Follows next.runs))
    (hcustom : run.custom = true → ∀ agent, run.agent = some agent → ∀ other ∈ index.runs,
      other.custom = false → ¬ other.Holds agent run.startSequence)
    (hcanonical : run.custom = false → ∀ other ∈ index.runs, other.custom = true →
      ∀ agent, other.agent = some agent → ¬ run.Holds agent other.startSequence) :
    next.Placed last (stop + run.length) where
  filed := hfiled
  follows := hfollows
  apart := by
    rw [hruns]
    intro held hheld holder hholder hheldCustom hholderCanonical agent hagent
    obtain hheldIn | rfl := mem_concat_iff.mp hheld
    · obtain hholderIn | rfl := mem_concat_iff.mp hholder
      · exact h.apart held hheldIn holder hholderIn hheldCustom hholderCanonical agent hagent
      · exact hcanonical hholderCanonical held hheldIn hheldCustom agent hagent
    · obtain hholderIn | rfl := mem_concat_iff.mp hholder
      · exact hcustom hheldCustom agent hagent holder hholderIn hholderCanonical
      · rw [hheldCustom] at hholderCanonical
        cases hholderCanonical

theorem Placed.popRun (h : index.Placed last stop) (hruns : index.runs = next.runs ++ [run])
    (hagents : next.agents = index.agents)
    (hby : ∀ agent, (next.runsByAgent agent).Sublist (index.runsByAgent agent) ∧
      ∀ place, place ∈ next.runsByAgent agent ↔
        place ∈ index.runsByAgent agent ∧ place ≠ next.runs.length)
    (hcustom : ∀ id offset, next.customOffsets.get? id = some offset ↔
      index.customOffsets.get? id = some offset ∧ ¬ (run.custom = true ∧ run.replicaId = id)) :
    next.Placed last run.startEventOffset := by
  have hfiled := h.filed
  have htiles := hfiled.tiles
  rw [hruns, Tiles.concat_iff] at htiles
  have hmem : ∀ other ∈ next.runs, other ∈ index.runs := by
    intro other hother
    rw [hruns]
    exact mem_concat_iff.mpr (.inl hother)
  have hrun : run ∈ index.runs := by
    rw [hruns]
    exact mem_concat_iff.mpr (.inr rfl)
  refine ⟨⟨hagents ▸ hfiled.agents, htiles.1, ?_, ?_, ?_⟩, ?_, ?_⟩
  · rw [hagents]
    exact fun other hother => hfiled.sound other (hmem other hother)
  · intro agent place
    rw [(hby agent).2, hfiled.byAgent, hruns]
    constructor
    · rintro ⟨⟨other, hget, hother⟩, hne⟩
      obtain hget | ⟨heq, -⟩ := getElem?_concat_eq_some.mp hget
      · exact ⟨other, hget, hother⟩
      · exact absurd heq hne
    · rintro ⟨other, hget, hother⟩
      refine ⟨⟨other, getElem?_concat_eq_some.mpr (.inl hget), hother⟩, ?_⟩
      exact Nat.ne_of_lt (List.getElem?_eq_some_iff.mp hget).1
  · intro id offset
    rw [hcustom, hfiled.customOffsets]
    constructor
    · rintro ⟨⟨other, hother, hotherCustom, hid, hoffset⟩, hne⟩
      rw [hruns] at hother
      obtain hotherIn | rfl := mem_concat_iff.mp hother
      · exact ⟨other, hotherIn, hotherCustom, hid, hoffset⟩
      · exact absurd ⟨hotherCustom, hid⟩ hne
    · rintro ⟨other, hother, hotherCustom, hid, hoffset⟩
      refine ⟨⟨other, hmem other hother, hotherCustom, hid, hoffset⟩, ?_⟩
      rintro ⟨hrunCustom, hrunId⟩
      -- One custom ID has one offset, and the dropped run starts after every other.
      have hfirst := (hfiled.customOffsets id _).mpr
        ⟨other, hmem other hother, hotherCustom, hid, rfl⟩
      have hsecond := (hfiled.customOffsets id _).mpr ⟨run, hrun, hrunCustom, hrunId, rfl⟩
      have hsame := Option.some.inj (hfirst.symm.trans hsecond)
      have hbefore := (htiles.1.mem hother).2
      omega
  · intro agent
    apply ((h.follows agent).sublist (hby agent).1).imp_of_mem
    intro place follower hplace hfollower hfollows
    obtain ⟨hplaceIn, hplaceNe⟩ := ((hby agent).2 place).mp hplace
    obtain ⟨hfollowerIn, hfollowerNe⟩ := ((hby agent).2 follower).mp hfollower
    have hplaceLt := hfiled.lt_length hplaceIn
    have hfollowerLt := hfiled.lt_length hfollowerIn
    rw [hruns, length_append, length_singleton] at hplaceLt hfollowerLt
    rw [hruns, follows_append_iff (by omega) (by omega)] at hfollows
    exact hfollows
  · exact fun held hheld holder hholder => h.apart held (hmem held hheld) holder (hmem holder hholder)

theorem Placed.resizeRun (h : index.Placed last stop) {length : Nat}
    (hruns : index.runs = init ++ [run]) (hnext : next.runs = init ++ [{ run with length := length }])
    (hagents : next.agents = index.agents) (hby : next.runsByAgent = index.runsByAgent)
    (hcustom : next.customOffsets = index.customOffsets) (hpos : 0 < length)
    (hcanonical : run.custom = false → run.startSequence + length ≤ last + 1)
    (hsingle : run.custom = true → length = 1)
    (hbefore : run.custom = false → ∀ other ∈ init, other.custom = false →
      other.agent = run.agent → run.startSequence + run.length ≤ other.startSequence →
        run.startSequence + length ≤ other.startSequence)
    (hfresh : run.custom = false → ∀ other ∈ init, other.custom = true →
      ∀ agent, other.agent = some agent → run.agent = some agent →
        run.startSequence ≤ other.startSequence →
          run.startSequence + length ≤ other.startSequence) :
    next.Placed last (run.startEventOffset + length) := by
  have hfiled := h.filed
  have htiles := hfiled.tiles
  rw [hruns, Tiles.concat_iff] at htiles
  have hinit : ∀ other ∈ init, other ∈ index.runs := by
    intro other hother
    rw [hruns]
    exact mem_concat_iff.mpr (.inl hother)
  have hrun : run ∈ index.runs := by
    rw [hruns]
    exact mem_concat_iff.mpr (.inr rfl)
  have hsound := hfiled.sound run hrun
  refine ⟨⟨hagents ▸ hfiled.agents, ?_, ?_, ?_, ?_⟩, ?_, ?_⟩
  · rw [hnext, Tiles.concat_iff]
    exact ⟨htiles.1, hpos, rfl⟩
  · rw [hnext, hagents, forall_mem_append, forall_mem_singleton]
    refine ⟨fun other hother => hfiled.sound other (hinit other hother), ?_⟩
    exact ⟨hpos, fun hcustom => ⟨hcanonical hcustom, (hsound.canonical hcustom).2⟩, hsingle,
      hsound.parsed, hsound.unparsed⟩
  · intro agent place
    rw [hby, hfiled.byAgent, hruns, hnext]
    simp only [getElem?_concat_eq_some, or_and_right, exists_or, and_assoc, exists_and_left,
      exists_eq_left']
  · intro id offset
    rw [hcustom, hfiled.customOffsets, hruns, hnext]
    simp only [mem_concat_iff, or_and_right, exists_or, exists_eq_left]
  · intro agent
    rw [hby, hnext]
    apply (h.follows agent).imp_of_mem
    intro place later hplace hlater hfollows other follower hother hfollower
    obtain ⟨first, hfirst, hfirstCustom, hfirstAgent⟩ := (hfiled.byAgent agent place).mp hplace
    obtain ⟨second, hsecond, hsecondCustom, hsecondAgent⟩ :=
      (hfiled.byAgent agent later).mp hlater
    obtain ⟨hends, hlimit⟩ := hfollows first second hfirst hsecond
    rw [hruns] at hfirst hsecond
    -- Only the length of the last run is another one.
    have hsame : ∀ {position : Nat} {old new : EventIdRun}, (init ++ [run])[position]? = some old →
        (init ++ [{ run with length := length }])[position]? = some new →
          (new = old ∧ new ∈ init) ∨ (old = run ∧ new = { run with length := length }) := by
      intro position old new hold hnew
      obtain hnew | ⟨rfl, rfl⟩ := getElem?_concat_eq_some.mp hnew
      · rw [List.getElem?_append_left (List.getElem?_eq_some_iff.mp hnew).1, hnew] at hold
        exact .inl ⟨Option.some.inj hold, mem_of_getElem? hnew⟩
      · rw [getElem?_concat_length] at hold
        exact .inr ⟨(Option.some.inj hold).symm, rfl⟩
    obtain ⟨rfl, hotherIn⟩ | ⟨rfl, rfl⟩ := hsame hfirst hother
    · obtain ⟨rfl, -⟩ | ⟨rfl, rfl⟩ := hsame hsecond hfollower
      · exact ⟨hends, hlimit⟩
      · exact ⟨hends, hlimit⟩
    · obtain ⟨rfl, hfollowerIn⟩ | ⟨rfl, rfl⟩ := hsame hsecond hfollower
      · exact ⟨hbefore hfirstCustom follower hfollowerIn hsecondCustom
          (hsecondAgent.trans hfirstAgent.symm) hends, hlimit⟩
      · have := hsound.length_pos
        omega
  · rw [hnext]
    intro held hheld holder hholder hheldCustom hholderCanonical agent hagent
    -- The custom run is one of before, up to a length that nothing here reads.
    obtain ⟨old, hold, hcustom', hagent', hstart'⟩ : ∃ old ∈ index.runs, old.custom = held.custom ∧
        old.agent = held.agent ∧ old.startSequence = held.startSequence := by
      obtain hheldIn | rfl := mem_concat_iff.mp hheld
      · exact ⟨held, hinit held hheldIn, rfl, rfl, rfl⟩
      · exact ⟨run, hrun, rfl, rfl, rfl⟩
    obtain hholderIn | rfl := mem_concat_iff.mp hholder
    · rw [← hstart']
      exact h.apart old hold holder (hinit holder hholderIn) (hcustom'.trans hheldCustom)
        hholderCanonical agent (hagent'.trans hagent)
    · rintro ⟨hholds, hstarts, hstops⟩
      have hheldIn : held ∈ init := by
        obtain hheldIn | rfl := mem_concat_iff.mp hheld
        · exact hheldIn
        · rw [show run.custom = true from hheldCustom] at hholderCanonical
          cases hholderCanonical
      have hafter := hfresh hholderCanonical held hheldIn hheldCustom agent hagent hholds hstarts
      dsimp only at hstops
      omega

theorem Filed.agentRuns_getElem? (h : index.Filed last stop) (agent position : Nat) :
    (index.agentRuns agent)[position]? =
      (index.runsByAgent agent)[position]?.bind (index.runs[·]?) := by
  apply getElem?_filterMap_of_isSome
  intro place hplace
  obtain ⟨run, hget, -⟩ := (h.byAgent agent place).mp hplace
  rw [hget]
  rfl

theorem Filed.length_agentRuns (h : index.Filed last stop) (agent : Nat) :
    (index.agentRuns agent).length = (index.runsByAgent agent).length := by
  unfold agentRuns
  rw [length_filterMap_eq_countP, countP_eq_length]
  intro place hplace
  obtain ⟨run, hget, -⟩ := (h.byAgent agent place).mp hplace
  rw [hget]
  rfl

theorem Placed.insert_follows (h : index.Placed last stop) {sequence : Nat}
    (hstart : run.startSequence = sequence) (hlength : run.length = 1)
    (hlimit : run.sequenceLimit = ((index.agentRuns agent)[firstRunAfter (index.agentRuns agent)
      sequence]?).map (·.startSequence))
    (hfresh : ∀ other ∈ index.agentRuns agent,
      ¬ Covers EventIdRun.startSequence EventIdRun.length other sequence) :
    ((index.runsByAgent agent).insertIdx (firstRunAfter (index.agentRuns agent) sequence)
      index.runs.length).Pairwise (Follows (index.runs ++ [run])) := by
  have hfiled := h.filed
  have hsplits := @firstRunAfter_splits _ sequence (h.agentRuns_apart agent)
  have hadded : (index.runs ++ [run])[index.runs.length]? = some run :=
    getElem?_concat_length
  have hagent : ∀ {position place : Nat} {other : EventIdRun},
      (index.runsByAgent agent)[position]? = some place → (index.runs ++ [run])[place]? = some other →
        place < index.runs.length ∧ (index.agentRuns agent)[position]? = some other := by
    intro position place other hplace hother
    have hlt := hfiled.lt_length (mem_of_getElem? hplace)
    rw [List.getElem?_append_left hlt] at hother
    refine ⟨hlt, ?_⟩
    rw [hfiled.agentRuns_getElem?, hplace]
    exact hother
  apply pairwise_insertIdx
  · apply (h.follows agent).imp_of_mem
    intro place follower hplace hfollower hfollows
    exact (follows_append_iff (hfiled.lt_length hplace) (hfiled.lt_length hfollower)).mpr hfollows
  · rw [← hfiled.length_agentRuns]
    exact hsplits.le
  · intro position place hlt hplace other follower hother hfollower
    rw [hadded] at hfollower
    obtain rfl := Option.some.inj hfollower
    obtain ⟨hplaceLt, hget⟩ := hagent hplace hother
    have hbefore := hsplits.before position other hlt hget
    have hends : other.startSequence + other.length ≤ sequence := by
      by_contra hcovers
      exact hfresh other (mem_of_getElem? hget) ⟨hbefore, not_le.mp hcovers⟩
    exact ⟨by omega, fun hlater => by omega⟩
  · intro position place hge hplace other follower hother hfollower
    rw [hadded] at hother
    obtain rfl := Option.some.inj hother
    obtain ⟨hplaceLt, hget⟩ := hagent hplace hfollower
    have hafter := hsplits.after position follower hge hget
    refine ⟨by omega, fun _ => ?_⟩
    obtain ⟨bound, hbound⟩ : ∃ bound, (index.agentRuns agent)[firstRunAfter
        (index.agentRuns agent) sequence]? = some bound :=
      ⟨_, getElem?_eq_getElem
        (Nat.lt_of_le_of_lt hge (List.getElem?_eq_some_iff.mp hget).1)⟩
    refine ⟨bound.startSequence, by rw [hlimit, hbound, Option.map_some], ?_⟩
    obtain hlt | heq := Nat.lt_or_eq_of_le hge
    · obtain ⟨hboundLt, rfl⟩ := List.getElem?_eq_some_iff.mp hbound
      obtain ⟨hfollowerLt, rfl⟩ := List.getElem?_eq_some_iff.mp hget
      exact pairwise_iff_getElem.mp (h.agentRuns_apart agent).sorted _ _ hboundLt hfollowerLt hlt
    · rw [heq, hget] at hbound
      exact Nat.le_of_eq (congrArg _ (Option.some.inj hbound).symm)

end EventIdRunIndex

end Softmaple.Graph

namespace Softmaple.Graph

open List

open Codec (JsNumber parseEventId formatEventId numberAdd numberAdd_of_le)
open Tiling (Tiles Covers Apart Splits)

namespace EventIdRun

theorem ids_grown {run : EventIdRun} (hcustom : run.custom = false) :
    { run with length := run.length + 1 }.ids =
      run.ids ++ [formatEventId run.replicaId (run.startSequence + run.length)] := by
  unfold ids
  dsimp only
  rw [if_neg (by simp [hcustom]), if_neg (by simp [hcustom]), range_succ, map_append]
  rfl

end EventIdRun

namespace EventIdRunIndex

def Fresh (index : EventIdRunIndex) (agent sequence : Nat) : Prop :=
  ∀ run ∈ index.runs, run.custom = true → run.agent = some agent → run.startSequence ≠ sequence

variable {index next : EventIdRunIndex} {last stop agent sequence : Nat} {run : EventIdRun}
  {id name : Text}

theorem ids_push (hruns : next.runs = index.runs ++ [run]) :
    next.ids = index.ids ++ run.ids := by
  rw [ids, ids, hruns, flatMap_append, flatMap_singleton]

theorem Placed.follows_or (h : index.Placed last stop) {place other : Nat}
    (hplace : place ∈ index.runsByAgent agent) (hother : other ∈ index.runsByAgent agent)
    (hne : place ≠ other) : Follows index.runs place other ∨ Follows index.runs other place := by
  have hsymm : Std.Symm fun place other : Nat =>
      Follows index.runs place other ∨ Follows index.runs other place :=
    ⟨fun _ _ => Or.symm⟩
  have hpairs : (index.runsByAgent agent).Pairwise fun place other =>
      Follows index.runs place other ∨ Follows index.runs other place :=
    (h.follows agent).imp Or.inl
  exact hpairs.forall hplace hother hne

section

variable (h : index.Indexed maxSafeInteger)
include h

theorem Indexed.growLast_spec
    (hlast : index.runs.getLast? = some run) (hcustom : run.custom = false)
    (hagent : run.agent = some agent) (hsequence : run.startSequence + run.length = sequence)
    (hsafe : sequence ≤ maxSafeInteger) (hlimit : belowLimit sequence run.sequenceLimit = true)
    (hcount : index.eventCount ≤ maxSafeInteger) (hfresh : index.Fresh agent sequence) :
    (index.growLast run).Indexed maxSafeInteger ∧
      (index.growLast run).ids = index.ids ++ [formatEventId run.replicaId sequence] ∧
        (index.growLast run).eventCount = index.eventCount + 1 := by
  have hfiled := h.placed.filed
  obtain ⟨init, hruns⟩ := getLast?_eq_some_iff.mp hlast
  have htiles := hfiled.tiles
  rw [hruns, Tiles.concat_iff] at htiles
  obtain ⟨-, hpos, hstop⟩ := htiles
  have hinit : ∀ other ∈ init, other ∈ index.runs := by
    intro other hother
    rw [hruns]
    exact mem_concat_iff.mpr (.inl hother)
  have hrun : run ∈ index.runs := by
    rw [hruns]
    exact mem_concat_iff.mpr (.inr rfl)
  have hcountNext : numberAdd index.eventCount 1 = index.eventCount + 1 :=
    numberAdd_of_le (by omega)
  have hnext : (index.growLast run).runs = init ++ [{ run with length := run.length + 1 }] := by
    rw [growLast, hruns, dropLast_concat, numberAdd_of_le (by omega)]
  have hplaced : (index.growLast run).Placed maxSafeInteger
      (run.startEventOffset + (run.length + 1)) := by
    refine h.placed.resizeRun hruns hnext rfl rfl rfl (Nat.succ_pos _) (fun _ => by omega)
      (fun htrue => ?_) ?_ ?_
    · rw [hcustom] at htrue
      cases htrue
    · intro _ other hother hotherCustom hotherAgent hafter
      obtain ⟨place, hget⟩ := mem_iff_getElem?.mp hother
      have hplaceLt := (List.getElem?_eq_some_iff.mp hget).1
      have hget' : index.runs[place]? = some other := by
        rw [hruns, List.getElem?_append_left hplaceLt]
        exact hget
      have hgetLast : index.runs[init.length]? = some run := by
        rw [hruns]
        exact getElem?_concat_length
      have hother := (hfiled.byAgent agent place).mpr
        ⟨other, hget', hotherCustom, hotherAgent.trans hagent⟩
      have hself := (hfiled.byAgent agent init.length).mpr ⟨run, hgetLast, hcustom, hagent⟩
      obtain hfollows | hprecedes := h.placed.follows_or hself hother (Nat.ne_of_gt hplaceLt)
      · obtain ⟨limit, hlimitAt, hle⟩ := (hfollows run other hgetLast hget').2 hplaceLt
        rw [hlimitAt] at hlimit
        have hlt : sequence < limit := of_decide_eq_true hlimit
        omega
      · have hbefore := (hprecedes other run hget' hgetLast).1
        have hotherPos := (hfiled.sound other (hinit other (mem_of_getElem? hget))).length_pos
        omega
    · intro _ other hother hotherCustom holder hotherAgent hholder hstarts
      obtain rfl := Option.some.inj (hagent.symm.trans hholder)
      have hapart := h.placed.apart other (hinit other hother) run hrun hotherCustom hcustom agent
        hotherAgent
      have hne := hfresh other (hinit other hother) hotherCustom hotherAgent
      have : ¬ other.startSequence < run.startSequence + run.length :=
        fun hlt => hapart ⟨hagent, hstarts, hlt⟩
      omega
  refine ⟨⟨?_, ?_, ?_⟩, ?_, hcountNext⟩
  · rw [show (index.growLast run).eventCount = run.startEventOffset + (run.length + 1) from
      hcountNext.trans (by omega)]
    exact hplaced
  · rw [show (index.growLast run).eventCount = index.eventCount + 1 from hcountNext]
    omega
  · intro other
    have hparsed := h.parsed other
    rw [hruns] at hparsed
    rw [hnext]
    refine hparsed.trans (and_congr_left fun ⟨hotherCustom, _⟩ => ?_)
    rw [mem_concat_iff, mem_concat_iff]
    refine or_congr_right (iff_of_false ?_ ?_)
    · rintro rfl
      rw [hcustom] at hotherCustom
      cases hotherCustom
    · rintro rfl
      rw [show run.custom = true from hotherCustom] at hcustom
      cases hcustom
  · rw [ids, hnext, flatMap_append, flatMap_singleton, EventIdRun.ids_grown hcustom,
      ids, hruns, flatMap_append, flatMap_singleton, append_assoc, hsequence]

omit h in
theorem Filed.addCanonicalRun (h : index.Filed maxSafeInteger index.eventCount)
    (happart : Apart EventIdRun.startSequence EventIdRun.length (index.agentRuns agent))
    (hname : index.agents.nameOf agent = some name) (hsafe : sequence ≤ maxSafeInteger) :
    (index.addCanonicalRun agent name sequence).Filed maxSafeInteger (index.eventCount + 1) := by
  have hposition : firstRunAfter (index.agentRuns agent) sequence ≤
      (index.runsByAgent agent).length := by
    rw [← h.length_agentRuns]
    exact (firstRunAfter_splits happart).le
  refine @Filed.pushRun _ _ _ _ (index.canonicalRun agent name sequence) h rfl ?_ h.agents.refl rfl ?_ ?_
  · exact ⟨Nat.one_pos, fun _ => ⟨Nat.succ_le_succ hsafe, agent, rfl, hname⟩,
      (fun htrue => nomatch htrue), (fun htrue => nomatch htrue), (fun htrue => nomatch htrue)⟩
  · intro other place
    change (place ∈ if other = agent then _ else _) ↔ _
    split
    · rename_i heq
      rw [mem_insertIdx hposition, heq]
      simp [canonicalRun, or_comm]
    · rename_i hne
      simp [canonicalRun, Ne.symm hne]
  · intro id offset
    exact (or_iff_left fun hcustom => absurd hcustom.1 Bool.false_ne_true).symm

theorem Indexed.addCanonicalRun_spec
    (hname : index.agents.nameOf agent = some name) (hsafe : sequence ≤ maxSafeInteger)
    (hcount : index.eventCount ≤ maxSafeInteger) (hfresh : index.Fresh agent sequence)
    (hcovers : ∀ other ∈ index.agentRuns agent,
      ¬ Covers EventIdRun.startSequence EventIdRun.length other sequence) :
    (index.addCanonicalRun agent name sequence).Indexed maxSafeInteger ∧
      (index.addCanonicalRun agent name sequence).ids = index.ids ++ [formatEventId name sequence] ∧
          (index.addCanonicalRun agent name sequence).eventCount = index.eventCount + 1 := by
  have hfiled := h.placed.filed
  have hcountNext : (index.addCanonicalRun agent name sequence).eventCount =
      index.eventCount + 1 := numberAdd_of_le (by omega)
  have hids : (index.addCanonicalRun agent name sequence).ids =
      index.ids ++ (index.canonicalRun agent name sequence).ids := ids_push rfl
  refine ⟨⟨?_, by omega, ?_⟩, hids, hcountNext⟩
  · rw [hcountNext]
    refine @Placed.pushRun _ _ _ _ (index.canonicalRun agent name sequence) h.placed
      (hfiled.addCanonicalRun (h.placed.agentRuns_apart agent) hname hsafe) rfl (fun other => ?_)
      (fun htrue => nomatch htrue) ?_
    · change (if other = agent then _ else _ : List Nat).Pairwise
        (Follows (index.runs ++ [index.canonicalRun agent name sequence]))
      split
      · exact h.placed.insert_follows rfl rfl rfl hcovers
      · apply (h.placed.follows other).imp_of_mem
        intro place follower hplace hfollower hfollows
        exact (follows_append_iff (hfiled.lt_length hplace) (hfiled.lt_length hfollower)).mpr hfollows
    · rintro - other hother hotherCustom holder hotherAgent ⟨hholder, hstart, hend⟩
      obtain rfl := Option.some.inj hholder
      have hne := hfresh other hother hotherCustom hotherAgent
      simp only [canonicalRun] at hstart hend
      omega
  · intro other
    rw [show (index.addCanonicalRun agent name sequence).parsedCustomRuns =
      index.parsedCustomRuns from rfl, h.parsed, show (index.addCanonicalRun agent name
        sequence).runs = index.runs ++ [index.canonicalRun agent name sequence] from rfl,
      mem_concat_iff]
    refine and_congr_left fun ⟨hotherCustom, _⟩ => (or_iff_left ?_).symm
    rintro rfl
    cases hotherCustom

theorem Indexed.held_iff (hsafe : sequence ≤ maxSafeInteger) :
    ((runUpTo (index.agentRuns agent) sequence).any fun previous =>
        sequence < numberAdd previous.startSequence previous.length) = true ↔
      ∃ run ∈ index.agentRuns agent,
        Covers EventIdRun.startSequence EventIdRun.length run sequence := by
  have hend : ∀ run ∈ index.agentRuns agent,
      run.startSequence + run.length ≤ maxSafeInteger + 2 := by
    intro run hrun
    obtain ⟨hmem, hcustom, -⟩ := h.placed.filed.mem_agentRuns.mp hrun
    have := ((h.placed.filed.sound run hmem).canonical hcustom).1
    omega
  have hapart := h.placed.agentRuns_apart agent
  rw [Option.any_eq_true]
  constructor
  · rintro ⟨run, hrun, hlt⟩
    have hlt := (lt_numberAdd_iff hsafe (hend run (runUpTo_mem hrun))).mp (of_decide_eq_true hlt)
    exact ⟨run, (runUpTo_eq_some hapart).mp ⟨hrun, hlt⟩⟩
  · rintro ⟨run, hrun, hcovers⟩
    obtain ⟨hupTo, hlt⟩ := (runUpTo_eq_some hapart).mpr ⟨hrun, hcovers⟩
    exact ⟨run, hupTo, decide_eq_true ((lt_numberAdd_iff hsafe (hend run hrun)).mpr hlt)⟩

open Classical in
theorem Indexed.appendCanonicalRun_spec
    (hname : index.agents.nameOf agent = some name) (hsafe : sequence ≤ maxSafeInteger)
    (id : Option Text) : index.appendCanonicalRun agent sequence id =
      if (∃ run ∈ index.agentRuns agent,
          Covers EventIdRun.startSequence EventIdRun.length run sequence) then
        (.error (.eventAlreadyExists (id.getD (formatEventId name sequence))), index)
      else (.ok (), index.addCanonicalRun agent name sequence) := by
  unfold appendCanonicalRun
  rw [hname]
  by_cases hheld : ((runUpTo (index.agentRuns agent) sequence).any fun previous =>
      sequence < numberAdd previous.startSequence previous.length) = true
  · rw [if_pos ((h.held_iff hsafe).mp hheld)]
    dsimp only
    rw [if_pos hheld]
    cases id <;> rfl
  · rw [if_neg (mt (h.held_iff hsafe).mpr hheld)]
    dsimp only
    rw [if_neg hheld]

theorem Indexed.mem_ids_iff (hparse : parseEventId id = some (name, sequence))
    (hname : index.agents.nameOf agent = some name) (hfresh : index.Fresh agent sequence) :
    id ∈ index.ids ↔ ∃ run ∈ index.agentRuns agent,
      Covers EventIdRun.startSequence EventIdRun.length run sequence := by
  have hfiled := h.placed.filed
  have hsequences := @Filed.exists_sequence_iff _ _ _ index.ids.length name hfiled (Nat.le_refl _) sequence
  rw [take_length] at hsequences
  have hlisted : id ∈ index.ids ↔
      ∃ other ∈ index.ids, parseEventId other = some (name, sequence) := by
    refine ⟨fun hid => ⟨id, hid, hparse⟩, ?_⟩
    rintro ⟨other, hother, hotherParse⟩
    rwa [(Codec.parseEventId_eq_some hparse).1, ← (Codec.parseEventId_eq_some hotherParse).1]
  rw [hlisted, hsequences]
  constructor
  · rintro ⟨run, hrun, holder, hnumber, ⟨hholder, hcovers⟩, -⟩
    have hsame := (AgentTable.numberOf_eq_some hfiled.agents).mpr hname
    obtain rfl := Option.some.inj (hnumber.symm.trans hsame)
    cases hcustom : run.custom with
    | false => exact ⟨run, hfiled.mem_agentRuns.mpr ⟨hrun, hcustom, hholder⟩, hcovers⟩
    | true =>
      have hone := (hfiled.sound run hrun).custom hcustom
      have hne := hfresh run hrun hcustom hholder
      obtain ⟨hstart, hend⟩ := hcovers
      omega
  · rintro ⟨run, hrun, hcovers⟩
    obtain ⟨hmem, -, hagent⟩ := hfiled.mem_agentRuns.mp hrun
    refine ⟨run, hmem, agent, (AgentTable.numberOf_eq_some hfiled.agents).mpr hname,
      ⟨hagent, hcovers⟩, ?_⟩
    have hstop := (hfiled.tiles.mem hmem).2.2
    obtain ⟨hstart, hend⟩ := hcovers
    rw [hfiled.length_ids]
    omega

structure Appends (index : EventIdRunIndex) (id : Text)
    (outcome : Except EventIdIndexError Nat × EventIdRunIndex) : Prop where
  indexed : outcome.2.Indexed maxSafeInteger
  agents : index.agents.Extends outcome.2.agents
  refused : id ∈ index.ids → outcome.1 = .error (.eventAlreadyExists id) ∧
    outcome.2 = { index with agents := outcome.2.agents } ∧
      outcome.2.agents.names = index.agents.names
  accepted : id ∉ index.ids → outcome.1 = .ok index.eventCount ∧
    outcome.2.ids = index.ids ++ [id] ∧ outcome.2.eventCount = index.eventCount + 1

omit h in
theorem Appends.of_agents {agents : AgentTable}
    {outcome : Except EventIdIndexError Nat × EventIdRunIndex}
    (h : Appends { index with agents := agents } id outcome)
    (hextends : index.agents.Extends agents)
    (hnames : id ∈ index.ids → agents.names = index.agents.names) : index.Appends id outcome :=
  ⟨h.indexed, hextends.trans h.agents, fun hold => ⟨(h.refused hold).1, (h.refused hold).2.1,
    (h.refused hold).2.2.trans (hnames hold)⟩, h.accepted⟩

omit h in
theorem Indexed.fresh_of_parsed (h : index.Indexed last)
    (hparse : parseEventId id = some (name, sequence))
    (hname : index.agents.nameOf agent = some name)
    (hfresh : ∀ run ∈ index.parsedCustomRuns, run.replicaId ≠ id) :
    index.Fresh agent sequence := by
  intro run hrun hcustom hagent hstart
  obtain ⟨holder, hholder, hparsed⟩ := (h.placed.filed.sound run hrun).parsed hcustom agent hagent
  rw [hname] at hholder
  rw [hstart, ← Option.some.inj hholder] at hparsed
  apply hfresh run ((h.parsed run).mpr ⟨hrun, hcustom, by rw [hagent]; rfl⟩)
  rw [(Codec.parseEventId_eq_some hparsed).1, (Codec.parseEventId_eq_some hparse).1]

theorem Indexed.appendCanonicalRun_appends (hparse : parseEventId id = some (name, sequence))
    (hname : index.agents.nameOf agent = some name) (hcount : index.eventCount ≤ maxSafeInteger)
    (hfresh : ∀ run ∈ index.parsedCustomRuns, run.replicaId ≠ id)
    {text : Option Text} (htext : text.getD (formatEventId name sequence) = id) :
    index.Appends id (match index.appendCanonicalRun agent sequence text with
      | (.ok _, added) => (.ok index.eventCount, added)
      | (.error error, refused) => (.error error, refused)) := by
  obtain ⟨hid, -, hsafe⟩ := Codec.parseEventId_eq_some hparse
  have hnone := h.fresh_of_parsed hparse hname hfresh
  have hmem := h.mem_ids_iff hparse hname hnone
  rw [h.appendCanonicalRun_spec hname hsafe text]
  split_ifs with hheld
  · rw [htext]
    exact ⟨h, h.placed.filed.agents.refl, fun _ => ⟨rfl, rfl, rfl⟩,
      fun hnew => absurd (hmem.mpr hheld) hnew⟩
  · have hcovers : ∀ other ∈ index.agentRuns agent,
        ¬ Covers EventIdRun.startSequence EventIdRun.length other sequence :=
      fun other hother hcovers => hheld ⟨other, hother, hcovers⟩
    obtain ⟨hadded, hids, hnext⟩ := h.addCanonicalRun_spec hname hsafe hcount hnone hcovers
    rw [← hid] at hids
    exact ⟨hadded, h.placed.filed.agents.refl, fun hold => absurd (hmem.mp hold) hheld,
      fun _ => ⟨rfl, hids, hnext⟩⟩

theorem Indexed.ids_nodup : index.ids.Nodup := by
  rw [nodup_iff_getElem?_ne_getElem?]
  intro first second hlt hsecond heq
  have hlocal := (@Placed.localVersionOf_spec _ _ _ index.ids.length index.ids[second] h.placed
    (Nat.le_refl _)).1
  rw [take_length] at hlocal
  have hget := getElem?_eq_getElem hsecond
  have hversion := (hlocal second).mpr hget
  rw [(hlocal first).mpr (heq.trans hget)] at hversion
  exact absurd (Option.some.inj hversion) (Nat.ne_of_lt hlt)

theorem Indexed.growLast_appends
    (hlast : index.runs.getLast? = some run) (hcustom : run.custom = false)
    (hsequence : run.startSequence + run.length = sequence) (hsafe : sequence ≤ maxSafeInteger)
    (hlimit : belowLimit sequence run.sequenceLimit = true)
    (hcount : index.eventCount ≤ maxSafeInteger) (hid : id = formatEventId run.replicaId sequence)
    (hfresh : ∀ run ∈ index.parsedCustomRuns, run.replicaId ≠ id) :
    index.Appends id (.ok index.eventCount, index.growLast run) := by
  have hrun : run ∈ index.runs := mem_of_getLast? hlast
  obtain ⟨-, agent, hagent, hname⟩ := (h.placed.filed.sound run hrun).canonical hcustom
  have hparse : parseEventId id = some (run.replicaId, sequence) := by
    rw [hid]
    exact Codec.parseEventId_format (h.placed.filed.agents.name_ne_nil hname) hsafe
  obtain ⟨hgrown, hids, hnext⟩ := h.growLast_spec hlast hcustom hagent hsequence hsafe hlimit hcount
    (h.fresh_of_parsed hparse hname hfresh)
  rw [← hid] at hids
  have hnew : id ∉ index.ids := by
    have hnodup := hgrown.ids_nodup
    rw [hids, nodup_append] at hnodup
    exact fun hmem => hnodup.2.2 id hmem id (mem_singleton_self _) rfl
  exact ⟨hgrown, h.placed.filed.agents.refl, fun hold => absurd hold hnew,
    fun _ => ⟨rfl, hids, hnext⟩⟩

end

structure IsCustomRun (last : Nat) (index next : EventIdRunIndex) (id : Text) (offset : Nat)
    (run : EventIdRun) : Prop where
  runs : next.runs = index.runs ++ [run]
  runsByAgent : next.runsByAgent = index.runsByAgent
  customOffsets : next.customOffsets = index.customOffsets.set id offset
  eventCount : next.eventCount = index.eventCount
  agents : index.agents.Extends next.agents
  custom : run.custom = true
  replicaId : run.replicaId = id
  startEventOffset : run.startEventOffset = offset
  length : run.length = 1
  sound : run.Sound next.agents last
  parsed : ∀ other, other ∈ next.parsedCustomRuns ↔
    other ∈ index.parsedCustomRuns ∨ (other = run ∧ run.agent.isSome)

theorem IsCustomRun.parsed_iff (hrun : IsCustomRun last index next id stop run)
    (h : ∀ other, other ∈ index.parsedCustomRuns ↔
      other ∈ index.runs ∧ other.custom = true ∧ other.agent.isSome) (other : EventIdRun) :
    other ∈ next.parsedCustomRuns ↔
      other ∈ next.runs ∧ other.custom = true ∧ other.agent.isSome := by
  rw [hrun.parsed, h, hrun.runs, mem_concat_iff, or_and_right]
  refine or_congr_right (and_congr_right ?_)
  rintro rfl
  exact (and_iff_right hrun.custom).symm

theorem IsCustomRun.ids_eq (hrun : IsCustomRun last index next id stop run) :
    next.ids = index.ids ++ [id] := by
  rw [ids_push hrun.runs, EventIdRun.ids, if_pos hrun.custom, hrun.replicaId]

theorem pushCustomRun_isCustomRun (hsound : index.agents.Sound) (id : Text) (offset last : Nat) :
    ∃ run, IsCustomRun last index (index.pushCustomRun id offset) id offset run := by
  unfold pushCustomRun
  cases hparse : parseEventId id with
  | none =>
    exact ⟨_, rfl, rfl, rfl, rfl, hsound.refl, rfl, rfl, rfl, rfl,
      ⟨Nat.one_pos, (by rintro ⟨⟩), fun _ => rfl,
        (by rintro _ _ ⟨⟩), fun _ _ => hparse⟩,
      fun other => (or_iff_left fun hsome => absurd hsome.2 Bool.false_ne_true).symm⟩
  | some pair =>
    obtain ⟨replicaId, sequence⟩ := pair
    obtain ⟨hid, hne, -⟩ := Codec.parseEventId_eq_some hparse
    have htake : id.take replicaId.length = replicaId := by
      rw [hid]
      exact take_left
    have hlength : replicaId.length ≤ id.length := by
      rw [hid, formatEventId, length_append]
      omega
    obtain ⟨hextends, hname⟩ := AgentTable.internPrefix_spec hsound hlength (by rwa [htake])
    rw [htake] at hname
    refine ⟨_, rfl, rfl, rfl, rfl, hextends, rfl, rfl, rfl, rfl,
      ⟨Nat.one_pos, (by rintro ⟨⟩), fun _ => rfl, ?_,
        (by rintro _ ⟨⟩)⟩, ?_⟩
    · rintro - agent hagent
      obtain rfl := Option.some.inj hagent
      exact ⟨replicaId, hname, hparse⟩
    · intro other
      dsimp only
      rw [mem_concat_iff]
      simp

theorem Filed.pushCustom (h : index.Filed last stop)
    (hrun : IsCustomRun last index next id stop run) (hnew : index.customOffsets.get? id = none) :
    next.Filed last (stop + 1) := by
  rw [← hrun.length]
  refine h.pushRun hrun.startEventOffset hrun.sound hrun.agents hrun.runs ?_ ?_
  · intro agent place
    rw [hrun.runsByAgent]
    exact (or_iff_left fun hcanonical => by rw [hrun.custom] at hcanonical; cases hcanonical.2.1).symm
  · intro other offset
    rw [hrun.customOffsets, InsertionMap.get?_set, hrun.replicaId, hrun.startEventOffset,
      hrun.custom]
    split
    · rename_i heq
      subst heq
      simp [hnew]
    · rename_i hne
      simp [Ne.symm hne]

theorem Placed.pushCustom (h : index.Placed last stop)
    (hrun : IsCustomRun last index next id stop run) (hnew : index.customOffsets.get? id = none)
    (hapart : ∀ agent, run.agent = some agent → ∀ other ∈ index.runs, other.custom = false →
      ¬ other.Holds agent run.startSequence) : next.Placed last (stop + 1) := by
  have hnext := h.filed.pushCustom hrun hnew
  rw [← hrun.length] at hnext ⊢
  refine h.pushRun hnext hrun.runs ?_ (fun _ => hapart) ?_
  · intro agent
    rw [hrun.runs, hrun.runsByAgent]
    apply (h.follows agent).imp_of_mem
    intro place follower hplace hfollower hfollows
    exact (follows_append_iff (h.filed.lt_length hplace) (h.filed.lt_length hfollower)).mpr hfollows
  · intro hcanonical
    rw [hrun.custom] at hcanonical
    cases hcanonical

section

variable (h : index.Indexed maxSafeInteger)
include h

theorem Indexed.has_custom_iff (hparse : parseEventId id = none) :
    index.customOffsets.has id = true ↔ id ∈ index.ids := by
  have hlocal := (@Placed.localVersionOf_spec _ _ _ index.ids.length id h.placed (Nat.le_refl _)).1
  rw [localVersionOf, hparse, take_length] at hlocal
  rw [InsertionMap.has_iff, mem_iff_getElem?]
  constructor
  · rintro ⟨version, hversion⟩
    refine ⟨version, (hlocal version).mp (Option.filter_eq_some_iff.mpr ⟨hversion, ?_⟩)⟩
    obtain ⟨run, hrun, -, -, rfl⟩ := (h.placed.filed.customOffsets id version).mp hversion
    have hstop := (h.placed.filed.tiles.mem hrun).2
    rw [decide_eq_true_eq, h.placed.filed.length_ids]
    omega
  · rintro ⟨version, hversion⟩
    exact ⟨version, (Option.filter_eq_some_iff.mp ((hlocal version).mpr hversion)).1⟩

theorem Indexed.pushCustom_appends
    (hparse : parseEventId id = none) (hcount : index.eventCount ≤ maxSafeInteger)
    (hnew : id ∉ index.ids) :
    index.Appends id (.ok index.eventCount, { index.pushCustomRun id index.eventCount with
      eventCount := numberAdd index.eventCount 1 }) := by
  obtain ⟨run, hrun⟩ := pushCustomRun_isCustomRun h.placed.filed.agents id index.eventCount
    maxSafeInteger
  have habsent : index.customOffsets.get? id = none := by
    rw [← InsertionMap.has_eq_false, ← Bool.not_eq_true, h.has_custom_iff hparse]
    exact hnew
  have hunparsed : run.agent = none := by
    cases hagent : run.agent with
    | none => rfl
    | some agent =>
      obtain ⟨name, -, hparsed⟩ := hrun.sound.parsed hrun.custom agent hagent
      rw [hrun.replicaId, hparse] at hparsed
      cases hparsed
  have hplaced := h.placed.pushCustom hrun habsent (by
    intro agent hagent
    rw [hunparsed] at hagent
    cases hagent)
  have hcountNext : numberAdd index.eventCount 1 = index.eventCount + 1 :=
    numberAdd_of_le (by omega)
  rw [hcountNext]
  refine ⟨⟨?_, ?_, ?_⟩, hrun.agents, fun hold => absurd hold hnew, fun _ => ⟨rfl, ?_, rfl⟩⟩
  · exact hplaced.anew hplaced.filed.agents.refl rfl rfl rfl
  · exact Nat.succ_le_succ hcount
  · exact hrun.parsed_iff h.parsed
  · exact hrun.ids_eq

theorem Indexed.append_spec (hcount : index.eventCount ≤ maxSafeInteger)
    (hfresh : ∀ run ∈ index.parsedCustomRuns, run.replicaId ≠ id) :
    index.Appends id (index.append id) := by
  have hfiled := h.placed.filed
  unfold append
  cases hlast : index.runs.getLast?.filter (extendsRun id) with
  | some run =>
    obtain ⟨hrun, hextends⟩ := Option.filter_eq_some_iff.mp hlast
    simp only [extendsRun, Bool.and_eq_true, Bool.not_eq_true', decide_eq_true_eq] at hextends
    obtain ⟨⟨⟨hcustom, hlimit⟩, hsafe⟩, hid⟩ := hextends
    have hend := ((hfiled.sound run (mem_of_getLast? hrun)).canonical hcustom).1
    rw [numberAdd_of_le (by omega)] at hlimit hsafe hid
    exact h.growLast_appends hrun hcustom rfl hsafe hlimit hcount hid hfresh
  | none =>
    dsimp only
    cases hparse : parseEventId id with
    | none =>
      dsimp only
      split
      · rename_i hhas
        have hmem := (h.has_custom_iff hparse).mp hhas
        exact ⟨h, hfiled.agents.refl, fun _ => ⟨rfl, rfl, rfl⟩, fun hnew => absurd hmem hnew⟩
      · rename_i hhas
        exact h.pushCustom_appends hparse hcount (mt (h.has_custom_iff hparse).mpr hhas)
    | some pair =>
      obtain ⟨name, sequence⟩ := pair
      obtain ⟨hid, hne, -⟩ := Codec.parseEventId_eq_some hparse
      have htake : id.take name.length = name := by
        rw [hid]
        exact take_left
      have hlength : name.length ≤ id.length := by
        rw [hid, formatEventId, length_append]
        omega
      obtain ⟨hextends, hname⟩ := AgentTable.internPrefix_spec hfiled.agents hlength
        (by rwa [htake])
      rw [htake] at hname
      have hknown : id ∈ index.ids →
          (index.agents.internPrefix id name.length).2.names = index.agents.names := by
        intro hold
        obtain ⟨run, -, agent, hnumber, -⟩ :=
          (@Filed.exists_sequence_iff _ _ _ index.ids.length _ hfiled (Nat.le_refl _) _).mp
            ⟨id, by rwa [take_length], hparse⟩
        refine @AgentTable.internPrefix_known _ _ agent _ hfiled.agents hlength ?_
        rw [htake]
        exact (AgentTable.numberOf_eq_some hfiled.agents).mp hnumber
      dsimp only
      generalize index.agents.internPrefix id name.length = interned at hextends hname hknown ⊢
      have hinterned : ({ index with agents := interned.2 } : EventIdRunIndex).Indexed
          maxSafeInteger := h.anew hextends rfl rfl rfl rfl rfl
      exact (@Indexed.appendCanonicalRun_appends _ _ _ _ _ hinterned hparse hname hcount hfresh
        (some id) rfl).of_agents hextends hknown

theorem Indexed.appendCanonical_spec
    (hcount : index.eventCount ≤ maxSafeInteger) (hname : index.agents.nameOf agent = some name)
    (hsafe : sequence ≤ maxSafeInteger)
    (hfresh : ∀ run ∈ index.parsedCustomRuns, run.replicaId ≠ formatEventId name sequence) :
    index.Appends (formatEventId name sequence) (index.appendCanonical agent sequence) := by
  have hfiled := h.placed.filed
  have hparse := Codec.parseEventId_format (hfiled.agents.name_ne_nil hname) hsafe
  unfold appendCanonical
  cases hlast : index.runs.getLast?.filter (continuesRun agent sequence) with
  | some run =>
    obtain ⟨hrun, hcontinues⟩ := Option.filter_eq_some_iff.mp hlast
    simp only [continuesRun, Bool.and_eq_true, Bool.not_eq_true', decide_eq_true_eq] at hcontinues
    obtain ⟨⟨⟨hcustom, hagent⟩, hsequence⟩, hlimit⟩ := hcontinues
    have hmem := mem_of_getLast? hrun
    have hend := ((hfiled.sound run hmem).canonical hcustom).1
    rw [numberAdd_of_le (by omega)] at hsequence
    have hreplica := hfiled.agent_eq hmem hcustom hagent
    rw [hname] at hreplica
    exact h.growLast_appends hrun hcustom hsequence hsafe hlimit hcount
      (by rw [Option.some.inj hreplica]) hfresh
  | none => exact h.appendCanonicalRun_appends hparse hname hcount hfresh rfl

end

end EventIdRunIndex

end Softmaple.Graph
