import Softmaple.Graph.IdIndexTruncate

/-!
The runs of each agent sorted by sequence, with the limits up to which they may grow.
Overlapping runs of one agent are refused.
-/
namespace Softmaple.Graph

open List

open Codec (JsNumber IdRun parseEventId formatEventId numberAdd numberAdd_of_le)
open Tiling (Tiles Covers Apart)
open PayloadIdRun (ofRun Valid KeysApart)

namespace EventIdRun

def unlimited (run : EventIdRun) : EventIdRun := { run with sequenceLimit := none }

theorem eq_of_unlimited {run other : EventIdRun} (h : run.unlimited = other.unlimited) :
    run = { other with sequenceLimit := run.sequenceLimit } := by
  cases run
  cases other
  simp only [unlimited, EventIdRun.mk.injEq] at h
  simp [h]

end EventIdRun

def SameButLimits (runs limited : List EventIdRun) : Prop :=
  limited.map EventIdRun.unlimited = runs.map EventIdRun.unlimited

namespace SameButLimits

variable {runs limited : List EventIdRun} {run : EventIdRun} {place : Nat}

section

variable (h : SameButLimits runs limited)
include h

theorem symm : SameButLimits limited runs := Eq.symm h

theorem trans {last : List EventIdRun}
    (hlast : SameButLimits limited last) : SameButLimits runs last := Eq.trans hlast h

theorem getElem? (hget : runs[place]? = some run) :
    ∃ limit, limited[place]? = some { run with sequenceLimit := limit } := by
  have hplace := congrArg (·[place]?) h
  simp only [getElem?_map, hget, Option.map_some] at hplace
  obtain ⟨found, hfound, heq⟩ := Option.map_eq_some_iff.mp hplace
  exact ⟨found.sequenceLimit, by rw [hfound, ← EventIdRun.eq_of_unlimited heq]⟩

theorem mem (hrun : run ∈ runs) : ∃ limit, { run with sequenceLimit := limit } ∈ limited := by
  obtain ⟨place, hget⟩ := mem_iff_getElem?.mp hrun
  obtain ⟨limit, hlimited⟩ := h.getElem? hget
  exact ⟨limit, mem_of_getElem? hlimited⟩

end

theorem set (hget : runs[place]? = some run) (limit : Option Nat) :
    SameButLimits runs (runs.set place { run with sequenceLimit := limit }) := by
  unfold SameButLimits
  apply ext_getElem?
  intro position
  rw [getElem?_map, getElem?_map, getElem?_set]
  split_ifs with hsame hlt
  · rw [← hsame, hget]
    rfl
  · rw [← hsame, getElem?_eq_none (not_lt.mp hlt)]
  · rfl

end SameButLimits

section Limits

variable {places : List Nat} {runs limited : List EventIdRun}

def SafeAt (runs : List EventIdRun) (place : Nat) : Prop :=
  ∃ run, runs[place]? = some run ∧ 0 < run.length ∧ run.startSequence ≤ maxSafeInteger ∧
    run.startSequence + run.length ≤ maxSafeInteger + 2

theorem SafeAt.of_sameButLimits {place : Nat} (h : SafeAt runs place) (hsame : SameButLimits runs limited) :
    SafeAt limited place := by
  obtain ⟨run, hget, hsafe⟩ := h
  obtain ⟨limit, hlimited⟩ := hsame.getElem? hget
  exact ⟨_, hlimited, hsafe⟩

/-- Where no run reaches into the next one, each may grow up to the next one. -/
theorem limitRuns_ok (hnodup : places.Nodup) (hsafe : ∀ place ∈ places, SafeAt runs place)
    (hok : EventIdRunIndex.limitRuns places runs = .ok limited) :
    SameButLimits runs limited ∧ (∀ place ∉ places, limited[place]? = runs[place]?) ∧
      places.Pairwise (Follows limited) := by
  induction places generalizing runs with
  | nil =>
    obtain rfl := Except.ok.inj hok
    exact ⟨rfl, fun _ _ => rfl, List.Pairwise.nil⟩
  | cons first places ih =>
    cases places with
    | nil =>
      obtain rfl := Except.ok.inj hok
      exact ⟨rfl, fun _ _ => rfl, pairwise_singleton _ _⟩
    | cons second rest =>
      obtain ⟨hfirstNew, hrestNodup⟩ := nodup_cons.mp hnodup
      obtain ⟨⟨previous, hprevious, -, -, hpreviousEnd⟩, hrestSafe⟩ :=
        forall_mem_cons.mp hsafe
      obtain ⟨run, hrun, hpos, hstart, -⟩ := hrestSafe second mem_cons_self
      rw [EventIdRunIndex.limitRuns, hprevious, hrun] at hok
      dsimp only at hok
      split_ifs at hok with hoverlap
      rw [lt_numberAdd_iff hstart hpreviousEnd] at hoverlap
      have hset := SameButLimits.set hprevious (some run.startSequence)
      obtain ⟨hsame, hothers, hpairs⟩ := ih hrestNodup
        (fun place hplace => (hrestSafe place hplace).of_sameButLimits hset) hok
      refine ⟨hset.trans hsame, fun place hplace => ?_, pairwise_cons.mpr ⟨?_, hpairs⟩⟩
      · obtain ⟨hne, hrest⟩ := not_or.mp (mt mem_cons.mpr hplace)
        rw [hothers place hrest, getElem?_set_ne (Ne.symm hne)]
      · intro next hnext held follower hheld hfollower
        rw [hothers first hfirstNew, getElem?_set_self
          (List.getElem?_eq_some_iff.mp hprevious).1] at hheld
        obtain rfl := Option.some.inj hheld
        obtain ⟨limit, hsecond⟩ := (hset.trans hsame).getElem? hrun
        have hle : run.startSequence ≤ follower.startSequence := by
          obtain rfl | hlater := mem_cons.mp hnext
          · rw [hsecond] at hfollower
            rw [← Option.some.inj hfollower]
          · have hfollows := (pairwise_cons.mp hpairs).1 next hlater _ _ hsecond hfollower
            have := hfollows.1
            dsimp only at this
            omega
        exact ⟨Nat.le_trans (not_lt.mp hoverlap) hle, fun _ => ⟨_, rfl, hle⟩⟩

def Overlap (runs : List EventIdRun) (place other : Nat) : Prop :=
  ∃ run follower, runs[place]? = some run ∧ runs[other]? = some follower ∧
    Covers EventIdRun.startSequence EventIdRun.length run follower.startSequence

theorem Overlap.of_limited {place other : Nat} (h : Overlap limited place other)
    (hsame : SameButLimits runs limited) : Overlap runs place other := by
  obtain ⟨run, follower, hrun, hfollower, hcovers⟩ := h
  obtain ⟨limit, hrun⟩ := hsame.symm.getElem? hrun
  obtain ⟨bound, hfollower⟩ := hsame.symm.getElem? hfollower
  exact ⟨_, _, hrun, hfollower, hcovers⟩

theorem limitRuns_error {error : EventIdIndexError} (hnodup : places.Nodup)
    (hsafe : ∀ place ∈ places, SafeAt runs place)
    (hsorted : places.Pairwise fun place next => ∀ run follower, runs[place]? = some run →
      runs[next]? = some follower → run.startSequence ≤ follower.startSequence)
    (herror : EventIdRunIndex.limitRuns places runs = .error error) :
    ∃ place ∈ places, ∃ other ∈ places, place ≠ other ∧ Overlap runs place other := by
  induction places generalizing runs with
  | nil => cases herror
  | cons first places ih =>
    cases places with
    | nil => cases herror
    | cons second rest =>
      obtain ⟨hfirstNew, hrestNodup⟩ := nodup_cons.mp hnodup
      obtain ⟨⟨previous, hprevious, -, -, hpreviousEnd⟩, hrestSafe⟩ :=
        forall_mem_cons.mp hsafe
      obtain ⟨run, hrun, hpos, hstart, -⟩ := hrestSafe second mem_cons_self
      obtain ⟨hfirst, hrest⟩ := pairwise_cons.mp hsorted
      rw [EventIdRunIndex.limitRuns, hprevious, hrun] at herror
      dsimp only at herror
      split_ifs at herror with hoverlap
      · rw [lt_numberAdd_iff hstart hpreviousEnd] at hoverlap
        refine ⟨first, mem_cons_self, second, by simp, ?_, previous, run, hprevious, hrun,
          hfirst second mem_cons_self previous run hprevious hrun, hoverlap⟩
        rintro rfl
        exact hfirstNew mem_cons_self
      · have hset := SameButLimits.set hprevious (some run.startSequence)
        obtain ⟨place, hplace, other, hother, hne, hshared⟩ := ih hrestNodup
          (fun place hplace => (hrestSafe place hplace).of_sameButLimits hset)
          (hrest.imp fun hle held follower hheld hfollower => by
            obtain ⟨limit, hheld⟩ := hset.symm.getElem? hheld
            obtain ⟨bound, hfollower⟩ := hset.symm.getElem? hfollower
            have hordered := hle _ _ hheld hfollower
            exact hordered) herror
        exact ⟨place, mem_cons_of_mem _ hplace, other, mem_cons_of_mem _ hother, hne,
          hshared.of_limited hset⟩

end Limits

theorem isSortedBySequence_iff {runs : List EventIdRun} : isSortedBySequence runs = true ↔
      runs.Pairwise fun run later => run.startSequence ≤ later.startSequence := by
  induction runs with
  | nil => simp [isSortedBySequence]
  | cons previous rest ih =>
    cases rest with
    | nil => simp [isSortedBySequence]
    | cons run rest =>
      rw [isSortedBySequence, Bool.and_eq_true, ih, pairwise_cons (a := previous)]
      simp only [Bool.not_eq_eq_eq_not, Bool.not_true, decide_eq_false_iff_not, Nat.not_lt]
      refine and_congr_left fun hrest => ⟨fun hle later hlater => ?_,
        fun hall => hall run mem_cons_self⟩
      obtain rfl | hlater := mem_cons.mp hlater
      · exact hle
      · exact Nat.le_trans hle ((pairwise_cons.mp hrest).1 later hlater)

namespace EventIdRunIndex

variable {index next : EventIdRunIndex} {payload : List IdRun} {stop agent : Nat}

theorem sortedPlaces_perm (places : List Nat) : (index.sortedPlaces places).Perm places := by
  unfold sortedPlaces
  split
  · exact List.Perm.refl _
  · exact mergeSort_perm _ _

theorem sortedPlaces_sorted (places : List Nat) :
    (index.sortedPlaces places).Pairwise fun place next => ∀ run follower,
      index.runs[place]? = some run → index.runs[next]? = some follower →
        run.startSequence ≤ follower.startSequence := by
  unfold sortedPlaces
  split
  · rename_i hsorted
    have hpairs := isSortedBySequence_iff.mp hsorted
    rw [pairwise_filterMap] at hpairs
    exact hpairs.imp fun hle run follower hrun hfollower => hle run hrun follower hfollower
  · have hpairs := @List.pairwise_mergeSort _ (fun left right : Nat =>
        decide ((index.runs[left]?.map (·.startSequence)).getD 0 ≤
          (index.runs[right]?.map (·.startSequence)).getD 0))
      (fun _ _ _ hle hle' => decide_eq_true (Nat.le_trans (of_decide_eq_true hle)
        (of_decide_eq_true hle')))
      (fun left right => by
        rw [Bool.or_eq_true, decide_eq_true_eq, decide_eq_true_eq]
        exact Nat.le_total _ _) places
    refine hpairs.imp fun hle run follower hrun hfollower => ?_
    have hle := of_decide_eq_true hle
    rwa [hrun, hfollower] at hle

theorem Building.limit (h : index.Building stop payload)
    (hsame : SameButLimits index.runs next.runs)
    (hcustom : ∀ (place : Nat) (run : EventIdRun), index.runs[place]? = some run → run.custom = true →
      next.runs[place]? = some run)
    (hagents : next.agents = index.agents)
    (hby : ∀ agent, (next.runsByAgent agent).Perm (index.runsByAgent agent))
    (hoffsets : next.customOffsets = index.customOffsets)
    (hparsed : next.parsedCustomRuns = index.parsedCustomRuns) : next.Building stop payload := by
  have hcustomMem : ∀ run : EventIdRun, run.custom = true →
      (run ∈ next.runs ↔ run ∈ index.runs) := by
    intro run hrunCustom
    constructor
    · intro hrun
      obtain ⟨place, hget⟩ := mem_iff_getElem?.mp hrun
      obtain ⟨limit, hold⟩ := hsame.symm.getElem? hget
      have hkept := hcustom place _ hold hrunCustom
      rw [hget] at hkept
      rw [Option.some.inj hkept]
      exact mem_of_getElem? hold
    · intro hrun
      obtain ⟨place, hget⟩ := mem_iff_getElem?.mp hrun
      exact mem_of_getElem? (hcustom place run hget hrunCustom)
  refine ⟨⟨hagents ▸ h.filed.agents, ?_, ?_, ?_, ?_⟩, ?_, ?_, ?_⟩
  · have hmap {runs : List EventIdRun} := @Tiles.map_iff _ EventIdRun.startEventOffset EventIdRun.length 0 stop
      runs EventIdRun.unlimited (fun _ => rfl) fun _ => rfl
    rw [← hmap, hsame, hmap]
    exact h.filed.tiles
  · intro run hrun
    obtain ⟨limit, hold⟩ := hsame.symm.mem hrun
    have hsound := h.filed.sound _ hold
    rw [hagents]
    exact ⟨hsound.length_pos, hsound.canonical, hsound.custom, hsound.parsed, hsound.unparsed⟩
  · intro agent place
    rw [(hby agent).mem_iff, h.filed.byAgent]
    constructor
    · rintro ⟨run, hget, hrun⟩
      obtain ⟨limit, hlimited⟩ := hsame.getElem? hget
      exact ⟨_, hlimited, hrun⟩
    · rintro ⟨run, hget, hrun⟩
      obtain ⟨limit, hold⟩ := hsame.symm.getElem? hget
      exact ⟨_, hold, hrun⟩
  · intro id offset
    rw [hoffsets, h.filed.customOffsets]
    exact exists_congr fun run => and_congr_left fun hrun => (hcustomMem run hrun.1).symm
  · intro run
    rw [hparsed, h.parsed]
    exact and_congr_left fun hrun => (hcustomMem run hrun.1).symm
  · exact fun agent => (hby agent).nodup_iff.mpr (h.nodup agent)
  · have hmatches : ∀ runs, List.Forall₂ Matches payload (runs.map EventIdRun.unlimited) ↔
        List.Forall₂ Matches payload runs := by
      intro runs
      rw [forall₂_map_right_iff]
      have hone : ∀ payload run, Matches payload run.unlimited ↔ Matches payload run :=
        fun payload run => ⟨fun ⟨ha, hb, hc, hd, he⟩ => ⟨ha, hb, hc, hd, he⟩,
          fun ⟨ha, hb, hc, hd, he⟩ => ⟨ha, hb, hc, hd, he⟩⟩
      simp only [hone]
    rw [← hmatches, hsame, hmatches]
    exact h.runs

structure Sorting (index : EventIdRunIndex) (stop : Nat) (payload : List IdRun)
    (todo : List Nat) : Prop where
  building : index.Building stop payload
  valid : ∀ run ∈ payload, Valid (maxSafeInteger + 1) run
  follows : ∀ agent ∉ todo, (index.runsByAgent agent).Pairwise (Follows index.runs)

variable {place : Nat} {todo : List Nat}

theorem Sorting.safeAt (h : index.Sorting stop payload todo)
    (hplace : place ∈ index.runsByAgent agent) : SafeAt index.runs place := by
  obtain ⟨run, hget, hcustom, -⟩ := (h.building.filed.byAgent agent place).mp hplace
  have hmem := mem_of_getElem? hget
  have hsound := h.building.filed.sound run hmem
  obtain ⟨original, horiginal, hmatches⟩ := exists_matching h.building.runs hmem
  have hcustomEq : original.custom = false := hmatches.custom.symm.trans hcustom
  refine ⟨run, hget, hsound.length_pos, ?_, (hsound.canonical hcustom).1⟩
  rw [hmatches.startSequence hcustomEq]
  exact (h.valid original horiginal).startSequence

theorem Sorting.sortAgent_ok (h : index.Sorting stop payload (agent :: todo))
    (hok : index.sortAgent agent = .ok next) :
    next.Sorting stop payload todo ∧ next.parsedCustomRuns = index.parsedCustomRuns ∧
      next.eventCount = index.eventCount ∧ next.agents = index.agents := by
  unfold sortAgent at hok
  split_ifs at hok with hshort
  · obtain rfl := Except.ok.inj hok
    refine ⟨⟨h.building, h.valid, fun other hother => ?_⟩, rfl, rfl, rfl⟩
    obtain rfl | hne := eq_or_ne other agent
    · generalize index.runsByAgent other = places at hshort ⊢
      match places with
      | [] => exact List.Pairwise.nil
      | [_] => exact pairwise_singleton _ _
      | _ :: _ :: _ => simp at hshort
    · exact h.follows other (not_mem_cons_of_ne_of_not_mem hne hother)
  · have hperm := @sortedPlaces_perm index (index.runsByAgent agent)
    cases hlimit : limitRuns (index.sortedPlaces (index.runsByAgent agent)) index.runs with
    | error error =>
      dsimp only at hok
      rw [hlimit] at hok
      cases hok
    | ok runs =>
      dsimp only at hok
      rw [hlimit] at hok
      obtain rfl := Except.ok.inj hok
      obtain ⟨hsame, hothers, hpairs⟩ := limitRuns_ok (hperm.nodup_iff.mpr (h.building.nodup agent))
        (fun place hplace => h.safeAt (hperm.mem_iff.mp hplace)) hlimit
      refine ⟨⟨h.building.limit hsame ?_ rfl ?_ rfl rfl, h.valid, ?_⟩, rfl, rfl, rfl⟩
      · intro place run hget hcustom
        refine (hothers place fun hplace => ?_).trans hget
        obtain ⟨found, hfound, hcanonical, -⟩ :=
          (h.building.filed.byAgent agent place).mp (hperm.mem_iff.mp hplace)
        rw [hget] at hfound
        rw [← Option.some.inj hfound, hcustom] at hcanonical
        cases hcanonical
      · intro other
        unfold setAgentRuns
        dsimp only
        split_ifs with hother
        · rw [hother]
          exact hperm
        · exact List.Perm.refl _
      · intro other hother
        unfold setAgentRuns
        dsimp only
        split_ifs with hagent
        · exact hpairs
        · have hkept : ∀ place ∈ index.runsByAgent other, runs[place]? = index.runs[place]? := by
            intro place hplace
            refine hothers place fun hin => hagent ?_
            obtain ⟨run, hget, -, hrunAgent⟩ := (h.building.filed.byAgent other place).mp hplace
            obtain ⟨found, hfound, -, hfoundAgent⟩ :=
              (h.building.filed.byAgent agent place).mp (hperm.mem_iff.mp hin)
            rw [hget] at hfound
            rw [← Option.some.inj hfound, hrunAgent] at hfoundAgent
            exact Option.some.inj hfoundAgent
          have hold := h.follows other (not_mem_cons_of_ne_of_not_mem hagent hother)
          refine hold.imp_of_mem fun hplace hfollower hfollows => ?_
          unfold Follows
          rw [hkept _ hplace, hkept _ hfollower]
          exact hfollows

theorem Sorting.sortAgent_error {error : EventIdIndexError}
    (h : index.Sorting stop payload (agent :: todo)) (herror : index.sortAgent agent = .error error) :
    ∃ place ∈ index.runsByAgent agent, ∃ other ∈ index.runsByAgent agent, place ≠ other ∧
      Overlap index.runs place other := by
  unfold sortAgent at herror
  split_ifs at herror with hshort
  have hperm := @sortedPlaces_perm index (index.runsByAgent agent)
  cases hlimit : limitRuns (index.sortedPlaces (index.runsByAgent agent)) index.runs with
  | ok runs =>
    dsimp only at herror
    rw [hlimit] at herror
    cases herror
  | error error =>
    obtain ⟨place, hplace, other, hother, hne, hshared⟩ := limitRuns_error
      (hperm.nodup_iff.mpr (h.building.nodup agent))
      (fun place hplace => h.safeAt (hperm.mem_iff.mp hplace))
      (sortedPlaces_sorted (index.runsByAgent agent)) hlimit
    exact ⟨place, hperm.mem_iff.mp hplace, other, hperm.mem_iff.mp hother, hne, hshared⟩

theorem exists_getElem? {α β : Type} {R : α → β → Prop} {left : List α} {right : List β}
    (h : List.Forall₂ R left right) {b : β} (hget : right[place]? = some b) :
    ∃ a, left[place]? = some a ∧ R a b := by
  induction h generalizing place with
  | nil => cases hget
  | cons hhead _ ih =>
    cases place with
    | zero =>
      obtain rfl := Option.some.inj hget
      exact ⟨_, rfl, hhead⟩
    | succ place => exact ih hget

theorem Building.key_unique (h : index.Building stop payload) (hapart : payload.Pairwise KeysApart)
    {other : Nat} {run follower : EventIdRun} (hrun : index.runs[place]? = some run)
    (hfollower : index.runs[other]? = some follower) (hne : place ≠ other)
    (key : Text × Option Nat)
    (hkey : HoldsKey run.custom run.replicaId run.startSequence run.length key) :
    ¬ HoldsKey follower.custom follower.replicaId follower.startSequence follower.length key := by
  obtain ⟨first, hfirst, hmatches⟩ := exists_getElem? h.runs hrun
  obtain ⟨second, hsecond, hmatches'⟩ := exists_getElem? h.runs hfollower
  obtain ⟨hfirstLt, rfl⟩ := List.getElem?_eq_some_iff.mp hfirst
  obtain ⟨hsecondLt, rfl⟩ := List.getElem?_eq_some_iff.mp hsecond
  rw [← hmatches.holdsKey_iff] at hkey
  rw [← hmatches'.holdsKey_iff]
  obtain hlt | hgt := Nat.lt_or_gt_of_ne hne
  · exact pairwise_iff_getElem.mp hapart _ _ hfirstLt hsecondLt hlt key hkey
  · exact fun hkey' =>
      pairwise_iff_getElem.mp hapart _ _ hsecondLt hfirstLt hgt key hkey' hkey

theorem Building.not_apart (h : index.Building stop payload) {other : Nat}
    (hplace : place ∈ index.runsByAgent agent) (hother : other ∈ index.runsByAgent agent)
    (hne : place ≠ other) (hoverlap : Overlap index.runs place other) :
    ¬ payload.Pairwise KeysApart := by
  intro hapart
  obtain ⟨run, follower, hrun, hfollower, hstart, hend⟩ := hoverlap
  obtain ⟨found, hfound, hcustom, hagent⟩ := (h.filed.byAgent agent place).mp hplace
  obtain rfl := Option.some.inj (hfound.symm.trans hrun)
  obtain ⟨later, hlater, hlaterCustom, hlaterAgent⟩ := (h.filed.byAgent agent other).mp hother
  obtain rfl := Option.some.inj (hlater.symm.trans hfollower)
  have hname := h.filed.agent_eq (mem_of_getElem? hrun) hcustom hagent
  have hlaterName := h.filed.agent_eq (mem_of_getElem? hfollower) hlaterCustom hlaterAgent
  have hpos := (h.filed.sound later (mem_of_getElem? hfollower)).length_pos
  refine h.key_unique hapart hrun hfollower hne (found.replicaId, some later.startSequence) ?_ ?_
  · rw [HoldsKey, if_neg (by simp [hcustom])]
    exact ⟨_, rfl, hstart, hend⟩
  · rw [HoldsKey, if_neg (by simp [hlaterCustom])]
    rw [hname] at hlaterName
    exact ⟨_, by rw [Option.some.inj hlaterName], Nat.le_refl _, by omega⟩

theorem Sorting.sortAgents_ok {result : EventIdRunIndex}
    (h : index.Sorting stop payload todo) (hok : sortAgents todo index = .ok result) :
    result.Sorting stop payload [] ∧ result.parsedCustomRuns = index.parsedCustomRuns ∧
      result.eventCount = index.eventCount ∧ result.agents = index.agents := by
  induction todo generalizing index with
  | nil =>
    obtain rfl := Except.ok.inj hok
    exact ⟨h, rfl, rfl, rfl⟩
  | cons agent todo ih =>
    unfold sortAgents at hok
    cases hsort : index.sortAgent agent with
    | error error =>
      rw [hsort] at hok
      cases hok
    | ok next =>
      rw [hsort] at hok
      obtain ⟨hnext, hparsed, hcount, hagents⟩ := h.sortAgent_ok hsort
      obtain ⟨hresult, hparsed', hcount', hagents'⟩ := ih hnext hok
      exact ⟨hresult, hparsed'.trans hparsed, hcount'.trans hcount, hagents'.trans hagents⟩

theorem Sorting.sortAgents_error {error : EventIdIndexError}
    (h : index.Sorting stop payload todo) (herror : sortAgents todo index = .error error) :
    ¬ payload.Pairwise KeysApart := by
  induction todo generalizing index with
  | nil => cases herror
  | cons agent todo ih =>
    unfold sortAgents at herror
    cases hsort : index.sortAgent agent with
    | error error =>
      obtain ⟨place, hplace, other, hother, hne, hoverlap⟩ := h.sortAgent_error hsort
      exact h.building.not_apart hplace hother hne hoverlap
    | ok next =>
      rw [hsort] at herror
      exact ih (h.sortAgent_ok hsort).1 herror

theorem Filed.canonical_key {last : Nat} (h : index.Filed last stop) {run : EventIdRun}
    (hrun : run ∈ index.runs) (hcustom : run.custom = false) {key : Text × Option Nat}
    (hkey : HoldsKey run.custom run.replicaId run.startSequence run.length key) :
    ∃ agent sequence, key = (run.replicaId, some sequence) ∧
      index.agents.nameOf agent = some run.replicaId ∧ run.Holds agent sequence := by
  rw [HoldsKey, if_neg (by simp [hcustom])] at hkey
  obtain ⟨sequence, hkey, hcovers⟩ := hkey
  obtain ⟨-, agent, hagent, hname⟩ := (h.sound run hrun).canonical hcustom
  exact ⟨agent, sequence, hkey, hname, hagent, hcovers⟩

theorem Building.pairwise_apart (h : index.Building stop payload)
    (hplaced : index.Placed (maxSafeInteger + 1) stop) : payload.Pairwise KeysApart := by
  have hfiled := h.filed
  -- A custom run and a canonical one share a key only against `apart`.
  have hmixed : ∀ run ∈ index.runs, ∀ holder ∈ index.runs, run.custom = true →
      holder.custom = false → ∀ key,
        HoldsKey run.custom run.replicaId run.startSequence run.length key →
          ¬ HoldsKey holder.custom holder.replicaId holder.startSequence holder.length key := by
    intro run hrun holder hholder hcustom hcanonical key hkey hholderKey
    rw [HoldsKey, if_pos hcustom] at hkey
    obtain ⟨agent, sequence, hholderKey, hname, hholds⟩ :=
      hfiled.canonical_key hholder hcanonical hholderKey
    rw [hkey, keyOf] at hholderKey
    cases hagent : run.agent with
    | none =>
      rw [(hfiled.sound run hrun).unparsed hcustom hagent] at hholderKey
      cases congrArg Prod.snd hholderKey
    | some parsedAgent =>
      obtain ⟨replicaId, hparsedName, hparse⟩ :=
        (hfiled.sound run hrun).parsed hcustom parsedAgent hagent
      rw [hparse] at hholderKey
      obtain ⟨hreplica, hsequence⟩ := Prod.mk.inj hholderKey
      rw [hreplica] at hparsedName
      obtain rfl := AgentTable.nameOf_injective hfiled.agents hparsedName hname
      rw [← Option.some.inj hsequence] at hholds
      exact hplaced.apart run hrun holder hholder hcustom hcanonical parsedAgent hagent hholds
  rw [pairwise_iff_getElem]
  intro first second hfirst hsecond hlt key hkey hkey'
  have hlength := h.runs.length_eq
  obtain ⟨run, hrun⟩ : ∃ run, index.runs[first]? = some run :=
    ⟨_, getElem?_eq_getElem (by omega)⟩
  obtain ⟨follower, hfollower⟩ : ∃ run, index.runs[second]? = some run :=
    ⟨_, getElem?_eq_getElem (by omega)⟩
  obtain ⟨original, horiginal, hmatches⟩ := exists_getElem? h.runs hrun
  obtain ⟨original', horiginal', hmatches'⟩ := exists_getElem? h.runs hfollower
  rw [getElem?_eq_getElem hfirst] at horiginal
  rw [getElem?_eq_getElem hsecond] at horiginal'
  obtain rfl := Option.some.inj horiginal
  obtain rfl := Option.some.inj horiginal'
  rw [hmatches.holdsKey_iff] at hkey
  rw [hmatches'.holdsKey_iff] at hkey'
  have hrunMem := mem_of_getElem? hrun
  have hfollowerMem := mem_of_getElem? hfollower
  obtain hcustom | hcustom := Bool.eq_false_or_eq_true run.custom
  · obtain hcustom' | hcustom' := Bool.eq_false_or_eq_true follower.custom
    · rw [HoldsKey, if_pos hcustom] at hkey
      rw [HoldsKey, if_pos hcustom'] at hkey'
      have hreplica := PayloadIdRun.keyOf_injective (hkey.symm.trans hkey')
      have hoffset := (hfiled.customOffsets _ _).mpr ⟨run, hrunMem, hcustom, rfl, rfl⟩
      rw [hreplica, (hfiled.customOffsets _ _).mpr ⟨follower, hfollowerMem, hcustom', rfl, rfl⟩]
        at hoffset
      have hbefore := hfiled.tiles.before hrun hfollower hlt
      have hpos := (hfiled.sound run hrunMem).length_pos
      have := Option.some.inj hoffset
      omega
    · exact hmixed run hrunMem follower hfollowerMem hcustom hcustom' key hkey hkey'
  · obtain hcustom' | hcustom' := Bool.eq_false_or_eq_true follower.custom
    · exact hmixed follower hfollowerMem run hrunMem hcustom' hcustom key hkey' hkey
    · obtain ⟨agent, sequence, hkey, hname, hagent, hstart, hend⟩ :=
        hfiled.canonical_key hrunMem hcustom hkey
      obtain ⟨agent', sequence', hkey', hname', hagent', hstart', hend'⟩ :=
        hfiled.canonical_key hfollowerMem hcustom' hkey'
      obtain ⟨hreplica, hsequence⟩ := Prod.mk.inj (hkey.symm.trans hkey')
      obtain rfl := Option.some.inj hsequence
      rw [hreplica] at hname
      obtain rfl := AgentTable.nameOf_injective hfiled.agents hname hname'
      obtain hfollows | hfollows := hplaced.follows_or
        ((hfiled.byAgent agent first).mpr ⟨run, hrun, hcustom, hagent⟩)
        ((hfiled.byAgent agent second).mpr ⟨follower, hfollower, hcustom', hagent'⟩)
        (Nat.ne_of_lt hlt)
      · have := (hfollows run follower hrun hfollower).1
        omega
      · have := (hfollows follower run hfollower hrun).1
        omega

theorem checkParsedCustom_eq_ok {runs : List EventIdRun} :
    index.checkParsedCustom runs = .ok next ↔ next = index ∧ ∀ run ∈ runs,
      (run.agent.bind fun agent =>
        canonicalOffset (index.agentRuns agent) run.startSequence) = none := by
  induction runs with
  | nil => simp [checkParsedCustom, eq_comm]
  | cons run runs ih =>
    rw [checkParsedCustom, forall_mem_cons]
    split_ifs with hheld
    · refine iff_of_false (by simp) fun hnone => ?_
      rw [hnone.2.1] at hheld
      cases hheld
    · rw [ih, ← Option.not_isSome_iff_eq_none (o := run.agent.bind _), and_iff_right hheld]

end EventIdRunIndex

end Softmaple.Graph

namespace Softmaple.Graph

open List

open Codec (JsNumber IdRun parseEventId formatEventId numberAdd)
open Tiling (Tiles Covers Apart)
open PayloadIdRun (ofRun Valid KeysApart WellFormed WellFormedUpTo)

namespace EventIdRunIndex

variable {index next : EventIdRunIndex} {payload : List IdRun} {runs : List PayloadIdRun}
  {expectedCount : JsNumber} {agents : AgentTable} {stop agent : Nat}

theorem filed_new (hagents : agents.Sound) (last : Nat) : (new agents).Filed last 0 where
  agents := hagents
  tiles := rfl
  sound := fun _ hrun => nomatch hrun
  byAgent := by simp [new]
  customOffsets := by simp [new]

theorem building_new (hagents : agents.Sound) : (new agents).Building 0 [] where
  filed := filed_new hagents _
  parsed := by simp [new]
  nodup := fun _ => nodup_nil
  runs := .nil

theorem indexed_new (hagents : agents.Sound) : (new agents).Indexed maxSafeInteger where
  placed := ⟨filed_new hagents _, fun _ => List.Pairwise.nil, fun _ hrun => nomatch hrun⟩
  eventCount := Nat.zero_le _
  parsed := by simp [new]

theorem Building.counted (h : index.Building stop payload) (count : Nat) :
    ({ index with eventCount := count } : EventIdRunIndex).Building stop payload :=
  ⟨h.filed.anew h.filed.agents.refl rfl rfl rfl, h.parsed, h.nodup, h.runs⟩

theorem Building.sorting (h : index.Building stop payload)
    (hvalid : ∀ run ∈ payload, Valid (maxSafeInteger + 1) run) :
    index.Sorting stop payload (List.range index.agents.names.length) := by
  refine ⟨h, hvalid, fun agent hagent => ?_⟩
  have hnone : index.runsByAgent agent = [] := by
    rw [eq_nil_iff_forall_not_mem]
    intro place hplace
    obtain ⟨run, hget, hcustom, hrunAgent⟩ := (h.filed.byAgent agent place).mp hplace
    have hname := h.filed.agent_eq (mem_of_getElem? hget) hcustom hrunAgent
    exact hagent (mem_range.mpr (AgentTable.lt_of_nameOf hname))
  rw [hnone]
  exact List.Pairwise.nil

theorem Sorting.canonicalOffset_eq_none (h : index.Sorting stop payload []) {run : EventIdRun}
    (hrun : run ∈ index.runs) (hcustom : run.custom = true) (hagent : run.agent = some agent) :
    canonicalOffset (index.agentRuns agent) run.startSequence = none ↔
      ∀ other ∈ index.runs, other.custom = false → ¬ other.Holds agent run.startSequence := by
  have hfiled := h.building.filed
  obtain ⟨replicaId, -, hparse⟩ := (hfiled.sound run hrun).parsed hcustom agent hagent
  have hsafe := (Codec.parseEventId_eq_some hparse).2.2
  have hsome := fun offset => @canonicalOffset_eq_some _ _
    (agentRuns_apart (h.follows agent not_mem_nil))
    (fun other hother => by
      obtain ⟨hmem, hcanonical, -⟩ := hfiled.mem_agentRuns.mp hother
      exact ((hfiled.sound other hmem).canonical hcanonical).1) hsafe offset
  rw [Option.eq_none_iff_forall_ne_some]
  constructor
  · rintro hnone other hother hcanonical ⟨hholder, hcovers⟩
    exact hnone _ ((hsome _).mpr
      ⟨other, hfiled.mem_agentRuns.mpr ⟨hother, hcanonical, hholder⟩, hcovers, rfl⟩)
  · intro hnone offset hoffset
    obtain ⟨other, hother, hcovers, -⟩ := (hsome offset).mp hoffset
    obtain ⟨hmem, hcanonical, hholder⟩ := hfiled.mem_agentRuns.mp hother
    exact hnone other hmem hcanonical ⟨hholder, hcovers⟩

theorem Sorting.placed_iff (h : index.Sorting stop payload []) :
    (∀ run ∈ index.parsedCustomRuns, (run.agent.bind fun agent =>
        canonicalOffset (index.agentRuns agent) run.startSequence) = none) ↔
      index.Placed (maxSafeInteger + 1) stop := by
  constructor
  · intro hnone
    refine ⟨h.building.filed, fun agent => h.follows agent not_mem_nil, ?_⟩
    intro run hrun other hother hcustom hcanonical agent hagent
    have hparsed := hnone run ((h.building.parsed run).mpr ⟨hrun, hcustom, by rw [hagent]; rfl⟩)
    rw [hagent, Option.bind_some, h.canonicalOffset_eq_none hrun hcustom hagent] at hparsed
    exact hparsed other hother hcanonical
  · intro hplaced run hrun
    obtain ⟨hmem, hcustom, -⟩ := (h.building.parsed run).mp hrun
    cases hagent : run.agent with
    | none => rfl
    | some agent =>
      rw [Option.bind_some, h.canonicalOffset_eq_none hmem hcustom hagent]
      exact fun other hother hcanonical =>
        hplaced.apart run hmem other hother hcustom hcanonical agent hagent

theorem fromRuns_ok (hagents : agents.Sound)
    (hok : fromRuns runs expectedCount agents = .ok index) :
    ∃ total payload, expectedCount = .ofInt (total : Nat) ∧ total ≤ maxSafeInteger ∧
      runs = payload.map ofRun ∧ (∀ run ∈ payload, Valid (maxSafeInteger + 1) run) ∧
        index.Building total payload ∧ index.Placed (maxSafeInteger + 1) total ∧
          index.eventCount = total := by
  unfold fromRuns at hok
  cases hcount : expectedCount.safeNatural? with
  | none =>
    rw [hcount] at hok
    cases hok
  | some expected =>
    obtain ⟨rfl, hexpected⟩ := JsNumber.eq_ofInt_of_safeNatural? hcount
    rw [hcount] at hok
    dsimp only at hok
    cases hindex : indexRuns expected runs 0 0 (new agents) with
    | error error =>
      rw [hindex] at hok
      cases hok
    | ok result =>
      obtain ⟨built, eventOffset⟩ := result
      rw [hindex] at hok
      dsimp only at hok
      split_ifs at hok with hcovered
      obtain rfl := not_not.mp hcovered
      obtain ⟨payload, rfl, hvalid, hbuilt, -⟩ :=
        indexRuns_ok (building_new hagents) (Nat.zero_le _) hindex
      rw [nil_append] at hbuilt
      cases hsort : sortAgents (List.range built.agents.names.length)
          { built with eventCount := eventOffset } with
      | error error =>
        rw [hsort] at hok
        cases hok
      | ok sorted =>
        rw [hsort] at hok
        obtain ⟨rfl, hnone⟩ := checkParsedCustom_eq_ok.mp hok
        obtain ⟨hsorted, -, hsortedCount, -⟩ :=
          ((hbuilt.counted eventOffset).sorting hvalid).sortAgents_ok hsort
        exact ⟨eventOffset, payload, rfl, hexpected, rfl, hvalid, hsorted.building,
          hsorted.placed_iff.mp hnone, hsortedCount⟩

theorem fromRuns_accepts_iff (hagents : agents.Sound) :
    (∃ index, fromRuns runs expectedCount agents = .ok index) ↔
      WellFormedUpTo (maxSafeInteger + 1) runs expectedCount := by
  constructor
  · rintro ⟨index, hok⟩
    obtain ⟨total, payload, hcount, htotal, hruns, hvalid, hbuilding, hplaced, -⟩ :=
      fromRuns_ok hagents hok
    exact ⟨total, payload, hcount, htotal, hruns, hbuilding.tiles, hvalid,
      hbuilding.pairwise_apart hplaced⟩
  · rintro ⟨total, payload, rfl, htotal, rfl, htiles, hvalid, hapart⟩
    obtain ⟨built, hindex, hbuilt⟩ := @indexRuns_of_valid _ _ _ _ _ 0 _ (building_new hagents) htotal
      (Nat.le_refl _) htiles hvalid (by rwa [nil_append])
    rw [nil_append] at hbuilt
    have hsorting := (hbuilt.counted total).sorting hvalid
    unfold fromRuns
    rw [Codec.safeNatural?_ofInt, if_pos htotal]
    dsimp only
    rw [hindex]
    dsimp only
    rw [if_neg (not_not.mpr rfl)]
    cases hsort : sortAgents (List.range built.agents.names.length)
        { built with eventCount := total } with
    | error error => exact absurd hapart (hsorting.sortAgents_error hsort)
    | ok sorted =>
      refine ⟨sorted, checkParsedCustom_eq_ok.mpr ⟨rfl, ?_⟩⟩
      have hsorted := (hsorting.sortAgents_ok hsort).1
      rw [hsorted.placed_iff]
      refine ⟨hsorted.building.filed, fun agent => hsorted.follows agent not_mem_nil, ?_⟩
      rintro run hrun other hother hcustom hcanonical agent hagent ⟨hholder, hcovers⟩
      obtain ⟨place, hget⟩ := mem_iff_getElem?.mp hrun
      obtain ⟨later, hget'⟩ := mem_iff_getElem?.mp hother
      have hne : place ≠ later := by
        rintro rfl
        rw [Option.some.inj (hget.symm.trans hget'), hcanonical] at hcustom
        cases hcustom
      obtain ⟨replicaId, hname, hparse⟩ :=
        (hsorted.building.filed.sound run hrun).parsed hcustom agent hagent
      have hholderName := hsorted.building.filed.agent_eq hother hcanonical hholder
      rw [hname] at hholderName
      refine hsorted.building.key_unique hapart hget hget' hne (keyOf run.replicaId) ?_ ?_
      · rw [HoldsKey, if_pos hcustom]
      · rw [HoldsKey, if_neg (by simp [hcanonical]), keyOf, hparse]
        exact ⟨_, by rw [Option.some.inj hholderName], hcovers⟩

/-- A canonical run that ends with the sequence after the last safe one. -/
def EndsUnsafe (run : PayloadIdRun) : Prop :=
  run.custom = false ∧ ∃ startSequence length : Nat, run.startSequence = .ofInt startSequence ∧
    run.length = .ofInt length ∧ startSequence + length = maxSafeInteger + 2

theorem fromRuns_indexed (hagents : agents.Sound) (hsafe : ∀ run ∈ runs, ¬ EndsUnsafe run)
    (hok : fromRuns runs expectedCount agents = .ok index) :
    index.Indexed maxSafeInteger := by
  obtain ⟨total, payload, -, htotal, rfl, hvalid, hbuilding, hplaced, hcount⟩ :=
    fromRuns_ok hagents hok
  have hend : ∀ run ∈ index.runs, run.custom = false →
      run.startSequence + run.length ≤ maxSafeInteger + 1 := by
    intro run hrun hcustom
    obtain ⟨original, horiginal, hmatches⟩ := exists_matching hbuilding.runs hrun
    have horiginalCustom : original.custom = false := hmatches.custom.symm.trans hcustom
    have hle := (hvalid original horiginal).sequence horiginalCustom
    have hne : original.startSequence + original.length ≠ maxSafeInteger + 2 := fun heq =>
      hsafe (ofRun original) (mem_map_of_mem horiginal)
        ⟨horiginalCustom, original.startSequence, original.length, rfl, rfl, heq⟩
    rw [hmatches.startSequence horiginalCustom, hmatches.length]
    omega
  have hfiled := hplaced.filed
  refine ⟨⟨⟨hfiled.agents, hcount ▸ hfiled.tiles, fun run hrun => ?_, hfiled.byAgent,
    hfiled.customOffsets⟩, hplaced.follows, hplaced.apart⟩, by omega, hbuilding.parsed⟩
  have hsound := hfiled.sound run hrun
  exact ⟨hsound.length_pos, fun hcustom => ⟨hend run hrun hcustom, (hsound.canonical hcustom).2⟩,
    hsound.custom, hsound.parsed, hsound.unparsed⟩

end EventIdRunIndex

end Softmaple.Graph
