import Softmaple.Codec.EventIdRunIndex
import Softmaple.Graph.IdIndexAppend

/-!
Truncating an index of event IDs: runs past the count are dropped one by one from the
end, and the last run that stays is shortened.
-/
namespace Softmaple.Graph

open List

open Codec (JsNumber)
open Tiling (Tiles Covers Apart)

namespace EventIdRun

theorem ids_shortened {run : EventIdRun} {length : Nat} (hcustom : run.custom = false)
    (hle : length ≤ run.length) : { run with length := length }.ids = run.ids.take length := by
  unfold ids
  dsimp only
  rw [if_neg (by simp [hcustom]), if_neg (by simp [hcustom]), ← map_take, take_range,
    Nat.min_eq_left hle]

end EventIdRun

theorem spliceLast_sublist (places : List Nat) (place : Nat) :
    (spliceLast places place).Sublist places := by
  unfold spliceLast
  split
  · simpa using (erase_sublist (a := place) (l := places.reverse)).reverse
  · exact dropLast_sublist places

theorem mem_spliceLast {places : List Nat} {place other : Nat} (hnodup : places.Nodup)
    (hplace : place ∈ places) :
    other ∈ spliceLast places place ↔ other ∈ places ∧ other ≠ place := by
  unfold spliceLast
  rw [if_pos hplace, mem_reverse, (nodup_reverse.mpr hnodup).mem_erase_iff,
    mem_reverse, and_comm]

namespace EventIdRunIndex

variable {index current : EventIdRunIndex} {last stop kept agent : Nat} {run : EventIdRun}
  {removed : Bool}

theorem Placed.nodup_runsByAgent (h : index.Placed last stop) (agent : Nat) :
    (index.runsByAgent agent).Nodup := by
  apply (h.follows agent).imp_of_mem
  rintro place next hplace - hfollows rfl
  obtain ⟨run, hget, -⟩ := (h.filed.byAgent agent place).mp hplace
  have hends := (hfollows run run hget hget).1
  have hpos := (h.filed.sound run (mem_of_getElem? hget)).length_pos
  omega

/-- Turns of the loop that leave the runs up to `stop`. Custom runs that parse are taken off
their list afterwards. -/
structure Truncating (last kept : Nat) (index current : EventIdRunIndex) (removed : Bool)
    (stop : Nat) : Prop where
  placed : current.Placed last stop
  le : kept ≤ stop
  ids : current.ids.take kept = index.ids.take kept
  agents : current.agents = index.agents
  parsedCustomRuns : current.parsedCustomRuns = index.parsedCustomRuns
  parsed : ∀ run, run ∈ index.parsedCustomRuns ∧ run.startEventOffset < stop ↔
    run ∈ current.runs ∧ run.custom = true ∧ run.agent.isSome
  removed : removed = false → ∀ run ∈ index.parsedCustomRuns, run.startEventOffset < stop

theorem Placed.init_lt (h : current.Placed last stop) {init : List EventIdRun}
    (hruns : current.runs = init ++ [run]) :
    (∀ other ∈ init, other.startEventOffset < run.startEventOffset) ∧ 0 < run.length ∧
      run.startEventOffset + run.length = stop := by
  have htiles := h.filed.tiles
  rw [hruns, Tiles.concat_iff] at htiles
  refine ⟨fun other hother => ?_, htiles.2⟩
  have hbefore := htiles.1.mem hother
  omega

section

variable (h : Truncating last kept index current removed stop)
include h

theorem Truncating.pop {next : EventIdRunIndex} (hruns : current.runs = next.runs ++ [run])
    (hplaced : next.Placed last run.startEventOffset) (hkept : kept ≤ run.startEventOffset)
    (hagents : next.agents = current.agents)
    (hparsed : next.parsedCustomRuns = current.parsedCustomRuns) {removed' : Bool}
    (hremoved : removed' = false → removed = false ∧ (run.custom = true → run.agent = none)) :
    Truncating last kept index next removed' run.startEventOffset := by
  obtain ⟨hinit, hpos, hstop⟩ := h.placed.init_lt hruns
  have hlisted : ∀ other, other ∈ index.parsedCustomRuns ∧
      other.startEventOffset < run.startEventOffset ↔
        other ∈ next.runs ∧ other.custom = true ∧ other.agent.isSome := by
    intro other
    have hboth := h.parsed other
    rw [hruns, mem_concat_iff] at hboth
    constructor
    · rintro ⟨hother, hlt⟩
      obtain ⟨hmem | rfl, hcustom⟩ := hboth.mp ⟨hother, by omega⟩
      · exact ⟨hmem, hcustom⟩
      · omega
    · rintro ⟨hmem, hcustom⟩
      exact ⟨(hboth.mpr ⟨.inl hmem, hcustom⟩).1, hinit other hmem⟩
  refine ⟨hplaced, hkept, ?_, hagents.trans h.agents, hparsed.trans h.parsedCustomRuns, hlisted, ?_⟩
  · rw [← h.ids, ids_push hruns, take_append_of_le_length]
    rw [hplaced.filed.length_ids]
    exact hkept
  · intro hfalse other hother
    obtain ⟨hnone, hunparsed⟩ := hremoved hfalse
    have hboth := h.parsed other
    rw [hruns, mem_concat_iff] at hboth
    obtain ⟨hmem | rfl, hcustom, hsome⟩ := hboth.mp ⟨hother, h.removed hnone other hother⟩
    · exact hinit other hmem
    · rw [hunparsed hcustom] at hsome
      cases hsome

theorem Truncating.shorten
    (hlast : current.runs.getLast? = some run) (hkept : run.startEventOffset < kept) :
    Truncating last kept index { current with runs := current.runs.dropLast ++
      [{ run with length := min run.length (kept - run.startEventOffset) }] } removed kept := by
  obtain ⟨init, hruns⟩ := getLast?_eq_some_iff.mp hlast
  obtain ⟨hinit, hpos, hstop⟩ := h.placed.init_lt hruns
  have hle := h.le
  have hlength : min run.length (kept - run.startEventOffset) = kept - run.startEventOffset := by
    omega
  have hsound := h.placed.filed.sound run (mem_of_getLast? hlast)
  have hwhole : run.custom = true → kept - run.startEventOffset = run.length := by
    intro hcustom
    have hone := hsound.custom hcustom
    omega
  have hnext : current.runs.dropLast ++ [{ run with
      length := min run.length (kept - run.startEventOffset) }] =
        init ++ [{ run with length := kept - run.startEventOffset }] := by
    rw [hruns, dropLast_concat, hlength]
  rw [hnext]
  have hplaced := @Placed.resizeRun _ { current with
      runs := init ++ [{ run with length := kept - run.startEventOffset }] } _ _ _ _ h.placed _
    hruns rfl rfl rfl rfl (show 0 < kept - run.startEventOffset by omega)
    (fun hcustom => by have := (hsound.canonical hcustom).1; omega)
    (fun hcustom => by rw [hwhole hcustom]; exact hsound.custom hcustom)
    (fun _ other _ _ _ hafter => by omega)
    (fun hcustom other hother hotherCustom holder hotherAgent hagent hstarts => by
      have hapart := h.placed.apart other (by rw [hruns]; exact mem_concat_iff.mpr (.inl hother))
        run (mem_of_getLast? hlast) hotherCustom hcustom holder hotherAgent
      have : ¬ other.startSequence < run.startSequence + run.length :=
        fun hlt => hapart ⟨hagent, hstarts, hlt⟩
      omega)
  rw [Nat.add_sub_cancel' (Nat.le_of_lt hkept)] at hplaced
  refine ⟨hplaced, Nat.le_refl _, ?_, h.agents, h.parsedCustomRuns, ?_, ?_⟩
  · have hcurrent : current.ids = init.flatMap EventIdRun.ids ++ run.ids := by
      rw [EventIdRunIndex.ids, hruns, flatMap_append, flatMap_singleton]
    have hids : ({ run with length := kept - run.startEventOffset } : EventIdRun).ids =
        run.ids.take (kept - run.startEventOffset) := by
      obtain hcustom | hcustom := Bool.eq_false_or_eq_true run.custom
      · rw [hwhole hcustom]
        exact (take_of_length_le (Nat.le_of_eq hsound.length_ids)).symm
      · exact EventIdRun.ids_shortened hcustom (by omega)
    have hinitLength : (init.flatMap EventIdRun.ids).length = run.startEventOffset := by
      have hall := h.placed.filed.length_ids
      rw [hcurrent, length_append, hsound.length_ids] at hall
      omega
    have htake : current.ids.take kept = init.flatMap EventIdRun.ids ++
        run.ids.take (kept - run.startEventOffset) := by
      rw [hcurrent, take_append, hinitLength, take_of_length_le (by omega)]
    rw [← h.ids, htake, take_of_length_le (Nat.le_of_eq hplaced.filed.length_ids),
      EventIdRunIndex.ids,      flatMap_append, flatMap_singleton, hids]
  · intro other
    have hboth := h.parsed other
    rw [hruns, mem_concat_iff] at hboth
    have hsame : other.custom = true →
        (other = { run with length := kept - run.startEventOffset } ↔ other = run) := by
      intro hcustom
      constructor
      · rintro rfl
        rw [hwhole hcustom]
      · rintro rfl
        rw [hwhole hcustom]
    dsimp only
    rw [mem_concat_iff]
    constructor
    · rintro ⟨hother, hlt⟩
      obtain ⟨hmem, hcustom⟩ := hboth.mp ⟨hother, by omega⟩
      exact ⟨hmem.imp_right (hsame hcustom.1).mpr, hcustom⟩
    · rintro ⟨hmem, hcustom⟩
      have hold := hmem.imp_right (hsame hcustom.1).mp
      refine ⟨(hboth.mpr ⟨hold, hcustom⟩).1, ?_⟩
      obtain hmem | rfl := hold
      · have := hinit other hmem
        omega
      · exact hkept
  · intro hfalse other hother
    have hboth := h.parsed other
    rw [hruns, mem_concat_iff] at hboth
    obtain ⟨hmem | rfl, -⟩ := hboth.mp ⟨hother, h.removed hfalse other hother⟩
    · have := hinit other hmem
      omega
    · exact hkept

theorem Truncating.of_nil
    (hruns : current.runs = []) : Truncating last kept index current removed kept := by
  have htiles := h.placed.filed.tiles
  rw [hruns] at htiles
  have hstop : 0 = stop := htiles
  have hle := h.le
  obtain rfl : kept = stop := by omega
  exact h

theorem Truncating.truncateRuns {turns : Nat} (hturns : current.runs.length ≤ turns) :
    Truncating last kept index (truncateRuns kept turns current removed).1
      (truncateRuns kept turns current removed).2 kept := by
  induction turns generalizing current removed stop with
  | zero => exact h.of_nil (length_eq_zero_iff.mp (Nat.le_zero.mp hturns))
  | succ turns ih =>
    unfold EventIdRunIndex.truncateRuns
    cases hlast : current.runs.getLast? with
    | none => exact h.of_nil (getLast?_eq_none_iff.mp hlast)
    | some run =>
      obtain ⟨init, hruns⟩ := getLast?_eq_some_iff.mp hlast
      have hinit : current.runs.dropLast = init := by rw [hruns, dropLast_concat]
      have hshorter : current.runs.dropLast.length ≤ turns := by
        rw [length_dropLast]
        omega
      have hdropped : current.runs = current.runs.dropLast ++ [run] := by rw [hinit, hruns]
      have hsound := h.placed.filed.sound run (mem_of_getLast? hlast)
      have hlastAt : ∀ {place : Nat} {other : EventIdRun}, current.runs[place]? = some other →
          place = current.runs.dropLast.length → other = run := by
        intro place other hget heq
        rw [hdropped] at hget
        obtain hget | ⟨-, hsame⟩ := getElem?_concat_eq_some.mp hget
        · have := (List.getElem?_eq_some_iff.mp hget).1
          omega
        · exact hsame.symm
      dsimp only
      split_ifs with hkept hcustom
      · exact h.shorten hlast hkept
      · have hplaced : ({ current with
            runs := current.runs.dropLast
            customOffsets := current.customOffsets.erase run.replicaId } :
              EventIdRunIndex).Placed last run.startEventOffset := by
          refine h.placed.popRun hdropped rfl (fun agent => ⟨List.Sublist.refl _, fun place => ?_⟩)
            fun id offset => ?_
          · refine (and_iff_left_of_imp fun hplace heq => ?_).symm
            obtain ⟨other, hget, hcanonical, -⟩ := (h.placed.filed.byAgent agent place).mp hplace
            rw [hlastAt hget heq, hcustom] at hcanonical
            cases hcanonical
          · rw [InsertionMap.get?_erase]
            split_ifs with hid
            · simp [hid, hcustom]
            · simp [Ne.symm hid]
        refine ih (h.pop hdropped hplaced (not_lt.mp hkept) rfl rfl fun hfalse => ?_) hshorter
        rw [Bool.or_eq_false_iff] at hfalse
        exact ⟨hfalse.1, fun _ => Option.not_isSome_iff_eq_none.mp (by simp [hfalse.2])⟩
      · have hcanonical : run.custom = false := by simpa using hcustom
        obtain ⟨-, agent, hagent, -⟩ := hsound.canonical hcanonical
        have hlength : current.runs.length - 1 = current.runs.dropLast.length :=
          length_dropLast.symm
        have hget : current.runs[current.runs.dropLast.length]? = some run := by
          rw [← hlength, ← getLast?_eq_getElem?, hlast]
        have hmem := (h.placed.filed.byAgent agent _).mpr ⟨run, hget, hcanonical, hagent⟩
        rw [hagent]
        dsimp only
        have hplaced : ({ current.setAgentRuns agent (spliceLast (current.runsByAgent agent)
            (current.runs.length - 1)) with runs := current.runs.dropLast } :
              EventIdRunIndex).Placed last run.startEventOffset := by
          refine h.placed.popRun hdropped rfl (fun other => ?_) fun id offset => ?_
          · rw [hlength]
            unfold setAgentRuns
            dsimp only
            split_ifs with hother
            · rw [hother]
              exact ⟨spliceLast_sublist _ _,
                fun place => mem_spliceLast (h.placed.nodup_runsByAgent agent) hmem⟩
            · refine ⟨List.Sublist.refl _, fun place =>
                (and_iff_left_of_imp fun hplace heq => ?_).symm⟩
              obtain ⟨held, hheld, -, hheldAgent⟩ :=
                (h.placed.filed.byAgent other place).mp hplace
              rw [hlastAt hheld heq, hagent] at hheldAgent
              exact hother (Option.some.inj hheldAgent).symm
          · refine (and_iff_left ?_).symm
            rintro ⟨htrue, -⟩
            exact hcustom htrue
        refine ih (h.pop hdropped hplaced (not_lt.mp hkept) rfl rfl fun hfalse => ?_) hshorter
        exact ⟨hfalse, fun htrue => absurd htrue hcustom⟩

end

theorem Indexed.truncate_ok (h : index.Indexed last) {count : JsNumber}
    (hcount : count.safeNatural? = some kept) (hle : kept ≤ index.eventCount) :
    ∃ next, index.truncate count = (.ok (), next) ∧ next.Indexed last ∧
      next.ids = index.ids.take kept ∧ next.eventCount = kept ∧ next.agents = index.agents := by
  have hstart : Truncating last kept index index false index.eventCount := by
    refine ⟨h.placed, hle, rfl, rfl, rfl, fun run => ?_, fun _ run hrun => ?_⟩
    · rw [h.parsed]
      refine and_iff_left_of_imp fun hrun => ?_
      have := h.placed.filed.tiles.mem hrun.1
      omega
    · have := h.placed.filed.tiles.mem ((h.parsed run).mp hrun).1
      omega
  have hdone := hstart.truncateRuns (Nat.le_refl _)
  have heventCount := h.eventCount
  unfold truncate
  rw [hcount]
  dsimp only
  rw [if_neg (not_lt.mpr hle)]
  refine ⟨_, rfl, ⟨hdone.placed.anew hdone.placed.filed.agents.refl rfl rfl rfl, ?_, ?_⟩, ?_, rfl,
    hdone.agents⟩
  · exact Nat.le_trans hle heventCount
  · intro run
    dsimp only
    rw [← hdone.parsed, hdone.parsedCustomRuns]
    split_ifs with hremoved
    · rw [mem_filter, decide_eq_true_eq]
    · exact (and_iff_left_of_imp fun hrun =>
        hdone.removed (Bool.eq_false_iff.mpr hremoved) run hrun).symm
  · rw [← hdone.ids]
    exact (take_of_length_le (Nat.le_of_eq hdone.placed.filed.length_ids)).symm

theorem truncate_error {count : JsNumber}
    (hcount : ∀ kept, count.safeNatural? = some kept → index.eventCount < kept) :
    index.truncate count = (.error (.cannotTruncate index.eventCount count), index) := by
  unfold truncate
  cases hkept : count.safeNatural? with
  | none => rfl
  | some kept => exact if_pos (hcount kept hkept)

end EventIdRunIndex

end Softmaple.Graph

namespace Softmaple.Graph

open List

open Codec (JsNumber IdRun parseEventId formatEventId numberAdd numberAdd_of_le)
open Tiling (Tiles Covers Apart)

def keyOf (id : Text) : Text × Option Nat :=
  match parseEventId id with
  | some (replicaId, sequence) => (replicaId, some sequence)
  | none => (id, none)

def HoldsKey (custom : Bool) (replicaId : Text) (startSequence length : Nat)
    (key : Text × Option Nat) : Prop :=
  if custom then key = keyOf replicaId
  else ∃ sequence, key = (replicaId, some sequence) ∧
    startSequence ≤ sequence ∧ sequence < startSequence + length

namespace PayloadIdRun

def ofRun (run : IdRun) : PayloadIdRun where
  replicaId := run.replicaId
  startSequence := .ofInt run.startSequence
  startEventOffset := .ofInt run.startEventOffset
  length := .ofInt run.length
  custom := run.custom

/-- The fields of a run are valid, and its sequences end by `last`. -/
structure Valid (last : Nat) (run : IdRun) : Prop where
  replicaId_ne_nil : run.replicaId ≠ []
  length_pos : 0 < run.length
  startSequence : run.startSequence ≤ maxSafeInteger
  custom : run.custom = true → run.length = 1
  sequence : run.custom = false → run.startSequence + run.length ≤ last + 1

/-- The runs tile the event count with valid fields, and no ID repeats. -/
def WellFormed (runs : List PayloadIdRun) (expectedCount : JsNumber) : Prop :=
  ∃ (total : Nat) (valid : List IdRun), expectedCount = .ofInt total ∧ total ≤ maxSafeInteger ∧
    runs = valid.map ofRun ∧ Tiles IdRun.startEventOffset IdRun.length 0 valid total ∧
      (∀ run ∈ valid, Valid maxSafeInteger run) ∧ (valid.flatMap IdRun.ids).Nodup

def KeysApart (run other : IdRun) : Prop :=
  ∀ key, HoldsKey run.custom run.replicaId run.startSequence run.length key →
    ¬ HoldsKey other.custom other.replicaId other.startSequence other.length key

/-- The same where the sequences may end by `last`, and no key repeats. -/
def WellFormedUpTo (last : Nat) (runs : List PayloadIdRun) (expectedCount : JsNumber) : Prop :=
  ∃ (total : Nat) (valid : List IdRun), expectedCount = .ofInt total ∧ total ≤ maxSafeInteger ∧
    runs = valid.map ofRun ∧ Tiles IdRun.startEventOffset IdRun.length 0 valid total ∧
      (∀ run ∈ valid, Valid last run) ∧ valid.Pairwise KeysApart

variable {run other : IdRun} {last : Nat} {id : Text}

theorem keyOf_format {replicaId : Text} {sequence : Nat} (hne : replicaId ≠ [])
    (hsafe : sequence ≤ maxSafeInteger) :
    keyOf (formatEventId replicaId sequence) = (replicaId, some sequence) := by
  rw [keyOf, Codec.parseEventId_format hne hsafe]

theorem keyOf_injective {first second : Text} (h : keyOf first = keyOf second) : first = second := by
  unfold keyOf at h
  cases hfirst : parseEventId first with
  | none =>
    rw [hfirst] at h
    cases hsecond : parseEventId second with
    | none =>
      rw [hsecond] at h
      exact congrArg Prod.fst h
    | some pair =>
      rw [hsecond] at h
      cases congrArg Prod.snd h
  | some pair =>
    rw [hfirst] at h
    cases hsecond : parseEventId second with
    | none =>
      rw [hsecond] at h
      cases congrArg Prod.snd h
    | some other =>
      rw [hsecond] at h
      obtain ⟨hreplica, hsequence⟩ := Prod.mk.inj h
      rw [(Codec.parseEventId_eq_some hfirst).1, (Codec.parseEventId_eq_some hsecond).1,
        hreplica, Option.some.inj hsequence]

theorem Valid.holdsKey_iff (h : Valid maxSafeInteger run) {key : Text × Option Nat} :
    HoldsKey run.custom run.replicaId run.startSequence run.length key ↔
      ∃ id ∈ run.ids, keyOf id = key := by
  unfold HoldsKey IdRun.ids
  split
  · simp only [mem_singleton, exists_eq_left]
    exact eq_comm
  · rename_i hcustom
    have hsafe := h.sequence (by simpa using hcustom)
    constructor
    · rintro ⟨sequence, rfl, hstart, hend⟩
      refine ⟨_, mem_map.mpr ⟨sequence - run.startSequence, mem_range.mpr (by omega),
        rfl⟩, ?_⟩
      rw [Nat.add_sub_cancel' hstart, keyOf_format h.replicaId_ne_nil (by omega)]
    · rintro ⟨id, hid, rfl⟩
      obtain ⟨place, hplace, rfl⟩ := mem_map.mp hid
      have hlt := mem_range.mp hplace
      exact ⟨_, keyOf_format h.replicaId_ne_nil (by omega), by omega, by omega⟩

theorem Valid.ids_nodup (h : Valid maxSafeInteger run) : run.ids.Nodup := by
  unfold IdRun.ids
  split
  · exact nodup_singleton _
  · rename_i hcustom
    have hsafe := h.sequence (by simpa using hcustom)
    apply nodup_range.map_on
    intro place hplace later hlater heq
    rw [mem_range] at hplace hlater
    have hsame := (Codec.formatEventId_injective h.replicaId_ne_nil h.replicaId_ne_nil (by omega)
      (by omega) heq).2
    omega

theorem wellFormed_iff {runs : List PayloadIdRun} {expectedCount : JsNumber} :
    WellFormed runs expectedCount ↔ WellFormedUpTo maxSafeInteger runs expectedCount := by
  refine exists_congr fun total => exists_congr fun valid => and_congr_right fun _ =>
    and_congr_right fun _ => and_congr_right fun _ => and_congr_right fun _ =>
      and_congr_right fun hvalid => ?_
  rw [nodup_flatMap, and_iff_right fun run hrun => (hvalid run hrun).ids_nodup]
  apply List.Pairwise.iff_of_mem
  intro run other hrun hother
  unfold KeysApart Function.onFun List.Disjoint
  constructor
  · intro hdisjoint key hkey hotherKey
    obtain ⟨id, hid, rfl⟩ := (hvalid run hrun).holdsKey_iff.mp hkey
    obtain ⟨same, hsame, heq⟩ := (hvalid other hother).holdsKey_iff.mp hotherKey
    obtain rfl := keyOf_injective heq
    exact hdisjoint hid hsame
  · intro hapart id hid hotherId
    exact hapart (keyOf id) ((hvalid run hrun).holdsKey_iff.mpr ⟨id, hid, rfl⟩)
      ((hvalid other hother).holdsKey_iff.mpr ⟨id, hotherId, rfl⟩)

theorem validate_eq_ok {payload : PayloadIdRun} {runIndex offset startSequence length : Nat} :
    payload.validate runIndex offset = .ok (startSequence, length) ↔
      ∃ run, payload = ofRun run ∧ run.startSequence = startSequence ∧ run.length = length ∧
        run.startEventOffset = offset ∧ run.replicaId ≠ [] ∧ 0 < length ∧
          startSequence ≤ maxSafeInteger ∧ length ≤ maxSafeInteger ∧
            (run.custom = true → length = 1) := by
  unfold validate
  constructor
  · intro hok
    split_ifs at hok with hnil
    split at hok
    · rename_i start size hstart hsize
      obtain ⟨hstartEq, hstartSafe⟩ := JsNumber.eq_ofInt_of_safeNatural? hstart
      obtain ⟨hsizeEq, hsizeSafe⟩ := JsNumber.eq_ofInt_of_safeNatural? hsize
      split_ifs at hok with hshape hlength
      obtain ⟨hzero, hoffset⟩ := not_or.mp hshape
      obtain ⟨rfl, rfl⟩ := Prod.mk.inj (Except.ok.inj hok)
      refine ⟨⟨payload.replicaId, start, offset, size, payload.custom⟩, ?_, rfl, rfl, rfl, hnil,
        Nat.pos_of_ne_zero hzero, hstartSafe, hsizeSafe, fun hcustom => ?_⟩
      · unfold ofRun
        dsimp only
        rw [← hstartEq, ← hsizeEq, ← not_not.mp hoffset]
      · by_contra hne
        exact hlength ⟨hcustom, hne⟩
    · cases hok
  · rintro ⟨run, rfl, rfl, rfl, rfl, hnil, hpos, hstart, hsize, hcustom⟩
    unfold ofRun
    dsimp only
    rw [if_neg hnil, Codec.safeNatural?_ofInt, Codec.safeNatural?_ofInt, if_pos hstart, if_pos hsize]
    dsimp only
    rw [if_neg (by simp; omega), if_neg fun hwrong => hwrong.2 (hcustom hwrong.1)]

end PayloadIdRun

open PayloadIdRun (ofRun Valid KeysApart)

structure Matches (payload : IdRun) (run : EventIdRun) : Prop where
  replicaId : run.replicaId = payload.replicaId
  startEventOffset : run.startEventOffset = payload.startEventOffset
  length : run.length = payload.length
  custom : run.custom = payload.custom
  startSequence : payload.custom = false → run.startSequence = payload.startSequence

theorem Matches.holdsKey_iff {payload : IdRun} {run : EventIdRun} (h : Matches payload run)
    {key : Text × Option Nat} :
    HoldsKey payload.custom payload.replicaId payload.startSequence payload.length key ↔
      HoldsKey run.custom run.replicaId run.startSequence run.length key := by
  unfold HoldsKey
  rw [h.custom, h.replicaId, h.length]
  split
  · rfl
  · rename_i hcustom
    rw [h.startSequence (by simpa using hcustom)]

namespace EventIdRunIndex

structure Building (index : EventIdRunIndex) (stop : Nat) (payload : List IdRun) : Prop where
  filed : index.Filed (maxSafeInteger + 1) stop
  parsed : ∀ run, run ∈ index.parsedCustomRuns ↔
    run ∈ index.runs ∧ run.custom = true ∧ run.agent.isSome
  nodup : ∀ agent, (index.runsByAgent agent).Nodup
  runs : List.Forall₂ Matches payload index.runs

variable {index result : EventIdRunIndex} {payload valid : List IdRun} {run : IdRun}
  {stop expected : Nat}

theorem forall₂_concat {α β : Type} {R : α → β → Prop} {left : List α} {right : List β} {a : α}
    {b : β} (h : List.Forall₂ R left right) (hlast : R a b) :
    List.Forall₂ R (left ++ [a]) (right ++ [b]) := by
  induction h with
  | nil => exact .cons hlast .nil
  | cons hhead _ ih => exact .cons hhead ih

theorem Building.tiles (h : index.Building stop payload) :
    Tiles IdRun.startEventOffset IdRun.length 0 payload stop := by
  have hall : ∀ {start : Nat} {left : List IdRun} {right : List EventIdRun},
      List.Forall₂ Matches left right →
        Tiles EventIdRun.startEventOffset EventIdRun.length start right stop →
          Tiles IdRun.startEventOffset IdRun.length start left stop := by
    intro start left right hmatches htiles
    induction hmatches generalizing start with
    | nil => exact htiles
    | cons hhead _ ih =>
      obtain ⟨hstart, hpos, hrest⟩ := htiles
      rw [hhead.length] at hpos hrest
      exact ⟨hhead.startEventOffset ▸ hstart, hpos, ih hrest⟩
  exact hall h.runs h.filed.tiles

theorem Building.pushPayloadRun (h : index.Building stop payload)
    (hvalid : Valid (maxSafeInteger + 1) run) (hcustom : run.custom = false)
    (hoffset : run.startEventOffset = stop) :
    (index.pushPayloadRun run.replicaId run.startSequence stop run.length).Building
      (stop + run.length) (payload ++ [run]) := by
  obtain ⟨hextends, hname⟩ := AgentTable.intern_spec h.filed.agents hvalid.replicaId_ne_nil
  have hsound : EventIdRun.Sound (index.agents.intern run.replicaId).2 (maxSafeInteger + 1)
      ⟨run.replicaId, some (index.agents.intern run.replicaId).1, run.startSequence, stop,
        run.length, false, none⟩ := by
    refine ⟨hvalid.length_pos, fun _ => ⟨hvalid.sequence hcustom, _, rfl, hname⟩, ?_, ?_, ?_⟩
    all_goals exact fun htrue => absurd htrue Bool.false_ne_true
  have hfiled : (index.pushPayloadRun run.replicaId run.startSequence stop run.length).Filed
      (maxSafeInteger + 1) (stop + run.length) := by
    have hruns : (index.pushPayloadRun run.replicaId run.startSequence stop run.length).runs =
        index.runs ++ [⟨run.replicaId, some (index.agents.intern run.replicaId).1,
          run.startSequence, stop, run.length, false, none⟩] := rfl
    refine h.filed.pushRun rfl hsound hextends hruns ?_ ?_
    · intro agent place
      unfold EventIdRunIndex.pushPayloadRun
      dsimp only
      split_ifs with hagent
      · rw [mem_concat_iff, hagent]
        simp
      · simp [Ne.symm hagent]
    · intro id offset
      exact (or_iff_left fun hfalse => absurd hfalse.1 Bool.false_ne_true).symm
  refine ⟨hfiled, ?_, ?_, ?_⟩
  · intro other
    unfold EventIdRunIndex.pushPayloadRun
    dsimp only
    rw [h.parsed, mem_concat_iff]
    refine and_congr_left fun ⟨hotherCustom, _⟩ => (or_iff_left ?_).symm
    rintro rfl
    cases hotherCustom
  · intro agent
    unfold EventIdRunIndex.pushPayloadRun
    dsimp only
    split_ifs with hagent
    · rw [nodup_append]
      refine ⟨h.nodup _, nodup_singleton _, fun place hplace later hlater heq => ?_⟩
      rw [heq, mem_singleton.mp hlater] at hplace
      exact absurd (h.filed.lt_length hplace) (Nat.lt_irrefl _)
    · exact h.nodup agent
  · exact forall₂_concat h.runs ⟨rfl, hoffset.symm, rfl, hcustom.symm, fun _ => rfl⟩

theorem Building.pushCustomRun (h : index.Building stop payload)
    (hvalid : Valid (maxSafeInteger + 1) run) (hcustom : run.custom = true)
    (hoffset : run.startEventOffset = stop)
    (hnew : index.customOffsets.get? run.replicaId = none) :
    (index.pushCustomRun run.replicaId stop).Building (stop + run.length) (payload ++ [run]) := by
  obtain ⟨added, hadded⟩ := pushCustomRun_isCustomRun h.filed.agents run.replicaId stop
    (maxSafeInteger + 1)
  have hlength := hvalid.custom hcustom
  refine ⟨hlength ▸ h.filed.pushCustom hadded hnew, hadded.parsed_iff h.parsed, ?_, ?_⟩
  · rw [hadded.runsByAgent]
    exact h.nodup
  · rw [hadded.runs]
    refine forall₂_concat h.runs ⟨hadded.replicaId, hadded.startEventOffset.trans hoffset.symm,
      hadded.length.trans hlength.symm, hadded.custom.trans hcustom.symm, fun hfalse => ?_⟩
    rw [hcustom] at hfalse
    cases hfalse

theorem end_of_checked {offset length : Nat} (h : ¬ (!isSafeInteger (numberAdd offset length) ||
      decide (expected < numberAdd offset length)) = true) :
    offset + length ≤ expected ∧ numberAdd offset length = offset + length := by
  have hmax : maxSafeInteger = 9007199254740991 := rfl
  simp only [isSafeInteger, Bool.or_eq_true, Bool.not_eq_true', decide_eq_false_iff_not,
    decide_eq_true_eq, not_or, not_not, not_lt] at h
  have hexact : offset + length ≤ maxSafeInteger + 1 := by
    by_contra hlt
    have hle := h.1
    unfold numberAdd at hle
    dsimp only at hle
    split_ifs at hle <;> omega
  rw [numberAdd_of_le hexact] at h ⊢
  exact ⟨h.2, rfl⟩

theorem sequence_checked_iff {startSequence length : Nat} :
    isSafeInteger (numberAdd startSequence length - 1) = true ↔
      startSequence + length ≤ maxSafeInteger + 1 + 1 := by
  have hmax : maxSafeInteger = 9007199254740991 := rfl
  rw [isSafeInteger, decide_eq_true_eq]
  unfold numberAdd
  dsimp only
  split_ifs <;> omega

theorem indexRuns_ok {runs : List PayloadIdRun} {runIndex offset : Nat}
    (h : index.Building offset payload) (hoffset : offset ≤ expected)
    (hok : indexRuns expected runs runIndex offset index = .ok (result, stop)) :
    ∃ valid, runs = valid.map ofRun ∧ (∀ run ∈ valid, Valid (maxSafeInteger + 1) run) ∧
      result.Building stop (payload ++ valid) ∧ stop ≤ expected := by
  induction runs generalizing runIndex offset index payload with
  | nil =>
    obtain ⟨rfl, rfl⟩ := Prod.mk.inj (Except.ok.inj hok)
    refine ⟨[], rfl, forall_mem_nil _, ?_, hoffset⟩
    rwa [append_nil]
  | cons run runs ih =>
    unfold indexRuns at hok
    cases hvalidate : run.validate runIndex offset with
    | error error =>
      rw [hvalidate] at hok
      cases hok
    | ok numbers =>
      obtain ⟨startSequence, length⟩ := numbers
      rw [hvalidate] at hok
      obtain ⟨first, rfl, rfl, rfl, hstart, hne, hpos, hsafe, hlength, hsingle⟩ :=
        PayloadIdRun.validate_eq_ok.mp hvalidate
      dsimp only at hok
      have hcustomEq : (ofRun first).custom = first.custom := rfl
      have hreplicaEq : (ofRun first).replicaId = first.replicaId := rfl
      rw [hcustomEq, hreplicaEq] at hok
      split_ifs at hok with hend hcustom hhas hsequence
      · obtain ⟨hendLe, hadd⟩ := end_of_checked hend
        rw [hadd] at hok
        have hvalid : Valid (maxSafeInteger + 1) first :=
          ⟨hne, hpos, hsafe, hsingle, fun hfalse => by rw [hcustom] at hfalse; cases hfalse⟩
        have hnext := h.pushCustomRun hvalid hcustom hstart
          (InsertionMap.has_eq_false.mp (by simpa using hhas))
        obtain ⟨valid, rfl, hall, hbuilt, hstop⟩ := ih hnext hendLe hok
        refine ⟨first :: valid, rfl, forall_mem_cons.mpr ⟨hvalid, hall⟩, ?_, hstop⟩
        rwa [append_assoc, singleton_append] at hbuilt
      · obtain ⟨hendLe, hadd⟩ := end_of_checked hend
        rw [hadd] at hok
        have hvalid : Valid (maxSafeInteger + 1) first := by
          refine ⟨hne, hpos, hsafe, hsingle, fun _ => ?_⟩
          exact sequence_checked_iff.mp (by simpa using hsequence)
        have hnext := h.pushPayloadRun hvalid (by simpa using hcustom) hstart
        obtain ⟨valid, rfl, hall, hbuilt, hstop⟩ := ih hnext hendLe hok
        refine ⟨first :: valid, rfl, forall_mem_cons.mpr ⟨hvalid, hall⟩, ?_, hstop⟩
        rwa [append_assoc, singleton_append] at hbuilt

theorem exists_matching {α β : Type} {R : α → β → Prop} {left : List α} {right : List β} {b : β}
    (h : List.Forall₂ R left right) (hmem : b ∈ right) : ∃ a ∈ left, R a b := by
  induction h with
  | nil => cases hmem
  | cons hhead _ ih =>
    cases hmem with
    | head => exact ⟨_, mem_cons_self, hhead⟩
    | tail _ hlater =>
      obtain ⟨a, ha, hR⟩ := ih hlater
      exact ⟨a, mem_cons_of_mem _ ha, hR⟩

theorem indexRuns_of_valid {runIndex offset : Nat} (h : index.Building offset payload)
    (hexpected : expected ≤ maxSafeInteger) (hstop : stop ≤ expected)
    (htiles : Tiles IdRun.startEventOffset IdRun.length offset valid stop)
    (hvalid : ∀ run ∈ valid, Valid (maxSafeInteger + 1) run)
    (hapart : (payload ++ valid).Pairwise KeysApart) :
    ∃ result, indexRuns expected (valid.map ofRun) runIndex offset index = .ok (result, stop) ∧
      result.Building stop (payload ++ valid) := by
  induction valid generalizing runIndex offset index payload with
  | nil =>
    obtain rfl : offset = stop := htiles
    exact ⟨index, rfl, by rwa [append_nil]⟩
  | cons run valid ih =>
    obtain ⟨rfl, hpos, hrest⟩ := htiles
    obtain ⟨hrun, hvalid⟩ := forall_mem_cons.mp hvalid
    have hend := hrest.le
    have hvalidate : (ofRun run).validate runIndex run.startEventOffset =
        .ok (run.startSequence, run.length) :=
      PayloadIdRun.validate_eq_ok.mpr ⟨run, rfl, rfl, rfl, rfl, hrun.replicaId_ne_nil, hpos,
        hrun.startSequence, by omega, hrun.custom⟩
    have hadd : numberAdd run.startEventOffset run.length = run.startEventOffset + run.length :=
      numberAdd_of_le (by omega)
    have hchecked : (!isSafeInteger (run.startEventOffset + run.length) ||
        decide (expected < run.startEventOffset + run.length)) = false := by
      simp only [isSafeInteger, Bool.or_eq_false_iff, Bool.not_eq_false', decide_eq_true_eq,
        decide_eq_false_iff_not]
      omega
    rw [append_cons] at hapart
    rw [map_cons, indexRuns, hvalidate]
    dsimp only
    rw [hadd, hchecked, if_neg Bool.false_ne_true, show (ofRun run).custom = run.custom from rfl,
      show (ofRun run).replicaId = run.replicaId from rfl, append_cons]
    cases hcustom : run.custom with
    | true =>
      have hnew : index.customOffsets.get? run.replicaId = none := by
        cases hget : index.customOffsets.get? run.replicaId with
        | none => rfl
        | some found =>
          obtain ⟨other, hother, hotherCustom, hreplica, -⟩ :=
            (h.filed.customOffsets _ _).mp hget
          obtain ⟨earlier, hearlier, hmatches⟩ := exists_matching h.runs hother
          have hpair := (pairwise_append.mp (pairwise_append.mp hapart).1).2.2
            earlier hearlier run (mem_singleton_self _) (keyOf run.replicaId)
          refine absurd ?_ (hpair ?_)
          · rw [HoldsKey, if_pos hcustom]
          · rw [hmatches.holdsKey_iff, HoldsKey, if_pos hotherCustom, hreplica]
      rw [if_pos rfl, InsertionMap.has_eq_false.mpr hnew, if_neg Bool.false_ne_true]
      exact ih (h.pushCustomRun hrun hcustom rfl hnew) hrest hvalid hapart
    | false =>
      have hsequence := sequence_checked_iff.mpr (hrun.sequence hcustom)
      rw [if_neg Bool.false_ne_true, hsequence, Bool.not_true, if_neg Bool.false_ne_true]
      exact ih (h.pushPayloadRun hrun hcustom rfl) hrest hvalid hapart

end EventIdRunIndex

end Softmaple.Graph
