import Softmaple.Codec.ReadOperationColumns

/-!
Reading back the timestamp column. The segments stand for the values they were
cut from wherever the differences fit a zigzag varint.
-/
namespace Softmaple.Codec

open ListReader List

section SegmentValues

/-- The values that differences lead to from `previous`. -/
def runningSums : Int → List Int → List Int
  | _, [] => []
  | previous, delta :: rest => (previous + delta) :: runningSums (previous + delta) rest

def DeltaSegment.stepAfter (step : Int) : DeltaSegment → Int
  | .steps _ _ newStep => newStep.getD step
  | .literal _ => step

/-- The values of a segment after `previous`, with `step` in force. -/
def DeltaSegment.values (previous step : Int) : DeltaSegment → List Int
  | .steps length first newStep =>
    (List.range length).map fun (position : Nat) =>
      previous + first + newStep.getD step * position
  | .literal deltas => runningSums previous deltas

def segmentValues : Int → Int → List DeltaSegment → List Int
  | _, _, [] => []
  | previous, step, segment :: rest =>
    segment.values previous step ++
      segmentValues ((segment.values previous step).getLastD previous) (segment.stepAfter step) rest

theorem runningSums_append (previous : Int) (first second : List Int) :
    runningSums previous (first ++ second) = runningSums previous first ++
      runningSums ((runningSums previous first).getLastD previous) second := by
  induction first generalizing previous with
  | nil => rfl
  | cons delta rest ih =>
    rw [cons_append, runningSums, runningSums, ih, cons_append, getLastD_cons]

theorem segmentValues_flush (start step : Int) (pending : List Int) (rest : List DeltaSegment) :
    segmentValues start step (flushLiteral pending ++ rest) = runningSums start pending ++
      segmentValues ((runningSums start pending).getLastD start) step rest := by
  rw [flushLiteral]
  split
  · next h =>
      subst h
      rfl
  · rfl

theorem progression_eq {last step : Int} {values : List Int} {n : Nat} (hn : n ≤ values.length)
    (h : ∀ delta ∈ (deltas last values).take n, delta = step) :
    (List.range (n + 1)).map (fun position => last + step * (position : Nat)) =
      last :: values.take n := by
  induction n generalizing last values with
  | zero => simp
  | succ n ih =>
    cases values with
    | nil => cases hn
    | cons value rest =>
      rw [deltas, take_succ_cons, forall_mem_cons] at h
      have hrest := ih (Nat.le_of_succ_le_succ hn) h.2
      rw [take_succ_cons, ← hrest, range_succ_eq_map, map_cons, map_map]
      congr 1
      · simp
      · apply map_congr_left
        intro position _
        simp only [Function.comp_apply, Nat.succ_eq_add_one]
        rw [Nat.cast_add, Nat.cast_one, Int.mul_add, Int.mul_one, ← h.1]
        omega

theorem numberDeltas_eq {previous : Int} {values : List Int}
    (h : ∀ delta ∈ deltas previous values, ZigZagRange delta) :
    numberDeltas previous values = deltas previous values := by
  induction values generalizing previous with
  | nil => rfl
  | cons value rest ih =>
    rw [deltas, forall_mem_cons, ZigZagRange] at h
    rw [deltas, numberDeltas, ih h.2, numberSub_of_small (by omega)]

theorem getLastD_take {α : Type} (a b : α) (rest : List α) {n : Nat} (hn : n ≤ rest.length)
    (d : α) : (a :: b :: rest.take n).getLastD d = (b :: rest).getD n b := by
  have hlt : n < (b :: rest).length := Nat.lt_succ_of_le hn
  rw [getLastD_cons, getLastD_cons, getD_eq_getElem _ _ hlt]
  cases n with
  | zero => rfl
  | succ n =>
    have hne : rest.take (n + 1) ≠ [] := by
      rw [ne_nil_iff_length_pos, length_take]
      omega
    rw [getLastD_eq_getLast?, getLast?_eq_getElem?, length_take,
      Nat.min_eq_left hn, Nat.add_sub_cancel, getElem?_take_of_lt (Nat.lt_succ_self n),
      getElem?_eq_getElem (Nat.lt_of_succ_le hn)]
    rfl

theorem deltaSegments_values (fuel : Nat) :
    ∀ (start previous step : Int) (pending values : List Int), values.length ≤ fuel →
      (∀ delta ∈ deltas previous values, ZigZagRange delta) →
      (runningSums start pending).getLastD start = previous →
      segmentValues start step (deltaSegments fuel previous step pending values) =
        runningSums start pending ++ values := by
  have hflush : ∀ (start step : Int) (pending : List Int),
      segmentValues start step (flushLiteral pending) = runningSums start pending := by
    intro start step pending
    have h := segmentValues_flush start step pending []
    rwa [append_nil, segmentValues, append_nil] at h
  induction fuel with
  | zero =>
    intro start previous step pending values hfuel _ _
    rw [length_eq_zero_iff.mp (Nat.le_zero.mp hfuel), deltaSegments, append_nil]
    exact hflush start step pending
  | succ fuel ih =>
    intro start previous step pending values hfuel hrange hlast
    cases values with
    | nil =>
      rw [deltaSegments, append_nil]
      exact hflush start step pending
    | cons value rest =>
      rw [length_cons] at hfuel
      have hexact : numberSub value previous = value - previous := by
        have hfirst := hrange _ mem_cons_self
        rw [ZigZagRange] at hfirst
        exact numberSub_of_small (by omega)
      rw [deltas, forall_mem_cons] at hrange
      have hsum : previous + numberSub value previous = value := by omega
      have hsums : runningSums start (pending ++ [numberSub value previous]) =
          runningSums start pending ++ [value] := by
        rw [runningSums_append, hlast, runningSums, hsum]
        rfl
      have hpending : segmentValues start step
          (deltaSegments fuel value step (pending ++ [numberSub value previous]) rest) =
          runningSums start pending ++ value :: rest := by
        rw [ih start value step _ rest (by omega) hrange.2 (by rw [hsums]; simp), hsums,
          append_assoc]
        rfl
      cases rest with
      | nil => exact hpending
      | cons next rest =>
        obtain ⟨segmentStep, hs⟩ : ∃ s, numberSub next value = s := ⟨_, rfl⟩
        obtain ⟨n, hn⟩ : ∃ n, stepRun segmentStep next rest = n := ⟨_, rfl⟩
        obtain ⟨hle, hsteps⟩ := stepRun_spec segmentStep next rest
        rw [hn] at hle hsteps
        rw [deltaSegments_cons fuel previous step pending value next rest hs hn]
        by_cases hsegment : 1 ≤ n ∨ segmentStep = step
        · rw [if_pos hsegment, segmentValues_flush, hlast, segmentValues]
          have hforce : (if segmentStep = step then none else some segmentStep).getD step =
              segmentStep := by
            split
            · next heq => exact heq.symm
            · rfl
          rw [numberDeltas_eq (forall_mem_cons.mp hrange.2).2] at hsteps
          have hall : ∀ delta ∈ (deltas value (next :: rest)).take (n + 1),
              delta = segmentStep := by
            rw [deltas, take_succ_cons, forall_mem_cons]
            refine ⟨?_, hsteps⟩
            have hfirst := (forall_mem_cons.mp hrange.2).1
            rw [ZigZagRange] at hfirst
            rw [← hs]
            exact (numberSub_of_small (by omega)).symm
          have hvalues := progression_eq (Nat.succ_le_succ hle) hall
          rw [DeltaSegment.values, DeltaSegment.stepAfter, hforce, hsum, hvalues,
            take_succ_cons, getLastD_take value next rest hle]
          have hdrop : ∀ delta ∈ deltas ((next :: rest).getD n next) (rest.drop n),
              ZigZagRange delta := by
            apply numberDeltas_range.mp
            intro delta hdelta
            apply numberDeltas_range.mpr (forall_mem_cons.mp hrange.2).2
            rw [numberDeltas_drop next rest n hle]
            exact mem_append_right _ hdelta
          have hrest : segmentValues ((next :: rest).getD n next) segmentStep
              (deltaSegments fuel ((next :: rest).getD n next) segmentStep []
                (rest.drop n)) = rest.drop n := by
            apply ih _ _ segmentStep [] (rest.drop n) _ hdrop rfl
            rw [length_drop]
            rw [length_cons] at hfuel
            omega
          rw [hrest, cons_append, cons_append, take_append_drop]
        · rw [if_neg hsegment]
          exact hpending

theorem flushLiteral_pos (pending : List Int) :
    ∀ segment ∈ flushLiteral pending, 0 < segment.count := by
  intro segment hsegment
  rw [flushLiteral] at hsegment
  split at hsegment
  · cases hsegment
  · next hne =>
      rw [mem_singleton.mp hsegment, DeltaSegment.count]
      exact length_pos_iff.mpr hne

theorem deltaSegments_pos (fuel : Nat) : ∀ (previous step : Int) (pending values : List Int),
    ∀ segment ∈ deltaSegments fuel previous step pending values, 0 < segment.count := by
  induction fuel with
  | zero =>
    intro previous step pending values
    exact flushLiteral_pos pending
  | succ fuel ih =>
    intro previous step pending values
    cases values with
    | nil => exact flushLiteral_pos pending
    | cons value rest =>
      cases rest with
      | nil => exact ih value step (pending ++ [numberSub value previous]) []
      | cons next rest =>
        rw [deltaSegments_cons fuel previous step pending value next rest rfl rfl]
        split
        · intro segment hsegment
          rw [mem_append, mem_cons] at hsegment
          cases hsegment with
          | inl hmem => exact flushLiteral_pos pending segment hmem
          | inr hsegment =>
            cases hsegment with
            | inl heq =>
              rw [heq]
              exact Nat.succ_pos _
            | inr hmem => exact ih _ _ _ _ segment hmem
        · exact ih value step (pending ++ [numberSub value previous]) (next :: rest)

end SegmentValues

section ReadSegments

variable {min max : Int}

/-- Values that a column of numbers from `min` to `max` can hold. -/
def InRange (min max : Int) (values : List Int) : Prop :=
  ∀ value ∈ values, min ≤ value ∧ value ≤ max

theorem outOfRange_safe {α : Type} {value : Int} (hsafe : isSafeInt value = true) (offset : Nat) :
    outOfRange value offset = (.ok none : Except CodecError (Option α)) := by
  rw [outOfRange, hsafe]
  rfl

/-- A check that asks for a wider column where it fails. -/
theorem readsWithin_inRange {α : Type} {next : BinaryReader (Option α)} {tokens : List Byte}
    {fits : Prop} {a : α} {value : Int} {offset : Nat} (hsafe : isSafeInt value = true)
    (h : ReadsWithin next tokens fits a) :
    ReadsWithin (if value < min ∨ max < value then lift (outOfRange value offset) else next) tokens
      ((min ≤ value ∧ value ≤ max) ∧ fits) a := by
  rw [outOfRange_safe hsafe]
  have hguard : ReadsWithin (if value < min ∨ max < value then Pure.pure none else next) tokens
      (¬ (value < min ∨ max < value) ∧ fits) a := ReadsWithin.guard h
  apply hguard.congr
  rw [not_or, Int.not_lt, Int.not_lt]

theorem readsWithin_deltas {deltas : List Int} {bytes : List Byte} {filled : Nat} {previous : Int}
    (h : concat (deltas.map writeZigZagVarint) = .ok bytes)
    (hsafe : ∀ value ∈ runningSums previous deltas, isSafeInt value = true) :
    ReadsWithin (readDeltas min max deltas.length filled previous) bytes
      (InRange min max (runningSums previous deltas)) (runningSums previous deltas) := by
  induction deltas generalizing filled previous bytes with
  | nil =>
    cases h
    exact .of_reads (reads_pure _) (by simp [InRange, runningSums])
  | cons delta rest ih =>
    obtain ⟨first, more, hfirst, hmore, rfl⟩ := concat_cons_eq_ok.mp h
    rw [runningSums, forall_mem_cons] at hsafe
    apply ReadsWithin.congr _ forall_mem_cons.symm
    apply ReadsWithin.bind (reads_writeZigZagVarint hfirst)
    apply readsWithin_inRange hsafe.1
    exact (ih hmore hsafe.2).map ((previous + delta) :: ·)

theorem inRange_progression {first step : Int} {length : Nat} (hpos : 0 < length) :
    InRange min max ((List.range length).map fun (position : Nat) => first + step * position) ↔
      (min ≤ first ∧ first ≤ max) ∧
        min ≤ first + step * (length - 1 : Nat) ∧ first + step * (length - 1 : Nat) ≤ max := by
  rw [InRange, forall_mem_map]
  constructor
  · intro h
    have hfirst := h 0 (mem_range.mpr hpos)
    have hlast := h (length - 1) (mem_range.mpr (by omega))
    rw [Nat.cast_zero, Int.mul_zero, Int.add_zero] at hfirst
    exact ⟨hfirst, hlast⟩
  · intro h position hposition
    obtain ⟨hfirst, hlast⟩ := h
    have hle : (position : Int) ≤ (length - 1 : Nat) := by
      have := mem_range.mp hposition
      omega
    have hnonneg : (0 : Int) ≤ position := Int.natCast_nonneg position
    by_cases hstep : 0 ≤ step
    · have hlow := Int.mul_nonneg hstep hnonneg
      have hhigh := Int.mul_le_mul_of_nonneg_left hle hstep
      omega
    · have hhigh := Int.mul_nonpos_of_nonpos_of_nonneg (by omega : step ≤ 0) hnonneg
      have hlow := Int.mul_le_mul_of_nonpos_left (by omega : step ≤ 0) hle
      omega

theorem length_runningSums (previous : Int) (deltas : List Int) :
    (runningSums previous deltas).length = deltas.length := by
  induction deltas generalizing previous with
  | nil => rfl
  | cons delta rest ih => rw [runningSums, length_cons, ih, length_cons]

theorem length_values (segment : DeltaSegment) (previous step : Int) :
    (segment.values previous step).length = segment.count := by
  cases segment with
  | steps length first newStep =>
    rw [DeltaSegment.values, length_map, length_range, DeltaSegment.count]
  | literal deltas => rw [DeltaSegment.values, length_runningSums, DeltaSegment.count]

theorem getLastD_progression (f : Nat → Int) {length : Nat} (hpos : 0 < length) (d : Int) :
    ((List.range length).map f).getLastD d = f (length - 1) := by
  rw [getLastD_eq_getLast?, getLast?_eq_getElem?, length_map, length_range,
    getElem?_map, getElem?_range (by omega)]
  rfl

theorem readsWithin_steps {first step : Int} {length filled : Nat}
    {next : BinaryReader (Option (List Int))} {tokens : List Byte} {fits : Prop}
    {later : List Int} (hpos : 0 < length)
    (hsafe : ∀ value ∈ (List.range length).map fun (position : Nat) => first + step * position,
      isSafeInt value = true)
    (h : ReadsWithin next tokens fits later) :
    ReadsWithin (if first < min ∨ max < first then lift (outOfRange first filled)
      else if first + step * (length - 1 : Nat) < min ∨ max < first + step * (length - 1 : Nat) then
        lift (outOfRange (first + step * (length - 1 : Nat)) (filled + length - 1))
      else do
        let rest ← next
        return rest.map (((List.range length).map fun (position : Nat) =>
          first + step * position) ++ ·)) tokens
      (InRange min max ((List.range length).map fun (position : Nat) => first + step * position) ∧
        fits)
      (((List.range length).map fun (position : Nat) => first + step * position) ++ later) := by
  have hmem : ∀ position < length, first + step * (position : Nat) ∈
      (List.range length).map fun (position : Nat) => first + step * position :=
    fun position hlt => mem_map.mpr ⟨position, mem_range.mpr hlt, rfl⟩
  have hfirst := hsafe _ (hmem 0 hpos)
  rw [Nat.cast_zero, Int.mul_zero, Int.add_zero] at hfirst
  have hlast := hsafe _ (hmem (length - 1) (by omega))
  rw [inRange_progression hpos, and_assoc]
  apply readsWithin_inRange hfirst
  apply readsWithin_inRange hlast
  exact h.map _

theorem readsWithin_segments {segments : List DeltaSegment} {count fuel filled : Nat}
    {previous step : Int} {bytes : List Byte}
    (h : concat (segments.flatMap (·.write)) = .ok bytes)
    (hpos : ∀ segment ∈ segments, 0 < segment.count)
    (hcount : filled + (segmentValues previous step segments).length = count)
    (hfuel : (segmentValues previous step segments).length ≤ fuel)
    (hsafe : ∀ value ∈ segmentValues previous step segments, isSafeInt value = true) :
    ReadsWithin (readDeltaSegmentsInto min max count fuel filled previous step) bytes
      (InRange min max (segmentValues previous step segments))
      (segmentValues previous step segments) := by
  induction segments generalizing fuel filled previous step bytes with
  | nil =>
    cases h
    rw [segmentValues, length_nil, Nat.add_zero] at hcount
    apply ReadsWithin.of_reads _ (by simp [InRange, segmentValues])
    cases fuel with
    | zero => exact reads_pure _
    | succ fuel =>
      rw [readDeltaSegmentsInto, if_pos (by omega)]
      exact reads_pure _
  | cons segment rest ih =>
    obtain ⟨hown, hrest⟩ := forall_mem_cons.mp hpos
    rw [segmentValues, length_append, length_values] at hcount hfuel
    rw [segmentValues, forall_mem_append] at hsafe
    rw [flatMap_cons] at h
    obtain ⟨first, more, hfirst, hmore, rfl⟩ := concat_append_eq_ok.mp h
    cases fuel with
    | zero => omega
    | succ fuel =>
      have hnext : ReadsWithin (readDeltaSegmentsInto min max count fuel
          (filled + segment.count) ((segment.values previous step).getLastD previous)
          (segment.stepAfter step)) more
          (InRange min max (segmentValues ((segment.values previous step).getLastD previous)
            (segment.stepAfter step) rest))
          (segmentValues ((segment.values previous step).getLastD previous)
            (segment.stepAfter step) rest) :=
        ih hmore hrest (by omega) (by omega) hsafe.2
      rw [segmentValues, readDeltaSegmentsInto, if_neg (by omega)]
      apply ReadsWithin.congr _ forall_mem_append.symm
      have hcode : ∀ (length : Nat) (mode : SegmentMode), (length * 4 + mode.code) % 4 = mode.code ∧
            (length * 4 + mode.code - mode.code) / 4 = length := by
        intro length mode
        have : mode.code < 4 := by cases mode <;> decide
        omega
      cases segment with
      | literal deltas =>
        obtain ⟨head, tail, hhead, htail, rfl⟩ := concat_cons_eq_ok.mp hfirst
        have hlength := length_le_concat_zigZags htail
        obtain ⟨hmode, hlen⟩ := hcode deltas.length .literal
        rw [DeltaSegment.count] at hown hcount hnext
        rw [append_assoc]
        apply ReadsWithin.bind (reads_writeVarint hhead)
        simp only [hmode, hlen]
        apply ReadsWithin.require (by
          simp only [Bool.and_eq_true, decide_eq_true_eq]
          omega)
        rw [if_pos trivial]
        apply ReadsWithin.of_remaining
        intro left
        apply ReadsWithin.require (by
          rw [decide_eq_true_eq, length_append, length_append]
          omega)
        refine ReadsWithin.bind_option (readsWithin_deltas htail hsafe.1) ?_ ?_
        · rfl
        · exact hnext.map (runningSums previous deltas ++ ·)
      | steps length delta newStep =>
        rw [DeltaSegment.count] at hown hcount hnext
        have hlast : ((DeltaSegment.steps length delta newStep).values previous
            step).getLastD previous =
            previous + delta + newStep.getD step * (length - 1 : Nat) :=
          getLastD_progression _ hown previous
        rw [hlast, DeltaSegment.stepAfter] at hnext ⊢
        have hlengths : (decide (length ≠ 0) && decide (length ≤ count - filled)) = true := by
          simp only [Bool.and_eq_true, decide_eq_true_eq]
          omega
        cases newStep with
        | none =>
          obtain ⟨head, tail, hhead, htail, rfl⟩ := concat_cons_eq_ok.mp hfirst
          obtain ⟨start, nothing, hstart, hnothing, rfl⟩ := concat_cons_eq_ok.mp htail
          cases hnothing
          obtain ⟨hmode, hlen⟩ := hcode length .sameStep
          rw [append_nil, append_assoc]
          apply ReadsWithin.bind (reads_writeVarint hhead)
          simp only [hmode, hlen]
          apply ReadsWithin.require hlengths
          rw [if_neg (by decide), if_neg (by decide)]
          apply ReadsWithin.bind (reads_writeZigZagVarint hstart)
          rw [if_neg (by decide)]
          exact readsWithin_steps hown hsafe.1 hnext
        | some newStep =>
          obtain ⟨head, tail, hhead, htail, rfl⟩ := concat_cons_eq_ok.mp hfirst
          obtain ⟨start, last, hstart, hlast, rfl⟩ := concat_cons_eq_ok.mp htail
          obtain ⟨own, nothing, hstep, hnothing, rfl⟩ := concat_cons_eq_ok.mp hlast
          cases hnothing
          obtain ⟨hmode, hlen⟩ := hcode length .newStep
          rw [append_nil, append_assoc, append_assoc]
          apply ReadsWithin.bind (reads_writeVarint hhead)
          simp only [hmode, hlen]
          apply ReadsWithin.require hlengths
          rw [if_neg (by decide), if_neg (by decide)]
          apply ReadsWithin.bind (reads_writeZigZagVarint hstart)
          rw [if_pos trivial]
          apply ReadsWithin.bind (reads_writeZigZagVarint hstep)
          exact readsWithin_steps hown hsafe.1 hnext

theorem reads_timestamps {values : List Int} {bytes : List Byte}
    (h : writeDeltaSegments values = .ok bytes) (hlength : values.length ≤ egw4MaxEvents)
    (hsafe : ∀ value ∈ values, isSafeInt value = true) :
    Reads (readTimestamps values.length) bytes values := by
  have hrange := (succeeds_writeDeltaSegments hlength).mp ⟨bytes, h⟩
  have hvalues : segmentValues 0 0 (deltaSegments values.length 0 0 [] values) = values :=
    deltaSegments_values values.length 0 0 0 [] values (Nat.le_refl _) hrange rfl
  have hread : ∀ min max : Int, ReadsWithin
      (readDeltaSegmentsInto min max values.length values.length 0 0 0) bytes
      (InRange min max values) values := by
    intro min max
    have hsegments : ReadsWithin
        (readDeltaSegmentsInto min max values.length values.length 0 0 0) bytes
        (InRange min max (segmentValues 0 0 (deltaSegments values.length 0 0 [] values)))
        (segmentValues 0 0 (deltaSegments values.length 0 0 [] values)) := by
      apply readsWithin_segments h
      · exact deltaSegments_pos values.length 0 0 [] values
      · rw [hvalues, Nat.zero_add]
      · rw [hvalues]
      · rwa [hvalues]
    rwa [hvalues] at hsegments
  apply reads_narrowOrWide (hread int32Min int32Max)
  apply (hread (-maxSafeInteger) maxSafeInteger).reads
  intro value hvalue
  simpa [isSafeInt] using hsafe value hvalue

end ReadSegments

end Softmaple.Codec

namespace Softmaple.Codec

open ListReader List

structure RowMatches (event : GraphEvent) (row : Egw4Row) : Prop where
  isInsert : row.isInsert = event.operation.isInsert
  span : event.operation.span? = some (row.operationIndex, row.operationLength)
  timestamp : event.timestamp.safeInteger? = some row.timestamp
  wellFormed : Utf8.wellFormed event.operation.insertedText = true

variable {events : List GraphEvent}

theorem EncodedHolds.rowMatches {state : EventEncoderState}
    (h : EncodedHolds state events) : List.Forall₂ RowMatches events state.rows := by
  apply forall₂_iff_get.mpr
  refine ⟨h.length_rows.symm, ?_⟩
  intro position hevent hrow
  obtain ⟨checked, hchecked, -, heq⟩ := h.row position _ _
    (getElem?_eq_getElem hevent) (getElem?_eq_getElem hrow)
  obtain ⟨htime, hspan, -, hwell, hinsert, -⟩ := checkColumns_eq_ok.mp hchecked
  rw [get_eq_getElem, get_eq_getElem, heq]
  exact ⟨hinsert, hspan, htime, hwell⟩

theorem rowMatches_getElem? {rows : List Egw4Row}
    (h : List.Forall₂ RowMatches events rows) {position : Nat} {event : GraphEvent}
    {row : Egw4Row} (hevent : events[position]? = some event) (hrow : rows[position]? = some row) :
    RowMatches event row := by
  obtain ⟨hevents, hgetEvent⟩ := List.getElem?_eq_some_iff.mp hevent
  obtain ⟨hrows, hgetRow⟩ := List.getElem?_eq_some_iff.mp hrow
  rw [← hgetEvent, ← hgetRow]
  exact (forall₂_iff_get.mp h).2 position hevents hrows

theorem RowMatches.insertedLength {event : GraphEvent} {row : Egw4Row} (h : RowMatches event row) :
    row.insertedLength = event.operation.insertedText.length := by
  have hspan := h.span
  rw [Egw4Row.insertedLength, h.isInsert]
  cases hoperation : event.operation with
  | insert index text =>
    rw [hoperation, Operation.span?] at hspan
    obtain ⟨value, -, heq⟩ := Option.map_eq_some_iff.mp hspan
    exact (Prod.mk.inj heq).2.symm
  | delete index length => rfl

theorem insertedTotal_eq {rows : List Egw4Row} (h : List.Forall₂ RowMatches events rows) :
    insertedTotal rows = (events.flatMap (·.operation.insertedText)).length := by
  induction h with
  | nil => rfl
  | cons hrow _ ih =>
    rw [insertedTotal_cons, ih, hrow.insertedLength, flatMap_cons, length_append]

section Content

theorem checkInserts_eq_ok {events : List GraphEvent} {rows : List Egw4Row}
    (h : List.Forall₂ RowMatches events rows) (before : Text) (offset : Nat) :
    checkInserts (before ++ events.flatMap (·.operation.insertedText)) offset
      ((entriesFrom before.length rows).zip (rows.map (·.operationLength))) = .ok () := by
  induction h generalizing before offset with
  | nil => rfl
  | @cons event row events rows hrow _ ih =>
    have hlength := hrow.insertedLength
    have hnext : (before ++ event.operation.insertedText).length =
        before.length + row.insertedLength := by
      rw [length_append, hlength]
    have hrest := ih (before ++ event.operation.insertedText) (offset + 1)
    rw [hnext, append_assoc] at hrest
    rw [entriesFrom, map_cons, zip_cons_cons, checkInserts, flatMap_cons, hrest]
    simp only [ite_eq_right_iff, reduceCtorEq, imp_false, Bool.not_eq_true]
    cases hinsert : row.isInsert with
    | false => rfl
    | true =>
      rw [Egw4Row.insertedLength, if_pos hinsert] at hlength
      by_cases hzero : row.operationLength = 0
      · simp [hzero]
      · obtain ⟨hfirst, hlast⟩ := Utf8.wellFormed_ends hrow.wellFormed
        have hne : event.operation.insertedText ≠ [] := by
          intro hnil
          rw [hnil] at hlength
          exact hzero hlength
        have hpos : 0 < event.operation.insertedText.length := length_pos_iff.mpr hne
        have hhead : (before ++ (event.operation.insertedText ++
            events.flatMap (·.operation.insertedText)))[before.length]? =
            event.operation.insertedText.head? := by
          rw [getElem?_append_right (Nat.le_refl _), Nat.sub_self,
            getElem?_append_left hpos, head?_eq_getElem?]
        have hend : (before ++ (event.operation.insertedText ++ events.flatMap
            (·.operation.insertedText)))[before.length + row.operationLength - 1]? =
            event.operation.insertedText.getLast? := by
          rw [getElem?_append_right (by omega), getElem?_append_left (by omega),
            getLast?_eq_getElem?]
          congr 1
          omega
        have hlow : ∀ first, event.operation.insertedText.head? = some first →
            isLowSurrogate first = false := hfirst
        have hhigh : ∀ last, event.operation.insertedText.getLast? = some last →
            isHighSurrogate last = false := hlast
        rw [head?_eq_some_head hne] at hhead hlow
        rw [getLast?_eq_some_getLast hne] at hend hhigh
        simp [hhead, hend, hlow _ rfl, hhigh _ rfl]

theorem entriesFrom_getElem? (inserted : Nat) (rows : List Egw4Row) (position : Nat) :
    (entriesFrom inserted rows)[position]? = rows[position]?.map fun row =>
      ⟨row.isInsert, row.operationIndex,
        if row.isInsert then inserted + insertedTotal (rows.take position) else 0⟩ := by
  induction rows generalizing inserted position with
  | nil => rfl
  | cons row rest ih =>
    cases position with
    | zero => rfl
    | succ position =>
      rw [entriesFrom, getElem?_cons_succ, getElem?_cons_succ, ih,
        take_succ_cons, insertedTotal_cons, Nat.add_assoc]

theorem operation_eq {events : List GraphEvent} {rows : List Egw4Row}
    (h : List.Forall₂ RowMatches events rows) {position : Nat} {event : GraphEvent}
    {row : Egw4Row} (hevent : events[position]? = some event) (hrow : rows[position]? = some row) :
    (if row.isInsert then
      .insert (.ofInt row.operationIndex) (((events.flatMap (·.operation.insertedText)).drop
          (insertedTotal (rows.take position))).take row.operationLength)
    else .delete (.ofInt row.operationIndex) (.ofInt row.operationLength)) = event.operation := by
  have hmatches := rowMatches_getElem? h hevent hrow
  have hspan := hmatches.span
  cases hoperation : event.operation with
  | insert index text =>
    have hinsert : row.isInsert = true := by rw [hmatches.isInsert, hoperation]; rfl
    have hlength := hmatches.insertedLength
    rw [Egw4Row.insertedLength, if_pos hinsert] at hlength
    rw [hoperation, Operation.span?] at hspan
    obtain ⟨value, hvalue, heq⟩ := Option.map_eq_some_iff.mp hspan
    obtain ⟨hindex, -⟩ := JsNumber.eq_ofInt_of_safeNatural? hvalue
    have hprefix : insertedTotal (rows.take position) =
        ((events.take position).flatMap (·.operation.insertedText)).length :=
      insertedTotal_eq (forall₂_take position h)
    have hsplit : events = events.take position ++ event :: events.drop (position + 1) := by
      obtain ⟨hlt, hget⟩ := List.getElem?_eq_some_iff.mp hevent
      rw [← hget, ← drop_eq_getElem_cons hlt, take_append_drop]
    have hcontent : events.flatMap (·.operation.insertedText) =
        (events.take position).flatMap (·.operation.insertedText) ++
          (event.operation.insertedText ++
            (events.drop (position + 1)).flatMap (·.operation.insertedText)) := by
      conv_lhs => rw [hsplit]
      rw [flatMap_append, flatMap_cons]
    rw [if_pos hinsert, hcontent, hprefix, drop_left, take_left' hlength.symm,
      hoperation, hindex, (Prod.mk.inj heq).1]
    rfl
  | delete index length =>
    have hdelete : row.isInsert = false := by rw [hmatches.isInsert, hoperation]; rfl
    rw [hoperation, Operation.span?] at hspan
    cases hindex : index.safeNatural? with
    | none => simp [hindex] at hspan
    | some value =>
      cases hcount : length.safeNatural? with
      | none => simp [hindex, hcount] at hspan
      | some count =>
        rw [hindex, hcount] at hspan
        obtain ⟨hsame, hequal⟩ := Prod.mk.inj (Option.some.inj hspan)
        obtain ⟨hofIndex, -⟩ := JsNumber.eq_ofInt_of_safeNatural? hindex
        obtain ⟨hofLength, -⟩ := JsNumber.eq_ofInt_of_safeNatural? hcount
        rw [hdelete, hofIndex, hofLength, hsame, hequal]
        rfl

end Content

section Platform

variable {Metadata : Type} {platform : Platform Metadata}

/-- LZ4 is lossless, and a compressed byte yields at most 255. -/
structure LosslessFrames (platform : Platform Metadata) : Prop where
  decompress : ∀ bytes maxBytes, bytes.length ≤ maxBytes →
    platform.decompress (platform.compress bytes) maxBytes = .ok bytes
  expansion : ∀ bytes, bytes.length ≤ (platform.compress bytes).length * lz4MaxExpansion

/-- JSON gives the metadata back as `parsed`; its text is well formed. -/
structure JsonReturns (platform : Platform Metadata) (metadata parsed : Metadata) : Prop where
  wellFormed : Utf8.wellFormed (platform.stringify metadata) = true
  parse : platform.parse (platform.stringify metadata) = some parsed
  isObject : platform.isObject parsed = true

theorem reads_insertedContent (hframes : LosslessFrames platform) {content : Text}
    {operations : List OperationEntry} {lengths : List Nat} {bytes : List Byte}
    (h : writeBytes (platform.compress (encodeText content)) = .ok bytes)
    (hwell : Utf8.wellFormed content = true)
    (hcheck : checkInserts content 0 (operations.zip lengths) = .ok ()) :
    Reads (readInsertedContent platform operations content.length lengths) bytes content := by
  obtain ⟨hsafe, rfl⟩ := writeBytes_eq_ok.mp h
  have hutf : (encodeText content).length ≤ 3 * content.length := Utf8.length_encode_le content
  have hexpand := hframes.expansion (encodeText content)
  have hdecompress := hframes.decompress (encodeText content)
    (min (content.length * 3) ((platform.compress (encodeText content)).length * lz4MaxExpansion) +
      64) (by omega)
  have hdecode : decodeTextStrict (encodeText content) = .ok content := by
    rw [decodeTextStrict, encodeText, Utf8.decode_encode,
      (Utf8.toWellFormed_eq_iff content).mpr hwell]
  have htake : Reads (readByteView (platform.compress (encodeText content)).length)
      (platform.compress (encodeText content)) (platform.compress (encodeText content)) :=
    reads_take _ _
  apply (reads_varint hsafe).bind
  apply htake.bind_nil
  apply Reads.lift hdecompress
  apply Reads.lift hdecode
  apply Reads.require (decide_eq_true rfl)
  exact Reads.lift hcheck (reads_pure content)

theorem reads_metadata {metadata parsed : Metadata} {bytes : List Byte}
    (h : writeString (platform.stringify metadata) = .ok bytes)
    (hjson : JsonReturns platform metadata parsed) :
    Reads (readMetadata platform) bytes parsed := by
  intro rest
  have hread := reads_writeString h hjson.wellFormed rest
  simp only [readMetadata, hread, hjson.parse, hjson.isObject, if_true]

end Platform

end Softmaple.Codec
