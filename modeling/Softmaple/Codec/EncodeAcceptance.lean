import Softmaple.Codec.TopologicalBinaryEncoder
import Mathlib.Data.List.TakeWhile

/-!
When the encoder accepts its columns. Counts and positions are always small
enough once the event limit holds, so what remains are the values themselves:
strings and byte arrays of a safe length, and timestamps whose successive
differences fit a zigzag varint.
-/
namespace Softmaple.Codec

open List

/-- The call returns. -/
def Succeeds {ε α : Type} (result : Except ε α) : Prop := ∃ value, result = .ok value

theorem succeeds_ok {ε α : Type} (value : α) : Succeeds (.ok value : Except ε α) := ⟨value, rfl⟩

theorem not_succeeds_error {ε α : Type} (error : ε) :
    ¬ Succeeds (.error error : Except ε α) := by
  intro h
  obtain ⟨value, h⟩ := h
  cases h

theorem succeeds_map {ε α β : Type} {f : α → β} {result : Except ε α} :
    Succeeds (result.map f) ↔ Succeeds result := by
  cases result with
  | error error => exact iff_of_false (not_succeeds_error error) (not_succeeds_error error)
  | ok value => exact iff_of_true (succeeds_ok _) (succeeds_ok _)

theorem succeeds_concat {parts : List Written} :
    Succeeds (concat parts) ↔ ∀ part ∈ parts, Succeeds part := by
  induction parts with
  | nil => exact iff_of_true (succeeds_ok []) (by simp)
  | cons part rest ih =>
    rw [forall_mem_cons]
    cases part with
    | error error =>
      exact iff_of_false (not_succeeds_error error) fun h => not_succeeds_error error h.1
    | ok bytes =>
      rw [concat, succeeds_map, ih]
      exact ⟨fun h => ⟨succeeds_ok bytes, h⟩, fun h => h.2⟩

theorem succeeds_writeVarint {value : Nat} :
    Succeeds (writeVarint value) ↔ value ≤ maxSafeInteger := by
  constructor
  · intro h
    obtain ⟨bytes, h⟩ := h
    exact (writeVarint_eq_ok.mp h).1
  · exact fun h => ⟨_, writeVarint_eq_ok.mpr ⟨h, rfl⟩⟩

theorem succeeds_writeZigZagVarint {value : Int} : Succeeds (writeZigZagVarint value) ↔
      -0x10000000000000 ≤ value ∧ value < 0x10000000000000 := by
  constructor
  · intro h
    obtain ⟨bytes, h⟩ := h
    exact (writeZigZagVarint_eq_ok.mp h).1
  · exact fun h => ⟨_, writeZigZagVarint_eq_ok.mpr ⟨h, rfl⟩⟩

theorem succeeds_writeBytes {bytes : List Byte} :
    Succeeds (writeBytes bytes) ↔ bytes.length ≤ maxSafeInteger := by
  constructor
  · intro h
    obtain ⟨written, h⟩ := h
    exact (writeBytes_eq_ok.mp h).1
  · exact fun h => ⟨_, writeBytes_eq_ok.mpr ⟨h, rfl⟩⟩

theorem small_safe {size : Nat} (h : size ≤ egw4MaxEvents) : size * 4 + 3 ≤ maxSafeInteger := by
  have hevents : egw4MaxEvents = 33554432 := by decide
  rw [maxSafeInteger]
  omega

section UnsignedRuns

theorem groupLength_pos {value : Nat} {rest : List Nat} : 0 < groupLength (value :: rest) :=
  Nat.succ_pos _

/-- The values a run stands for. -/
def UnsignedRun.values : UnsignedRun → List Nat
  | .repeated count value => List.replicate count value
  | .literal values => values

theorem take_groupLength (value : Nat) (rest : List Nat) :
    (value :: rest).take (groupLength (value :: rest)) =
      List.replicate (groupLength (value :: rest)) value := by
  rw [groupLength, take_succ_cons, replicate_succ]
  congr 1
  have hwhile : rest.take (rest.takeWhile (· = value)).length = rest.takeWhile (· = value) :=
    (prefix_iff_eq_take.mp ( takeWhile_prefix _)).symm
  rw [hwhile]
  apply eq_replicate_of_mem
  intro other hother
  simpa using mem_takeWhile_imp hother

theorem unsignedRuns_values (fuel : Nat) (values : List Nat) (hfuel : values.length ≤ fuel) :
    (unsignedRuns fuel values).flatMap (·.values) = values ∧
      ∀ run ∈ unsignedRuns fuel values, run.values ≠ [] := by
  induction fuel generalizing values with
  | zero =>
    rw [length_eq_zero_iff.mp (Nat.le_zero.mp hfuel)]
    exact ⟨rfl, by simp [unsignedRuns]⟩
  | succ fuel ih =>
    cases values with
    | nil => exact ⟨rfl, by simp [unsignedRuns]⟩
    | cons value rest =>
      have hpos : 0 < groupLength (value :: rest) := groupLength_pos
      have hdrop : ∀ length, 0 < length →
          ((value :: rest).drop length).length ≤ fuel := by
        intro length hlength
        rw [length_drop]
        omega
      rw [unsignedRuns]
      by_cases hgroup : egw4MinRepeat ≤ groupLength (value :: rest)
      · simp only [if_pos hgroup]
        obtain ⟨hvalues, hne⟩ := ih _ (hdrop _ hpos)
        refine ⟨?_, ?_⟩
        · rw [flatMap_cons, hvalues, UnsignedRun.values, ← take_groupLength]
          exact take_append_drop _ _
        · intro run hrun
          cases mem_cons.mp hrun with
          | inl heq =>
            rw [heq, UnsignedRun.values]
            simp only [ne_eq, replicate_eq_nil_iff]
            omega
          | inr hmem => exact hne run hmem
      · simp only [if_neg hgroup]
        obtain ⟨hvalues, hne⟩ := ih _ (hdrop _ (Nat.add_pos_left hpos _))
        refine ⟨?_, ?_⟩
        · rw [flatMap_cons, hvalues]
          exact take_append_drop _ _
        · intro run hrun
          cases mem_cons.mp hrun with
          | inl heq =>
            rw [heq, UnsignedRun.values]
            simp only [ne_eq, take_eq_nil_iff, reduceCtorEq, or_false]
            omega
          | inr hmem => exact hne run hmem

theorem length_values_le {runs : List UnsignedRun} {run : UnsignedRun} (h : run ∈ runs) :
    run.values.length ≤ (runs.flatMap (·.values)).length := by
  obtain ⟨before, after, rfl⟩ := append_of_mem h
  simp only [flatMap_append, flatMap_cons, length_append]
  omega

theorem succeeds_writeUnsignedRuns {values : List Nat} (hlength : values.length ≤ egw4MaxEvents) :
    Succeeds (writeUnsignedRuns values) ↔ ∀ value ∈ values, value ≤ maxSafeInteger := by
  have hruns := unsignedRuns_values values.length values (Nat.le_refl _)
  have hsmall : ∀ run ∈ unsignedRuns values.length values, run.values.length ≤ values.length := by
    intro run hrun
    have := length_values_le hrun
    rwa [hruns.1] at this
  have hsafe := small_safe hlength
  rw [writeUnsignedRuns, succeeds_concat]
  constructor
  · intro h value hvalue
    rw [← hruns.1] at hvalue
    obtain ⟨run, hrun, hmem⟩ := mem_flatMap.mp hvalue
    cases run with
    | repeated count other =>
      obtain rfl := eq_of_mem_replicate hmem
      exact succeeds_writeVarint.mp (h _ (mem_flatMap.mpr ⟨_, hrun, by
        simp [UnsignedRun.write]⟩))
    | literal others =>
      exact succeeds_writeVarint.mp (h _ (mem_flatMap.mpr ⟨_, hrun,
        mem_cons_of_mem _ (mem_map_of_mem hmem)⟩))
  · intro h part hpart
    obtain ⟨run, hrun, hmem⟩ := mem_flatMap.mp hpart
    have hle := hsmall run hrun
    have hvalues : ∀ value ∈ run.values, value ≤ maxSafeInteger := fun value hvalue =>
      h value (by rw [← hruns.1]; exact mem_flatMap.mpr ⟨run, hrun, hvalue⟩)
    cases run with
    | repeated count value =>
      have hne := hruns.2 _ hrun
      simp only [UnsignedRun.values, length_replicate] at hle
      simp only [UnsignedRun.write, mem_cons, not_mem_nil, or_false] at hmem
      cases hmem with
      | inl heq =>
        rw [heq]
        exact succeeds_writeVarint.mpr (by omega)
      | inr heq =>
        rw [heq]
        apply succeeds_writeVarint.mpr
        apply hvalues
        simpa [UnsignedRun.values] using hne
    | literal others =>
      simp only [UnsignedRun.values] at hle
      cases mem_cons.mp hmem with
      | inl heq =>
        rw [heq]
        exact succeeds_writeVarint.mpr (by omega)
      | inr hother =>
        obtain ⟨value, hvalue, rfl⟩ := mem_map.mp hother
        exact succeeds_writeVarint.mpr (hvalues value hvalue)

end UnsignedRuns

section OperationSpans

/-- Inserts one after the other from `index` on, up to `after`. -/
def InsertsFrom : Nat → List Egw4Row → Nat → Prop
  | index, [], after => after = index
  | index, row :: rest, after => row.isInsert = true ∧ row.operationIndex = index ∧
      InsertsFrom (index + row.operationLength) rest after

/-- Deletes that each end where the one before started, from `cursor` back to `after`. -/
def BackspacesFrom : Nat → List Egw4Row → Nat → Prop
  | cursor, [], after => after = cursor
  | cursor, row :: rest, after => row.isInsert = false ∧
      row.operationIndex + row.operationLength = cursor ∧
      BackspacesFrom row.operationIndex rest after

structure SpanRows (span : OperationSpan) (rows : List Egw4Row) : Prop where
  length : rows.length = span.count
  nonempty : rows ≠ []
  insert : span.kind = .insert → InsertsFrom span.anchor rows span.cursorAfter
  delete : span.kind = .delete → span.cursorAfter = span.anchor ∧
    ∀ row ∈ rows, row.isInsert = false ∧ row.operationIndex = span.anchor
  backspace : span.kind = .backspace → BackspacesFrom span.anchor rows span.cursorAfter

theorem insertSpan_spec (cursor : Nat) (rows : List Egw4Row) :
    (insertSpan cursor rows).1 ≤ rows.length ∧
      InsertsFrom cursor (rows.take (insertSpan cursor rows).1) (insertSpan cursor rows).2 := by
  induction rows generalizing cursor with
  | nil => exact ⟨Nat.le_refl 0, rfl⟩
  | cons row rest ih =>
    rw [insertSpan]
    split
    · next h =>
        simp only [Bool.and_eq_true, decide_eq_true_eq] at h
        obtain ⟨hle, hfrom⟩ := ih (cursor + row.operationLength)
        exact ⟨Nat.succ_le_succ hle, h.1, h.2, hfrom⟩
    · exact ⟨Nat.zero_le _, rfl⟩

theorem backspaceSpan_spec (cursor : Nat) (rows : List Egw4Row) :
    (backspaceSpan cursor rows).1 ≤ rows.length ∧
      BackspacesFrom cursor (rows.take (backspaceSpan cursor rows).1)
        (backspaceSpan cursor rows).2 := by
  induction rows generalizing cursor with
  | nil => exact ⟨Nat.le_refl 0, rfl⟩
  | cons row rest ih =>
    rw [backspaceSpan]
    split
    · next h =>
        simp only [Bool.and_eq_true, Bool.not_eq_eq_eq_not, Bool.not_true,
          decide_eq_true_eq] at h
        obtain ⟨hle, hfrom⟩ := ih row.operationIndex
        exact ⟨Nat.succ_le_succ hle, h.1, h.2, hfrom⟩
    · exact ⟨Nat.zero_le _, rfl⟩

theorem deleteSpan_spec (index : Nat) (rows : List Egw4Row) :
    deleteSpan index rows ≤ rows.length ∧ ∀ row ∈ rows.take (deleteSpan index rows),
      row.isInsert = false ∧ row.operationIndex = index := by
  have hwhile : rows.take (deleteSpan index rows) =
      rows.takeWhile fun row => !row.isInsert && row.operationIndex = index :=
    (prefix_iff_eq_take.mp ( takeWhile_prefix _)).symm
  refine ⟨(takeWhile_sublist _).length_le, fun row hrow => ?_⟩
  rw [hwhile] at hrow
  simpa using mem_takeWhile_imp hrow

theorem firstSpan_spec (row : Egw4Row) (rest : List Egw4Row) :
    (firstSpan row rest).count ≤ rest.length + 1 ∧
      SpanRows (firstSpan row rest) ((row :: rest).take (firstSpan row rest).count) := by
  have hdeletes : row.isInsert = false → ∀ following : List Egw4Row,
      SpanRows ⟨.delete, deleteSpan row.operationIndex following + 1, row.operationIndex,
        row.operationIndex⟩
        ((row :: following).take (deleteSpan row.operationIndex following + 1)) := by
    intro hrow following
    obtain ⟨hle, hall⟩ := deleteSpan_spec row.operationIndex following
    refine ⟨by simp [hle], by simp, by simp, fun _ => ⟨rfl, fun other hother => ?_⟩, by simp⟩
    rw [take_succ_cons, mem_cons] at hother
    cases hother with
    | inl heq => rw [heq]; exact ⟨hrow, rfl⟩
    | inr hmem => exact hall other hmem
  unfold firstSpan
  by_cases hinsert : row.isInsert = true
  · obtain ⟨hle, hfrom⟩ := insertSpan_spec (row.operationIndex + row.operationLength) rest
    simp only [hinsert, if_true]
    refine ⟨Nat.succ_le_succ hle, by simp [hle], by simp, fun _ => ?_, by simp, by simp⟩
    exact ⟨hinsert, rfl, hfrom⟩
  · have hdelete : row.isInsert = false := by simpa using hinsert
    simp only [hdelete, Bool.false_eq_true, if_false]
    cases rest with
    | nil => exact ⟨Nat.le_refl 1, hdeletes hdelete []⟩
    | cons next rest =>
      by_cases hback : (!next.isInsert && next.operationIndex ≠ row.operationIndex &&
          next.operationIndex + next.operationLength = row.operationIndex) = true
      · obtain ⟨hle, hfrom⟩ := backspaceSpan_spec next.operationIndex rest
        simp only [hback, if_true]
        simp only [Bool.and_eq_true, Bool.not_eq_eq_eq_not, Bool.not_true,
          decide_eq_true_eq] at hback
        refine ⟨by simpa using hle, by simp [hle], by simp, by simp, by simp, fun _ => ?_⟩
        exact ⟨hdelete, rfl, hback.1.1, hback.2, hfrom⟩
      · simp only [if_neg hback]
        exact ⟨Nat.succ_le_succ (deleteSpan_spec _ _).1, hdeletes hdelete (next :: rest)⟩

theorem operationSpans_spec (fuel : Nat) (rows : List Egw4Row) (hfuel : rows.length ≤ fuel) :
    ∃ chunks, rows = chunks.flatten ∧ List.Forall₂ SpanRows (operationSpans fuel rows) chunks := by
  induction fuel generalizing rows with
  | zero =>
    rw [length_eq_zero_iff.mp (Nat.le_zero.mp hfuel)]
    exact ⟨[], rfl, .nil⟩
  | succ fuel ih =>
    cases rows with
    | nil => exact ⟨[], rfl, .nil⟩
    | cons row rest =>
      obtain ⟨hle, hspan⟩ := firstSpan_spec row rest
      have hpos : 0 < (firstSpan row rest).count := by
        rw [← hspan.length]
        exact length_pos_iff.mpr hspan.nonempty
      rw [length_cons] at hfuel
      obtain ⟨chunks, hchunks, hforall⟩ :=
        ih ((row :: rest).drop (firstSpan row rest).count) (by
          rw [length_drop, length_cons]
          omega)
      refine ⟨(row :: rest).take (firstSpan row rest).count :: chunks, ?_,
        .cons hspan hforall⟩
      rw [flatten_cons, ← hchunks, take_append_drop]

def RowsSafe (rows : List Egw4Row) : Prop :=
  ∀ row ∈ rows, row.operationIndex + row.operationLength ≤ maxSafeInteger

variable {rows : List Egw4Row}

theorem InsertsFrom.safe {index after : Nat}
    (h : InsertsFrom index rows after) (hsafe : RowsSafe rows) (hindex : index ≤ maxSafeInteger) :
    after ≤ maxSafeInteger := by
  induction rows generalizing index with
  | nil =>
    rw [h]
    exact hindex
  | cons row rest ih =>
    obtain ⟨-, heq, hrest⟩ := h
    obtain ⟨hrow, hsafe⟩ := forall_mem_cons.mp hsafe
    exact ih hrest hsafe (by omega)

theorem BackspacesFrom.safe {cursor after : Nat}
    (h : BackspacesFrom cursor rows after) (hsafe : RowsSafe rows)
    (hcursor : cursor ≤ maxSafeInteger) : after ≤ maxSafeInteger := by
  induction rows generalizing cursor with
  | nil =>
    rw [h]
    exact hcursor
  | cons row rest ih =>
    obtain ⟨-, heq, hrest⟩ := h
    obtain ⟨hrow, hsafe⟩ := forall_mem_cons.mp hsafe
    exact ih hrest hsafe (by omega)

theorem SpanRows.safe {span : OperationSpan} (h : SpanRows span rows)
    (hsafe : RowsSafe rows) :
    span.anchor ≤ maxSafeInteger ∧ span.cursorAfter ≤ maxSafeInteger := by
  have hne := h.nonempty
  cases rows with
  | nil => exact absurd rfl hne
  | cons row rest =>
    have hrow := hsafe row mem_cons_self
    cases hkind : span.kind with
    | insert =>
      have hfrom := h.insert hkind
      have hanchor : span.anchor ≤ maxSafeInteger := by
        have := hfrom.2.1
        omega
      exact ⟨hanchor, hfrom.safe hsafe hanchor⟩
    | delete =>
      obtain ⟨hcursor, hall⟩ := h.delete hkind
      have := (hall row mem_cons_self).2
      rw [hcursor]
      omega
    | backspace =>
      have hfrom := h.backspace hkind
      have hanchor : span.anchor ≤ maxSafeInteger := by
        have := hfrom.2.1
        omega
      exact ⟨hanchor, hfrom.safe hsafe hanchor⟩

theorem succeeds_writeSpans {spans : List OperationSpan} {chunks : List (List Egw4Row)}
    (h : List.Forall₂ SpanRows spans chunks) {cursor : Nat} (hcursor : cursor ≤ maxSafeInteger)
    (hsafe : RowsSafe chunks.flatten) (hlength : chunks.flatten.length ≤ egw4MaxEvents) :
    ∀ part ∈ writeSpans cursor spans, Succeeds part := by
  induction h generalizing cursor with
  | nil => simp [writeSpans]
  | cons hspan _ ih =>
    rw [flatten_cons, length_append] at hlength
    rw [flatten_cons] at hsafe
    have hsafes := forall_mem_append.mp hsafe
    obtain ⟨hanchor, hafter⟩ := hspan.safe hsafes.1
    have hcount := small_safe (Nat.le_trans (Nat.le_add_right _ _) hlength)
    rw [hspan.length] at hcount
    have hcode : ∀ kind : SpanKind, kind.code ≤ 3 := by
      intro kind
      cases kind <;> decide
    rw [writeSpans]
    intro part hpart
    rw [mem_cons, mem_cons] at hpart
    cases hpart with
    | inl heq =>
      rw [heq]
      apply succeeds_writeVarint.mpr
      exact Nat.le_trans (Nat.add_le_add_left (hcode _) _) hcount
    | inr hpart =>
      cases hpart with
      | inl heq =>
        rw [heq]
        exact succeeds_writeZigZagVarint.mpr (wrapAnchorDelta_spec hcursor hanchor).1
      | inr hmem =>
        exact ih hafter hsafes.2 (Nat.le_trans (Nat.le_add_left _ _) hlength) part hmem

theorem succeeds_writeOperationSpans (hsafe : RowsSafe rows)
    (hlength : rows.length ≤ egw4MaxEvents) : Succeeds (writeOperationSpans rows) := by
  obtain ⟨chunks, hchunks, hforall⟩ := operationSpans_spec rows.length rows (Nat.le_refl _)
  rw [writeOperationSpans, succeeds_concat]
  exact succeeds_writeSpans hforall (Nat.zero_le _) (hchunks ▸ hsafe) (hchunks ▸ hlength)

end OperationSpans

section DeltaSegments

/-- The differences of successive values, the first from `previous`. -/
def deltas : Int → List Int → List Int
  | _, [] => []
  | previous, value :: rest => (value - previous) :: deltas value rest

/-- The same differences as doubles. -/
def numberDeltas : Int → List Int → List Int
  | _, [] => []
  | previous, value :: rest => numberSub value previous :: numberDeltas value rest

/-- What a zigzag varint holds. -/
def ZigZagRange (delta : Int) : Prop := -0x10000000000000 ≤ delta ∧ delta < 0x10000000000000

theorem numberSub_of_small {a b : Int} (h : (a - b).natAbs ≤ 2 ^ 53) : numberSub a b = a - b :=
  if_pos (.inl h)

theorem numberSub_range {a b : Int} : ZigZagRange (numberSub a b) ↔ ZigZagRange (a - b) := by
  rw [numberSub, ZigZagRange, ZigZagRange]
  by_cases hsmall : (a - b).natAbs ≤ 2 ^ 53 ∨ (a - b) % 2 = 0
  · simp only [hsmall, if_true]
  · simp only [hsmall, if_false]
    split
    · omega
    · omega

/-- Rounding does not touch the differences that can be written. -/
theorem numberDeltas_range {previous : Int} {values : List Int} :
    (∀ delta ∈ numberDeltas previous values, ZigZagRange delta) ↔
      ∀ delta ∈ deltas previous values, ZigZagRange delta := by
  induction values generalizing previous with
  | nil => simp [deltas, numberDeltas]
  | cons value rest ih =>
    rw [deltas, numberDeltas, forall_mem_cons, forall_mem_cons, numberSub_range, ih]

theorem numberDeltas_drop (previous : Int) (values : List Int) (n : Nat) (h : n ≤ values.length) :
    numberDeltas previous values = (numberDeltas previous values).take n ++
      numberDeltas ((previous :: values).getD n previous) (values.drop n) := by
  induction n generalizing previous values with
  | zero => simp
  | succ n ih =>
    cases values with
    | nil => cases h
    | cons value rest =>
      rw [length_cons, Nat.add_le_add_iff_right] at h
      have hlt : n < (value :: rest).length := Nat.lt_succ_of_le h
      have hget : (previous :: value :: rest).getD (n + 1) previous =
          (value :: rest).getD n value := by
        rw [getD_cons_succ, getD_eq_getElem _ _ hlt, getD_eq_getElem _ _ hlt]
      rw [hget, numberDeltas, take_succ_cons, cons_append, drop_succ_cons,
        ← ih value rest h]

theorem stepRun_spec (step last : Int) (values : List Int) :
    stepRun step last values ≤ values.length ∧
      ∀ delta ∈ (numberDeltas last values).take (stepRun step last values), delta = step := by
  induction values generalizing last with
  | nil => exact ⟨Nat.le_refl 0, by simp [numberDeltas]⟩
  | cons value rest ih =>
    rw [stepRun]
    split
    · next heq =>
        obtain ⟨hle, hall⟩ := ih value
        refine ⟨Nat.succ_le_succ hle, fun delta hdelta => ?_⟩
        rw [numberDeltas, take_succ_cons, mem_cons] at hdelta
        cases hdelta with
        | inl hfirst => rw [hfirst, heq]
        | inr hmem => exact hall delta hmem
    · exact ⟨Nat.zero_le _, by simp⟩

def DeltaSegment.zigzags : DeltaSegment → List Int
  | .steps _ first none => [first]
  | .steps _ first (some step) => [first, step]
  | .literal deltas => deltas

def DeltaSegment.count : DeltaSegment → Nat
  | .steps length _ _ => length
  | .literal deltas => deltas.length

theorem succeeds_segment {segment : DeltaSegment} (hcount : segment.count ≤ egw4MaxEvents) :
    (∀ part ∈ segment.write, Succeeds part) ↔ ∀ delta ∈ segment.zigzags, ZigZagRange delta := by
  have hsmall := small_safe hcount
  cases segment with
  | steps length first newStep =>
    have hhead : ∀ mode : SegmentMode, Succeeds (writeVarint (length * 4 + mode.code)) := by
      intro mode
      have hcode : mode.code ≤ 3 := by cases mode <;> decide
      exact succeeds_writeVarint.mpr (Nat.le_trans (Nat.add_le_add_left hcode _) hsmall)
    cases newStep with
    | none =>
      simp [DeltaSegment.write, DeltaSegment.zigzags, hhead, succeeds_writeZigZagVarint,
        ZigZagRange]
    | some step =>
      simp [DeltaSegment.write, DeltaSegment.zigzags, hhead, succeeds_writeZigZagVarint,
        ZigZagRange]
  | literal deltas =>
    have hhead : Succeeds (writeVarint (deltas.length * 4 + SegmentMode.literal.code)) :=
      succeeds_writeVarint.mpr (Nat.le_trans (Nat.add_le_add_left (by decide) _) hsmall)
    simp [DeltaSegment.write, DeltaSegment.zigzags, hhead, succeeds_writeZigZagVarint,
      ZigZagRange]

structure SegmentsHold (segments : List DeltaSegment) (step : Int) (held : List Int) : Prop where
  zigzag_mem : ∀ delta ∈ segments.flatMap (·.zigzags), delta ∈ held
  mem_zigzag : ∀ delta ∈ held, delta ∈ segments.flatMap (·.zigzags) ∨ delta = step
  count_le : ∀ segment ∈ segments, segment.count ≤ held.length

theorem flushLiteral_hold (pending : List Int) (step : Int) :
    SegmentsHold (flushLiteral pending) step pending := by
  rw [flushLiteral]
  split
  · next h =>
      subst h
      exact ⟨by simp, by simp, by simp⟩
  · exact ⟨by simp [DeltaSegment.zigzags], fun delta hdelta => .inl (by
      simpa [DeltaSegment.zigzags] using hdelta), by simp [DeltaSegment.count]⟩

theorem length_numberDeltas (previous : Int) (values : List Int) :
    (numberDeltas previous values).length = values.length := by
  induction values generalizing previous with
  | nil => rfl
  | cons value rest ih => rw [numberDeltas, length_cons, ih, length_cons]

theorem deltaSegments_cons (fuel : Nat) (previous step : Int) (pending : List Int)
    (value next : Int) (rest : List Int) {segmentStep : Int} {n : Nat}
    (hstep : numberSub next value = segmentStep) (hn : stepRun segmentStep next rest = n) :
    deltaSegments (fuel + 1) previous step pending (value :: next :: rest) =
      if 1 ≤ n ∨ segmentStep = step then
        flushLiteral pending ++ .steps (n + 2) (numberSub value previous)
          (if segmentStep = step then none else some segmentStep) ::
          deltaSegments fuel ((next :: rest).getD n next) segmentStep [] (rest.drop n)
      else deltaSegments fuel value step (pending ++ [numberSub value previous]) (next :: rest) := by
  have hlt : n < (next :: rest).length := by
    rw [← hn]
    exact Nat.lt_succ_of_le (stepRun_spec segmentStep next rest).1
  have hget : (value :: next :: rest).getD (n + 2 - 1) value = (next :: rest).getD n next := by
    rw [Nat.add_sub_assoc (by decide), getD_cons_succ, getD_eq_getElem _ _ hlt,
      getD_eq_getElem _ _ hlt]
  have hcondition : (3 ≤ n + 2 ∨ n + 2 = 2 ∧ segmentStep = step) ↔ 1 ≤ n ∨ segmentStep = step := by
    constructor
    · intro h
      cases h with
      | inl h => exact .inl (by omega)
      | inr h => exact .inr h.2
    · intro h
      by_cases hpos : 1 ≤ n
      · exact .inl (by omega)
      · exact .inr ⟨by omega, h.resolve_left hpos⟩
  rw [← hget, ← if_congr hcondition rfl rfl, ← hn, ← hstep]
  rfl

theorem deltaSegments_hold (fuel : Nat) :
    ∀ (previous step : Int) (pending values : List Int), values.length ≤ fuel →
      SegmentsHold (deltaSegments fuel previous step pending values) step
        (pending ++ numberDeltas previous values) := by
  induction fuel with
  | zero =>
    intro previous step pending values hfuel
    rw [length_eq_zero_iff.mp (Nat.le_zero.mp hfuel), deltaSegments, numberDeltas,
      append_nil]
    exact flushLiteral_hold pending step
  | succ fuel ih =>
    intro previous step pending values hfuel
    cases values with
    | nil =>
      rw [deltaSegments, numberDeltas, append_nil]
      exact flushLiteral_hold pending step
    | cons value rest =>
      rw [length_cons] at hfuel
      have hpending : SegmentsHold
          (deltaSegments fuel value step (pending ++ [numberSub value previous]) rest) step
          (pending ++ numberDeltas previous (value :: rest)) := by
        have h := ih value step (pending ++ [numberSub value previous]) rest (by omega)
        rwa [append_assoc] at h
      cases rest with
      | nil => exact hpending
      | cons next rest =>
        obtain ⟨segmentStep, hs⟩ : ∃ s, numberSub next value = s := ⟨_, rfl⟩
        obtain ⟨n, hn⟩ : ∃ n, stepRun segmentStep next rest = n := ⟨_, rfl⟩
        obtain ⟨hle, hsteps⟩ := stepRun_spec segmentStep next rest
        rw [hn] at hle hsteps
        have hequation := deltaSegments_cons fuel previous step pending value next rest hs hn
        by_cases hsegment : 1 ≤ n ∨ segmentStep = step
        · -- the open literal run, then a segment of equal steps
          rw [hequation, if_pos hsegment]
          have hflush := flushLiteral_hold pending step
          have hrest := ih ((next :: rest).getD n next) segmentStep [] (rest.drop n) (by
            rw [length_drop]
            rw [length_cons] at hfuel
            omega)
          have hheld : pending ++ numberDeltas previous (value :: next :: rest) =
              pending ++ numberSub value previous :: segmentStep ::
                ((numberDeltas next rest).take n ++
                  numberDeltas ((next :: rest).getD n next) (rest.drop n)) := by
            rw [numberDeltas, numberDeltas, hs, ← numberDeltas_drop next rest n hle]
          rw [nil_append] at hrest
          rw [hheld]
          obtain ⟨newStep, hnew⟩ :
              ∃ s, (if segmentStep = step then none else some segmentStep) = s := ⟨_, rfl⟩
          rw [hnew]
          have hown : ∀ delta, delta ∈ (DeltaSegment.steps (n + 2)
              (numberSub value previous) newStep).zigzags ↔
              delta = numberSub value previous ∨ newStep = some delta := by
            intro delta
            cases newStep with
            | none => simp [DeltaSegment.zigzags]
            | some s => simp [DeltaSegment.zigzags, eq_comm]
          have hforce : segmentStep = step ∨ newStep = some segmentStep := by
            by_cases heq : segmentStep = step
            · exact .inl heq
            · exact .inr (by rw [← hnew, if_neg heq])
          have hsome : ∀ delta, newStep = some delta → delta = segmentStep := by
            intro delta hdelta
            rw [← hnew] at hdelta
            split at hdelta
            · cases hdelta
            · exact (Option.some.inj hdelta).symm
          constructor
          · intro delta hdelta
            simp only [flatMap_append, flatMap_cons, mem_append, hown] at hdelta
            simp only [mem_append, mem_cons]
            cases hdelta with
            | inl hmem => exact .inl (hflush.zigzag_mem delta hmem)
            | inr hdelta =>
              cases hdelta with
              | inl hseg =>
                exact .inr (hseg.imp_right fun h => .inl (hsome delta h))
              | inr hmem =>
                exact .inr (.inr (.inr (.inr (hrest.zigzag_mem delta hmem))))
          · intro delta hdelta
            simp only [mem_append, mem_cons] at hdelta
            simp only [flatMap_append, flatMap_cons, mem_append, hown]
            -- a value of the step in force
            have hstepCase : delta = segmentStep →
                (delta ∈ (flushLiteral pending).flatMap (·.zigzags) ∨
                  (delta = numberSub value previous ∨ newStep = some delta) ∨
                  delta ∈ (deltaSegments fuel ((next :: rest).getD n next) segmentStep []
                    (rest.drop n)).flatMap (·.zigzags)) ∨ delta = step := by
              intro heq
              cases hforce with
              | inl hsame => exact .inr (heq.trans hsame)
              | inr hsome => exact .inl (.inr (.inl (.inr (by rw [hsome, heq]))))
            cases hdelta with
            | inl hmem => exact (hflush.mem_zigzag delta hmem).imp_left .inl
            | inr hdelta =>
              cases hdelta with
              | inl hfirst => exact .inl (.inr (.inl (.inl hfirst)))
              | inr hdelta =>
                cases hdelta with
                | inl heq => exact hstepCase heq
                | inr hdelta =>
                  cases hdelta with
                  | inl hmem => exact hstepCase (hsteps delta hmem)
                  | inr hmem =>
                    cases hrest.mem_zigzag delta hmem with
                    | inl hzigzag => exact .inl (.inr (.inr hzigzag))
                    | inr heq => exact hstepCase heq
          · intro segment hsegment
            simp only [mem_append, mem_cons] at hsegment
            simp only [length_append, length_cons, length_take,
              length_numberDeltas, length_drop]
            cases hsegment with
            | inl hmem =>
              exact Nat.le_trans (hflush.count_le segment hmem) (Nat.le_add_right _ _)
            | inr hsegment =>
              cases hsegment with
              | inl heq =>
                rw [heq, DeltaSegment.count]
                omega
              | inr hmem =>
                have hcount := hrest.count_le segment hmem
                rw [length_numberDeltas, length_drop] at hcount
                omega
        · rw [hequation, if_neg hsegment]
          exact hpending

theorem succeeds_writeDeltaSegments {values : List Int} (hlength : values.length ≤ egw4MaxEvents) :
    Succeeds (writeDeltaSegments values) ↔ ∀ delta ∈ deltas 0 values, ZigZagRange delta := by
  have hold := deltaSegments_hold values.length 0 0 [] values (Nat.le_refl _)
  rw [nil_append] at hold
  have hcount : ∀ segment ∈ deltaSegments values.length 0 0 [] values,
      segment.count ≤ egw4MaxEvents := by
    intro segment hsegment
    have := hold.count_le segment hsegment
    rw [length_numberDeltas] at this
    exact Nat.le_trans this hlength
  rw [← numberDeltas_range, writeDeltaSegments, succeeds_concat]
  constructor
  · intro h delta hdelta
    cases hold.mem_zigzag delta hdelta with
    | inl hmem =>
      obtain ⟨segment, hsegment, hzigzag⟩ := mem_flatMap.mp hmem
      exact (succeeds_segment (hcount segment hsegment)).mp
        (fun part hpart => h part (mem_flatMap.mpr ⟨segment, hsegment, hpart⟩))
        delta hzigzag
    | inr hzero =>
      rw [hzero]
      exact ⟨by decide, by decide⟩
  · intro h part hpart
    obtain ⟨segment, hsegment, hmem⟩ := mem_flatMap.mp hpart
    exact (succeeds_segment (hcount segment hsegment)).mpr
      (fun delta hdelta => h delta (hold.zigzag_mem delta
        (mem_flatMap.mpr ⟨segment, hsegment, hdelta⟩))) part hmem

end DeltaSegments

end Softmaple.Codec
