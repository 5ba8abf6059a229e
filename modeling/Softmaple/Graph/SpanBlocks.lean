import Softmaple.Lib.Binary64
import Softmaple.Lib.ByteBuffer

/-!
The blocks of a column (`graph/internals/span-column.ts`): `seal` keeps 1,024
values as constant-step spans or as they are, `readBlock` and `readPackedBlock`
read one of them back.
-/

namespace Softmaple.SpanColumn

open List

open Binary64

def blockSize : Nat := 1024

def toUint32 (value : Float) : UInt32 := UInt32.ofNat (truncate value % 2 ^ 32).toNat

def toInt8 (value : Float) : Int8 := Int8.ofInt (truncate value)

def uint32Number (item : UInt32) : Float := number item.toNat

def int8Number (item : Int8) : Float := number item.toInt

inductive DenseBlock where
  | uint32 (items : List UInt32)
  | float64 (items : List Float)

inductive Steps where
  | int8 (items : List Int8)
  | float64 (items : List Float)

inductive NumericArray where
  | uint8 (items : List UInt8)
  | uint32 (items : List UInt32)
  | int32 (items : List Int32)
  | float64 (items : List Float)

def DenseBlock.numbers : DenseBlock → List Float
  | .uint32 items => items.map uint32Number
  | .float64 items => items

def Steps.numbers : Steps → List Float
  | .int8 items => items.map int8Number
  | .float64 items => items

def NumericArray.numbers : NumericArray → List Float
  | .uint8 items => items.map fun item => number item.toNat
  | .uint32 items => items.map uint32Number
  | .int32 items => items.map fun item => number item.toInt
  | .float64 items => items

inductive Block where
  | dense (values : DenseBlock)
  | spans (ends : List UInt16) (values : DenseBlock) (steps : Steps)

/-- `Object.is(value, -0)`; `==` takes the two zeros for equal. -/
def isNegativeZero (value : Float) : Bool := decide (value = negativeZero)

def isNarrow (value : Float) : Bool :=
  isInteger value && !decide (value < number 0) && !decide (number 0xffffffff < value) &&
    !isNegativeZero value

def narrow : NumericArray → Bool
  | .uint8 _ | .uint32 _ => true
  | .int32 items => (NumericArray.int32 items).numbers.all isNarrow
  | .float64 items => items.all isNarrow

def integer : NumericArray → Bool
  | .float64 items => narrow (.float64 items)
  | _ => true

def denseBlock (isNarrow : Bool) (values : List Float) : DenseBlock :=
  if isNarrow then .uint32 (values.map toUint32) else .float64 values

def item (values : List Float) (index : Nat) : Float := values[index]?.getD (number 0)

def breaksSpan (integer : Bool) (first delta value : Float) : Bool :=
  first + delta != value ||
    (!integer && (!Binary64.isSafeInteger delta || !Binary64.isSafeInteger value || isNegativeZero value))

def spanEnd (values : List Float) (integer : Bool) (start : Nat) (first step : Float)
    (finish : Nat) : Nat :=
  if finish < blockSize then
    if breaksSpan integer first (number ((finish : Int) - start) * step) (item values finish) then
      finish
    else spanEnd values integer start first step (finish + 1)
  else finish
termination_by blockSize - finish

structure Span where
  finish : Nat
  anchor : Float
  step : Float

theorem le_spanEnd (values : List Float) (integer : Bool) (start : Nat) (first step : Float)
    (finish : Nat) : finish ≤ spanEnd values integer start first step finish := by
  fun_induction spanEnd values integer start first step finish with
  | case1 => exact le_rfl
  | case2 finish hlt hnext ih => exact Nat.le_of_succ_le ih
  | case3 => exact le_rfl

def stepAt (values : List Float) (start : Nat) : Float :=
  if start + 1 < blockSize then item values (start + 1) - item values start else number 0

def unsafeSpan (integer : Bool) (first step : Float) : Bool :=
  !integer && (!Binary64.isSafeInteger first || isNegativeZero first || !Binary64.isSafeInteger step)

def isNarrowStep (step : Float) : Bool :=
  !(decide (step < number (-128)) || decide (number 127 < step))

def sealFrom (values : List Float) (integer isNarrow : Bool) (start : Nat) (spans : List Span)
    (narrowSteps : Bool) : Block :=
  if start < blockSize then
    let first := item values start
    let step := stepAt values start
    if unsafeSpan integer first step then .dense (denseBlock isNarrow values)
    else
      let finish := spanEnd values integer start first step (start + 1)
      let spans := spans ++ [⟨finish, first, step⟩]
      let narrowSteps := narrowSteps && isNarrowStep step
      -- the typed-array headers count before a span block is chosen
      if blockSize * (if isNarrow then 4 else 8) ≤
          spans.length * (2 + (if isNarrow then 4 else 8) + (if narrowSteps then 1 else 8)) + 192
      then .dense (denseBlock isNarrow values)
      else sealFrom values integer isNarrow finish spans narrowSteps
  else
    .spans (spans.map fun span => UInt16.ofNat span.finish)
      (denseBlock isNarrow (spans.map Span.anchor))
      (if narrowSteps then .int8 (spans.map fun span => toInt8 span.step)
        else .float64 (spans.map Span.step))
termination_by blockSize - start
decreasing_by
  have := le_spanEnd values integer start (item values start) (stepAt values start) (start + 1)
  omega

def «seal» (values : NumericArray) : Block :=
  sealFrom values.numbers (integer values) (narrow values) 0 [] true

structure SpanCursor where
  start : Nat
  finish : Nat
  value : Float
  step : Float

def SpanCursor.read (cursor : SpanCursor) (index : Nat) : Float :=
  cursor.value + number ((index : Int) - cursor.start) * cursor.step

def searchSpan (endAt : Nat → Option Nat) (offset low high : Nat) : Option Nat :=
  if low < high then
    (endAt ((low + high) / 2)).bind fun finish =>
      if offset < finish then searchSpan endAt offset low ((low + high) / 2)
      else searchSpan endAt offset ((low + high) / 2 + 1) high
  else some low
termination_by high - low

def startAt (endAt : Nat → Option Nat) (low : Nat) : Option Nat :=
  if low = 0 then some 0 else endAt (low - 1)

def readSpans (endAt : Nat → Option Nat) (valueAt stepAt : Nat → Option Float) (count : Nat)
    (offset origin : Nat) : Option (Float × SpanCursor) := do
  let low ← searchSpan endAt offset 0 (count - 1)
  let start ← startAt endAt low
  let finish ← endAt low
  let value ← valueAt low
  let step ← stepAt low
  some (value + number ((offset : Int) - start) * step,
    ⟨origin + start, origin + finish, value, step⟩)

def readBlock (block : Block) (offset : Nat) (cursor : SpanCursor) (origin : Nat) :
    Option (Float × SpanCursor) :=
  match block with
  | .dense values => values.numbers[offset]?.map fun value => (value, cursor)
  | .spans ends values steps =>
    readSpans (fun i => ends[i]?.map UInt16.toNat) (fun i => values.numbers[i]?)
      (fun i => steps.numbers[i]?) ends.length offset origin

section
variable (littleEndian : Bool)

open ByteBuffer

def uint32Bytes (item : UInt32) : List UInt8 := encode littleEndian 4 item.toNat

def float64Bytes (item : Float) : List UInt8 := encode littleEndian 8 item.toBits.toNat

def int8Bytes (item : Int8) : List UInt8 := [item.toUInt8]

def uint16Bytes (item : UInt16) : List UInt8 := encode littleEndian 2 item.toNat

def DenseBlock.bytes : DenseBlock → List UInt8
  | .uint32 items => items.flatMap (uint32Bytes littleEndian)
  | .float64 items => items.flatMap (float64Bytes littleEndian)

def Steps.bytes : Steps → List UInt8
  | .int8 items => items.flatMap int8Bytes
  | .float64 items => items.flatMap (float64Bytes littleEndian)

def DenseBlock.wide : DenseBlock → Bool
  | .uint32 _ => false
  | .float64 _ => true

def Steps.wide : Steps → Bool
  | .int8 _ => false
  | .float64 _ => true

def Block.packed : Block → List UInt8
  | .dense values => (if values.wide then 1 else 0) :: values.bytes littleEndian
  | .spans ends values steps =>
    (2 ||| (if values.wide then 4 else 0) ||| (if steps.wide then 8 else 0)) ::
      (encode true 2 ends.length ++ (ends.flatMap (uint16Bytes littleEndian) ++
        (values.bytes littleEndian ++ steps.bytes littleEndian)))

def getUint32 (data : List UInt8) (place : Nat) : Option Float :=
  (get littleEndian data place 4).map fun item => number item

def getFloat64 (data : List UInt8) (place : Nat) : Option Float :=
  (get littleEndian data place 8).map fun item => Float.ofBits (UInt64.ofNat item)

def getInt8 (data : List UInt8) (place : Nat) : Option Float :=
  data[place]?.map fun byte => number byte.toInt8.toInt

def readPackedBlock (data : List UInt8) (start offset : Nat) (cursor : SpanCursor)
    (origin : Nat) : Option (Float × SpanCursor) := do
  let kind ← data[start]?
  let start := start + 1
  if kind = 0 then (getUint32 littleEndian data (start + offset * 4)).map (·, cursor)
  else if kind = 1 then (getFloat64 littleEndian data (start + offset * 8)).map (·, cursor)
  else
    let count ← get true data start 2
    let start := start + 2
    let wide := kind &&& 4 ≠ 0
    let width := if wide then 8 else 4
    let anchors := start + count * 2
    let steps := anchors + count * width
    readSpans (fun i => get littleEndian data (start + i * 2) 2)
      (fun i => if wide then getFloat64 littleEndian data (anchors + i * width)
        else getUint32 littleEndian data (anchors + i * width))
      (fun i => if kind &&& 8 ≠ 0 then getFloat64 littleEndian data (steps + i * 8)
        else getInt8 data (steps + i))
      count offset origin

end

def Span.Holds (values : List Float) (start : Nat) (span : Span) : Prop :=
  start < span.finish ∧ span.finish ≤ values.length ∧ ∀ index, start ≤ index → index < span.finish →
      values[index]? = some (span.anchor + number ((index : Int) - start) * span.step)

def Tiles (values : List Float) : Nat → List Span → Nat → Prop
  | start, [], stop => start = stop
  | start, span :: rest, stop => span.Holds values start ∧ Tiles values span.finish rest stop

/-- The block holds the values. -/
def Represents : Block → List Float → Prop
  | .dense block, values => block.numbers = values
  | .spans ends block steps, values => ∃ spans : List Span,
      Tiles values 0 spans values.length ∧ ends.map UInt16.toNat = spans.map Span.finish ∧
        block.numbers = spans.map Span.anchor ∧ steps.numbers = spans.map Span.step

variable {values : List Float} {start : Nat} {spans : List Span}

theorem Tiles.concat {middle stop : Nat}
    {span : Span} (h : Tiles values start spans middle) (hspan : span.Holds values middle)
    (hstop : span.finish = stop) : Tiles values start (spans ++ [span]) stop := by
  induction spans generalizing start with
  | nil =>
    obtain rfl : start = middle := h
    exact ⟨hspan, hstop⟩
  | cons first rest ih => exact ⟨h.1, ih h.2⟩

section

variable {stop : Nat} (h : Tiles values start spans stop)
include h

theorem Tiles.map {change : Span → Span} (hfinish : ∀ span, (change span).finish = span.finish)
    (hholds : ∀ span ∈ spans, ∀ start, span.Holds values start → (change span).Holds values start) :
    Tiles values start (spans.map change) stop := by
  induction spans generalizing start with
  | nil => exact h
  | cons span rest ih =>
    refine ⟨hholds span (.head rest) start h.1, ?_⟩
    rw [hfinish]
    exact ih h.2 fun later hlater => hholds later (.tail span hlater)

theorem Tiles.le : start + spans.length ≤ stop := by
  induction spans generalizing start with
  | nil => exact Nat.le_of_eq h
  | cons span rest ih =>
    have hrest := ih h.2
    have hspan := h.1.1
    rw [length_cons]
    omega

theorem Tiles.finish_le {span : Span} (hspan : span ∈ spans) : span.finish ≤ values.length := by
  induction spans generalizing start with
  | nil => cases hspan
  | cons first rest ih =>
    cases hspan with
    | head => exact h.1.2.1
    | tail _ hrest => exact ih h.2 hrest

def startOf (start : Nat) (spans : List Span) (place : Nat) : Nat :=
  if place = 0 then start else (spans[place - 1]?.map Span.finish).getD start

theorem Tiles.holds {place : Nat} (hplace : place < spans.length) :
    spans[place].Holds values (startOf start spans place) := by
  induction spans generalizing start place with
  | nil => cases hplace
  | cons span rest ih =>
    cases place with
    | zero => exact h.1
    | succ place =>
      have hrest := ih h.2 (show place < rest.length by simpa using hplace)
      have hstart : startOf start (span :: rest) (place + 1) =
          startOf span.finish rest place := by
        cases place with
        | zero => rfl
        | succ place =>
          have hlt : place < rest.length := by
            simp only [length_cons] at hplace
            omega
          simp [startOf, getElem?_eq_getElem hlt]
      rw [hstart]
      exact hrest

theorem Tiles.last (hne : 0 < spans.length) : (spans[spans.length - 1]).finish = stop := by
  induction spans generalizing start with
  | nil => cases hne
  | cons span rest ih =>
    cases rest with
    | nil => exact h.2
    | cons next rest => exact ih h.2 (by simp)

end

theorem number_small (n : Nat) (h : n < 2 ^ 32) : ((n : Int)).natAbs < 2 ^ 53 := by omega

theorem uint32Number_toUint32 {n : Nat} (h : n < 2 ^ 32) :
    uint32Number (toUint32 (number n)) = number n := by
  have hitem : (toUint32 (number n)).toNat = n := by
    rw [toUint32, truncate_number (number_small n h), UInt32.toNat_ofNat']
    omega
  rw [uint32Number, hitem]

theorem isNarrow_spec {value : Float} (h : isNarrow value = true) :
    ∃ n : Nat, n < 2 ^ 32 ∧ value = number n := by
  simp only [isNarrow, isNegativeZero, Bool.and_eq_true, Bool.not_eq_true',
    decide_eq_false_iff_not] at h
  obtain ⟨⟨⟨hinteger, hlow⟩, hhigh⟩, hsign⟩ := h
  have hfinite : value.isFinite = true := by
    simp only [isInteger, Bool.and_eq_true] at hinteger
    exact hinteger.1
  have hunits := unitsOf_eq hinteger
  rw [lt_iff_units hfinite (isFinite_number (by decide)), unitsOf_number (by decide), hunits,
    Int.mul_lt_mul_right Binary64.one_pos] at hlow
  rw [lt_iff_units (isFinite_number (by decide)) hfinite, unitsOf_number (by decide), hunits,
    Int.mul_lt_mul_right Binary64.one_pos] at hhigh
  have hcast : ((truncate value).toNat : Int) = truncate value := by omega
  refine ⟨(truncate value).toNat, by omega, ?_⟩
  rw [hcast]
  exact eq_number hinteger (by omega) hsign

theorem integer_spec {values : NumericArray} (h : integer values = true) {value : Float}
    (hvalue : value ∈ values.numbers) : ∃ n : Int, n.natAbs < 2 ^ 32 ∧ value = number n := by
  cases values with
  | uint8 items =>
    obtain ⟨item, -, rfl⟩ := mem_map.mp hvalue
    have := item.toNat_lt
    exact ⟨item.toNat, by omega, rfl⟩
  | uint32 items =>
    obtain ⟨item, -, rfl⟩ := mem_map.mp hvalue
    have := item.toNat_lt
    exact ⟨item.toNat, by omega, rfl⟩
  | int32 items =>
    obtain ⟨item, -, rfl⟩ := mem_map.mp hvalue
    have := item.le_toInt
    have := item.toInt_lt
    exact ⟨item.toInt, by omega, rfl⟩
  | float64 items =>
    obtain ⟨n, hn, rfl⟩ := isNarrow_spec (all_eq_true.mp h value hvalue)
    exact ⟨n, by omega, rfl⟩

theorem narrow_spec {values : NumericArray} (h : narrow values = true) {value : Float}
    (hvalue : value ∈ values.numbers) : uint32Number (toUint32 value) = value := by
  have hnumber : ∃ n : Nat, n < 2 ^ 32 ∧ value = number n := by
    cases values with
    | uint8 items =>
      obtain ⟨item, -, rfl⟩ := mem_map.mp hvalue
      have := item.toNat_lt
      exact ⟨item.toNat, by omega, rfl⟩
    | uint32 items =>
      obtain ⟨item, -, rfl⟩ := mem_map.mp hvalue
      exact ⟨item.toNat, item.toNat_lt, rfl⟩
    | int32 items => exact isNarrow_spec (all_eq_true.mp h value hvalue)
    | float64 items => exact isNarrow_spec (all_eq_true.mp h value hvalue)
  obtain ⟨n, hn, rfl⟩ := hnumber
  exact uint32Number_toUint32 hn

theorem denseBlock_numbers {isNarrow : Bool}
    (h : isNarrow = true → ∀ value ∈ values, uint32Number (toUint32 value) = value) :
    (denseBlock isNarrow values).numbers = values := by
  cases isNarrow with
  | false => rfl
  | true =>
    change (values.map toUint32).map uint32Number = values
    rw [map_map]
    exact (map_congr_left fun value hvalue => h rfl value hvalue).trans (map_id _)

/-- The step as it is read back. -/
def Span.stored (narrowSteps : Bool) (span : Span) : Span :=
  if narrowSteps then { span with step := int8Number (toInt8 span.step) } else span

/-- A span that can be kept in either width. -/
structure Span.Sound (span : Span) : Prop where
  anchor : span.anchor ≠ negativeZero
  step : isInteger span.step = true

theorem isFinite_of_isInteger {value : Float} (h : isInteger value = true) :
    value.isFinite = true := by
  simp only [isInteger, Bool.and_eq_true] at h
  exact h.1

theorem isNarrowStep_spec {step : Float} (hinteger : isInteger step = true)
    (h : isNarrowStep step = true) : -128 ≤ truncate step ∧ truncate step ≤ 127 := by
  have hfinite := isFinite_of_isInteger hinteger
  simp only [isNarrowStep, Bool.not_eq_true', Bool.or_eq_false_iff, decide_eq_false_iff_not] at h
  obtain ⟨hlow, hhigh⟩ := h
  rw [lt_iff_units hfinite (isFinite_number (by decide)), unitsOf_number (by decide),
    unitsOf_eq hinteger, Int.mul_lt_mul_right Binary64.one_pos] at hlow
  rw [lt_iff_units (isFinite_number (by decide)) hfinite, unitsOf_number (by decide),
    unitsOf_eq hinteger, Int.mul_lt_mul_right Binary64.one_pos] at hhigh
  omega

theorem int8Number_toInt8 {step : Float} (hinteger : isInteger step = true)
    (h : isNarrowStep step = true) :
    int8Number (toInt8 step) = step ∨ step = negativeZero := by
  obtain ⟨hlow, hhigh⟩ := isNarrowStep_spec hinteger h
  have hitem : (toInt8 step).toInt = truncate step := by
    exact Int8.toInt_ofInt_of_le hlow (by omega)
  by_cases hsign : step = negativeZero
  · exact Or.inr hsign
  · left
    rw [int8Number, hitem]
    exact (eq_number hinteger (by omega) hsign).symm

theorem Span.Holds.stored {span : Span} {narrowSteps : Bool}
    (hlength : values.length = blockSize) (hsound : span.Sound)
    (hnarrow : narrowSteps = true → isNarrowStep span.step = true)
    (h : span.Holds values start) : (span.stored narrowSteps).Holds values start := by
  cases narrowSteps with
  | false => exact h
  | true =>
    obtain ⟨hstart, hfinish, hread⟩ := h
    refine ⟨hstart, hfinish, fun index hlow hhigh => ?_⟩
    refine (hread index hlow hhigh).trans (congrArg some ?_)
    obtain hsame | hzero := int8Number_toInt8 hsound.step (hnarrow rfl)
    · change _ = span.anchor + _ * int8Number (toInt8 span.step)
      rw [hsame]
    · have hitem : int8Number (toInt8 span.step) = number 0 := by
        rw [hzero]; decide +kernel
      have hcount : (number ((index : Int) - start)).isFinite = true := by
        have hhigh : index < span.finish := hhigh
        unfold blockSize at hlength
        exact isFinite_number (by omega)
      change _ = span.anchor + _ * int8Number (toInt8 span.step)
      rw [hitem, hzero, add_mul_zero hsound.anchor hcount (.inl rfl),
        add_mul_zero hsound.anchor hcount (.inr rfl)]

theorem spanEnd_le (values : List Float) (integer : Bool) (start : Nat) (first step : Float)
    {finish : Nat} (h : finish ≤ blockSize) :
    spanEnd values integer start first step finish ≤ blockSize := by
  fun_induction spanEnd values integer start first step finish with
  | case1 => exact h
  | case2 finish hlt hnext ih => exact ih hlt
  | case3 => exact h

theorem spanEnd_spec (values : List Float) (integer : Bool) (start : Nat) (first step : Float)
    (finish : Nat) {index : Nat} (hlow : finish ≤ index)
    (hhigh : index < spanEnd values integer start first step finish) :
    breaksSpan integer first (number ((index : Int) - start) * step) (item values index) =
      false := by
  fun_induction spanEnd values integer start first step finish with
  | case1 => omega
  | case2 finish hlt hnext ih =>
    by_cases hhere : index = finish
    · subst hhere
      exact Bool.not_eq_true _ ▸ hnext
    · exact ih (by omega) hhigh
  | case3 => omega

theorem item_eq {index : Nat} (h : index < values.length) :
    values[index]? = some (item values index) ∧ item values index ∈ values := by
  have hget : values[index]? = some values[index] := getElem?_eq_getElem h
  have hitem : item values index = values[index] := by rw [item, hget, Option.getD_some]
  rw [hitem]
  exact ⟨hget, getElem_mem h⟩

theorem span_sound {integer : Bool} (hlength : values.length = blockSize) (hstart : start < blockSize)
    (hinteger : integer = true → ∀ value ∈ values, ∃ n : Int, n.natAbs < 2 ^ 32 ∧ value = number n)
    (hsafe : unsafeSpan integer (item values start) (stepAt values start) = false) :
    (⟨start, item values start, stepAt values start⟩ : Span).Sound := by
  cases integer with
  | false =>
    simp only [unsafeSpan, isNegativeZero, Bool.not_false, Bool.true_and,
      Bool.or_eq_false_iff, Bool.not_eq_false', decide_eq_false_iff_not] at hsafe
    obtain ⟨⟨-, hanchor⟩, hstep⟩ := hsafe
    simp only [Binary64.isSafeInteger, Bool.and_eq_true] at hstep
    exact ⟨hanchor, hstep.1⟩
  | true =>
    obtain ⟨a, ha, hfirst⟩ := hinteger rfl _ (item_eq (hlength ▸ hstart)).2
    have hint {n : Int} (hn : n.natAbs < 2 ^ 53) : isInteger (number n) = true := by
      have hnumber := isSafeInteger_number hn
      simp only [Binary64.isSafeInteger, Bool.and_eq_true] at hnumber
      exact hnumber.1
    refine ⟨?_, ?_⟩
    · rw [hfirst]
      exact number_ne_negativeZero (by omega)
    · change isInteger (stepAt values start) = true
      unfold stepAt
      split
      · rename_i hnext
        obtain ⟨b, hb, hsecond⟩ := hinteger rfl _ (item_eq (hlength ▸ hnext)).2
        rw [hfirst, hsecond, sub_number (by omega) (by omega) (by omega)]
        exact hint (by omega)
      · exact hint (by decide)

theorem span_holds {integer : Bool} (hlength : values.length = blockSize) (hstart : start < blockSize)
    (hinteger : integer = true → ∀ value ∈ values, ∃ n : Int, n.natAbs < 2 ^ 32 ∧ value = number n)
    (hsafe : unsafeSpan integer (item values start) (stepAt values start) = false) :
    (⟨spanEnd values integer start (item values start) (stepAt values start) (start + 1),
      item values start, stepAt values start⟩ : Span).Holds values start := by
  obtain ⟨hanchor, hstep⟩ := span_sound hlength hstart hinteger hsafe
  have hfinish := spanEnd_le values integer start (item values start) (stepAt values start)
    (show start + 1 ≤ blockSize from hstart)
  refine ⟨le_spanEnd .., hlength ▸ hfinish, fun index hlow hhigh => ?_⟩
  change index < spanEnd .. at hhigh
  change _ = some (item values start + number ((index : Int) - start) * stepAt values start)
  obtain ⟨hget, hmem⟩ := item_eq (show index < values.length by omega)
  rw [hget]
  refine congrArg some ?_
  by_cases hfirst : index = start
  · subst hfirst
    rw [sub_self, add_zero_mul hanchor (isFinite_of_isInteger hstep)]
  · have hcheck := spanEnd_spec values integer start (item values start) (stepAt values start)
      (start + 1) (show start + 1 ≤ index by omega) hhigh
    simp only [breaksSpan, bne, Bool.or_eq_false_iff, Bool.not_eq_false'] at hcheck
    obtain ⟨hequal, hexact⟩ := hcheck
    have hvalue : item values index ≠ negativeZero := by
      cases integer with
      | false =>
        simp only [isNegativeZero, Bool.not_false, Bool.true_and, Bool.or_eq_false_iff,
          decide_eq_false_iff_not] at hexact
        exact hexact.2
      | true =>
        obtain ⟨n, hn, hnumber⟩ := hinteger rfl _ hmem
        rw [hnumber]
        exact number_ne_negativeZero (by omega)
    exact (eq_of_beq hequal (add_ne_negativeZero hanchor _) hvalue).symm

theorem sealFrom_represents {integer isNarrow : Bool} (hlength : values.length = blockSize)
    (hinteger : integer = true → ∀ value ∈ values, ∃ n : Int, n.natAbs < 2 ^ 32 ∧ value = number n)
    (hnarrow : isNarrow = true → ∀ value ∈ values, uint32Number (toUint32 value) = value)
    {narrowSteps : Bool} (hstart : start ≤ blockSize)
    (htiles : Tiles values 0 spans start) (hsound : ∀ span ∈ spans, span.Sound)
    (hanchors : ∀ span ∈ spans, span.anchor ∈ values)
    (hsteps : narrowSteps = true → ∀ span ∈ spans, isNarrowStep span.step = true) :
    Represents (sealFrom values integer isNarrow start spans narrowSteps) values := by
  fun_induction sealFrom values integer isNarrow start spans narrowSteps with
  | case1 => exact denseBlock_numbers hnarrow
  | case2 => exact denseBlock_numbers hnarrow
  | case3 start spans narrowSteps hlt first step hunsafe finish spans' narrowSteps' hsize ih =>
    have hsafe : unsafeSpan integer (item values start) (stepAt values start) = false := by
      simpa using hunsafe
    have hnew := span_holds hlength hlt hinteger hsafe
    obtain ⟨hanchor, hstep⟩ := span_sound hlength hlt hinteger hsafe
    refine ih (spanEnd_le _ _ _ _ _ hlt) (htiles.concat hnew rfl) ?_ ?_ ?_
    · intro span hspan
      obtain hold | rfl := mem_append.mp hspan |>.imp_right mem_singleton.mp
      · exact hsound span hold
      · exact ⟨hanchor, hstep⟩
    · intro span hspan
      obtain hold | rfl := mem_append.mp hspan |>.imp_right mem_singleton.mp
      · exact hanchors span hold
      · exact (item_eq (hlength ▸ hlt)).2
    · intro hkept span hspan
      obtain ⟨hbefore, hhere⟩ := Bool.and_eq_true_iff.mp hkept
      obtain hold | rfl := mem_append.mp hspan |>.imp_right mem_singleton.mp
      · exact hsteps hbefore span hold
      · exact hhere
  | case4 start spans narrowSteps hlt =>
    have hend : start = values.length := by omega
    subst hend
    have htiles' : Tiles values 0 (spans.map (Span.stored narrowSteps)) values.length := by
      refine htiles.map (fun span => by cases narrowSteps <;> rfl) fun span hspan start h => ?_
      exact h.stored hlength (hsound span hspan) fun hkept => hsteps hkept span hspan
    refine ⟨_, htiles', ?_, ?_, ?_⟩
    · rw [map_map, map_map]
      refine map_congr_left fun span hspan => ?_
      have hfinish : span.finish < 2 ^ 16 := by
        have := htiles.finish_le hspan
        unfold blockSize at hlength
        omega
      have hstored : (span.stored narrowSteps).finish = span.finish := by
        cases narrowSteps <;> rfl
      change (UInt16.ofNat span.finish).toNat = (span.stored narrowSteps).finish
      rw [UInt16.toNat_ofNat', Nat.mod_eq_of_lt hfinish, hstored]
    · have hvalues : (spans.map (Span.stored narrowSteps)).map Span.anchor =
          spans.map Span.anchor := by
        rw [map_map]
        exact map_congr_left fun span _ => by cases narrowSteps <;> rfl
      rw [hvalues]
      refine denseBlock_numbers fun hkept value hvalue => ?_
      obtain ⟨span, hspan, rfl⟩ := mem_map.mp hvalue
      exact hnarrow hkept _ (hanchors span hspan)
    · rw [map_map]
      cases narrowSteps with
      | false => rfl
      | true => exact map_map ..

theorem seal_represents {values : NumericArray} (h : values.numbers.length = blockSize) :
    Represents («seal» values) values.numbers :=
  sealFrom_represents h (fun hinteger _ hvalue => integer_spec hinteger hvalue)
    (fun hnarrow _ hvalue => narrow_spec hnarrow hvalue) (Nat.zero_le _) rfl nofun nofun nofun

structure SpanCursor.Covers (cursor : SpanCursor) (origin : Nat) (values : List Float) : Prop where
  start : origin ≤ cursor.start
  finish : cursor.finish ≤ origin + values.length
  reads : ∀ index, cursor.start ≤ index → index < cursor.finish →
    values[index - origin]? = some (cursor.read index)

def Reads (read : Nat → SpanCursor → Nat → Option (Float × SpanCursor))
    (values : List Float) : Prop :=
  ∀ offset cursor origin, offset < values.length → ∃ value cursor',
    read offset cursor origin = some (value, cursor') ∧ values[offset]? = some value ∧
      (cursor' = cursor ∨ cursor'.Covers origin values)

theorem searchSpan_spec {endAt : Nat → Option Nat} {ends : List Nat} {offset low high : Nat}
    (hends : ∀ i < ends.length, endAt i = ends[i]?) (hle : low ≤ high) (hhigh : high < ends.length)
    (hbefore : low = 0 ∨ ∃ finish, ends[low - 1]? = some finish ∧ finish ≤ offset)
    (hafter : offset < ends[high]) :
    ∃ place, ∃ h : place < ends.length, searchSpan endAt offset low high = some place ∧
      offset < ends[place] ∧
        (place = 0 ∨ ∃ finish, ends[place - 1]? = some finish ∧ finish ≤ offset) := by
  induction hgap : high - low using Nat.strong_induction_on generalizing low high with
  | _ gap ih =>
    unfold searchSpan
    by_cases hlt : low < high
    · have hmiddle : (low + high) / 2 < ends.length := by omega
      rw [if_pos hlt, hends _ hmiddle, getElem?_eq_getElem hmiddle, Option.bind_some]
      by_cases hoffset : offset < ends[(low + high) / 2]
      · rw [if_pos hoffset]
        exact ih _ (by omega) (by omega) hmiddle hbefore hoffset rfl
      · rw [if_neg hoffset]
        refine ih _ (by omega) (by omega) hhigh (Or.inr ⟨_, ?_, not_lt.mp hoffset⟩) hafter rfl
        rw [Nat.add_sub_cancel, getElem?_eq_getElem hmiddle]
    · rw [if_neg hlt]
      obtain rfl : low = high := by omega
      exact ⟨low, hhigh, rfl, hafter, hbefore⟩

theorem readSpans_reads (endAt : Nat → Option Nat) (valueAt stepAt : Nat → Option Float)
    (htiles : Tiles values 0 spans values.length)
    (hends : ∀ i < spans.length, endAt i = (spans[i]?).map Span.finish)
    (hvalues : ∀ i < spans.length, valueAt i = (spans[i]?).map Span.anchor)
    (hsteps : ∀ i < spans.length, stepAt i = (spans[i]?).map Span.step) :
    Reads (fun offset _ origin => readSpans endAt valueAt stepAt spans.length offset origin)
      values := by
  intro offset cursor origin hoffset
  have hspans : 0 < spans.length := by
    cases spans with
    | nil =>
      have : 0 = values.length := htiles
      omega
    | cons span rest => exact Nat.succ_pos _
  have hlast := htiles.last hspans
  have hlength : (spans.map Span.finish).length = spans.length := length_map ..
  obtain ⟨place, hplace, hsearch, hafter, hbefore⟩ :=
    @searchSpan_spec endAt (spans.map Span.finish) offset 0 (spans.length - 1)
      (fun i hi => by rw [hends i (by omega), getElem?_map]) (Nat.zero_le _) (by omega)
      (Or.inl rfl) (by rw [getElem_map, hlast]; exact hoffset)
  have hplace' : place < spans.length := by omega
  rw [getElem_map] at hafter
  obtain ⟨hstart, hfinish, hread⟩ := htiles.holds hplace'
  have hfirst : startAt endAt place = some (startOf 0 spans place) := by
    unfold startAt startOf
    split
    · rfl
    · have hprevious : place - 1 < spans.length := by omega
      rw [hends _ hprevious, getElem?_eq_getElem hprevious]
      rfl
  have hlow : startOf 0 spans place ≤ offset := by
    unfold startOf
    obtain hzero | ⟨finish, hprevious, hle⟩ := hbefore
    · rw [if_pos hzero]
      exact Nat.zero_le _
    · split
      · exact Nat.zero_le _
      · rw [getElem?_map] at hprevious
        rw [hprevious]
        exact hle
  refine ⟨_, ⟨origin + startOf 0 spans place, origin + spans[place].finish, spans[place].anchor,
    spans[place].step⟩, ?_, hread offset hlow hafter, Or.inr ⟨?_, ?_, ?_⟩⟩
  · simp only [readSpans, hsearch, Option.bind_eq_bind, Option.bind_some, hfirst,
      hends _ hplace', hvalues _ hplace', hsteps _ hplace', getElem?_eq_getElem hplace',
      Option.map_some]
  · exact Nat.le_add_right _ _
  · exact Nat.add_le_add_left hfinish _
  · intro index hindex hindex'
    change origin + startOf 0 spans place ≤ index at hindex
    change index < origin + spans[place].finish at hindex'
    have hcast : (index : Int) - ((origin + startOf 0 spans place : Nat) : Int) =
        ((index - origin : Nat) : Int) - startOf 0 spans place := by omega
    rw [hread (index - origin) (by omega) (by omega), SpanCursor.read, hcast]

theorem readBlock_reads {block : Block} (h : Represents block values) :
    Reads (readBlock block) values := by
  cases block with
  | dense items =>
    obtain rfl : items.numbers = values := h
    intro offset cursor origin hoffset
    refine ⟨items.numbers[offset], cursor, ?_, getElem?_eq_getElem hoffset, Or.inl rfl⟩
    simp [readBlock, getElem?_eq_getElem hoffset]
  | spans ends items steps =>
    obtain ⟨spans, htiles, hends, hvalues, hsteps⟩ := h
    have hcount : ends.length = spans.length := by
      simpa using congrArg List.length hends
    intro offset cursor origin hoffset
    have hread := readSpans_reads (fun i => ends[i]?.map UInt16.toNat)
      (fun i => items.numbers[i]?) (fun i => steps.numbers[i]?) htiles
      (fun i _ => by rw [← getElem?_map, hends, getElem?_map])
      (fun i _ => by rw [hvalues, getElem?_map])
      (fun i _ => by rw [hsteps, getElem?_map]) offset cursor origin hoffset
    rw [← hcount] at hread
    exact hread

section
variable {littleEndian : Bool} {data : List UInt8}

open ByteBuffer

theorem length_uint32Bytes (item : UInt32) : (uint32Bytes littleEndian item).length = 4 :=
  length_encode ..

theorem length_float64Bytes (item : Float) : (float64Bytes littleEndian item).length = 8 :=
  length_encode ..

theorem length_uint16Bytes (item : UInt16) : (uint16Bytes littleEndian item).length = 2 :=
  length_encode ..

theorem getUint32_held {place : Nat} {item : UInt32}
    (h : Holds data place (uint32Bytes littleEndian item)) :
    getUint32 littleEndian data place = some (uint32Number item) := by
  rw [getUint32, h.get (by have := item.toNat_lt; omega)]
  rfl

theorem ofBits_toBits (item : Float) : Float.ofBits item.toBits = item :=
  congrArg Float.ofModel (pack_unpack item.toModel)

theorem getFloat64_held {place : Nat} {item : Float}
    (h : Holds data place (float64Bytes littleEndian item)) :
    getFloat64 littleEndian data place = some item := by
  rw [getFloat64, h.get (by have := item.toBits.toNat_lt; omega)]
  change some (Float.ofBits (UInt64.ofNat item.toBits.toNat)) = some item
  rw [UInt64.ofNat_toNat, ofBits_toBits]

theorem getInt8_held {place : Nat} {item : Int8} (h : Holds data place (int8Bytes item)) :
    getInt8 data place = some (int8Number item) := by
  obtain ⟨before, after, rfl, rfl⟩ := h
  have hbyte : (before ++ int8Bytes item ++ after)[before.length]? = some item.toUInt8 := by
    simp [int8Bytes]
  rw [getInt8, hbyte]
  rfl

theorem DenseBlock.read_held {values : DenseBlock} {place i : Nat}
    (h : Holds data place (values.bytes littleEndian)) (hi : i < values.numbers.length) :
    (if values.wide then getFloat64 littleEndian data (place + i * 8)
      else getUint32 littleEndian data (place + i * 4)) = values.numbers[i]? := by
  rw [getElem?_eq_getElem hi]
  cases values with
  | uint32 items =>
    have hitem := h.item length_uint32Bytes (i := i) (by simpa [DenseBlock.numbers] using hi)
    simpa [DenseBlock.wide, DenseBlock.numbers] using getUint32_held hitem
  | float64 items => exact getFloat64_held (h.item length_float64Bytes hi)

theorem Steps.read_held {steps : Steps} {place i : Nat}
    (h : Holds data place (steps.bytes littleEndian)) (hi : i < steps.numbers.length) :
    (if steps.wide then getFloat64 littleEndian data (place + i * 8)
      else getInt8 data (place + i)) = steps.numbers[i]? := by
  rw [getElem?_eq_getElem hi]
  cases steps with
  | int8 items =>
    have hwidth : ∀ item, (int8Bytes item).length = 1 := fun _ => rfl
    have hitem := h.item hwidth (i := i) (by simpa [Steps.numbers] using hi)
    rw [Nat.mul_one] at hitem
    simpa [Steps.wide, Steps.numbers] using getInt8_held hitem
  | float64 items => exact getFloat64_held (h.item length_float64Bytes hi)

theorem DenseBlock.length_bytes (values : DenseBlock) : (values.bytes littleEndian).length =
      values.numbers.length * (if values.wide then 8 else 4) := by
  cases values with
  | uint32 items =>
    simpa [DenseBlock.numbers, DenseBlock.wide, DenseBlock.bytes] using
      @length_flatMap_width 4 _ (uint32Bytes littleEndian) length_uint32Bytes items
  | float64 items => exact length_flatMap_width length_float64Bytes items

/-- The kind byte of a span block tells how its columns are kept. -/
theorem kind_spec (wideValues wideSteps : Bool) :
    let kind : UInt8 := 2 ||| (if wideValues then 4 else 0) ||| (if wideSteps then 8 else 0)
    kind ≠ 0 ∧ kind ≠ 1 ∧ (kind &&& 4 ≠ 0 ↔ wideValues = true) ∧
      (kind &&& 8 ≠ 0 ↔ wideSteps = true) := by
  cases wideValues <;> cases wideSteps <;> decide

theorem readPackedBlock_reads {block : Block} {values : List Float} {start : Nat}
    (h : Represents block values) (hlength : values.length ≤ blockSize)
    (hheld : Holds data start (block.packed littleEndian)) :
    Reads (readPackedBlock littleEndian data start) values := by
  cases block with
  | dense items =>
    obtain rfl : items.numbers = values := h
    intro offset cursor origin hoffset
    obtain ⟨hkind, hitems⟩ := hheld.head
    have hread := items.read_held hitems hoffset
    refine ⟨items.numbers[offset], cursor, ?_, getElem?_eq_getElem hoffset, Or.inl rfl⟩
    rw [getElem?_eq_getElem hoffset] at hread
    cases items with
    | uint32 items =>
      change getUint32 littleEndian data (start + 1 + offset * 4) = _ at hread
      rw [readPackedBlock, hkind]
      change (getUint32 littleEndian data (start + 1 + offset * 4)).map (·, cursor) = _
      rw [hread]
      rfl
    | float64 items =>
      change getFloat64 littleEndian data (start + 1 + offset * 8) = _ at hread
      rw [readPackedBlock, hkind]
      change (getFloat64 littleEndian data (start + 1 + offset * 8)).map (·, cursor) = _
      rw [hread]
      rfl
  | spans ends items steps =>
    obtain ⟨spans, htiles, hends, hvalues, hsteps⟩ := h
    have hcount : ends.length = spans.length := by
      simpa using congrArg List.length hends
    have hcountValues : items.numbers.length = spans.length := by
      simpa using congrArg List.length hvalues
    have hcountSteps : steps.numbers.length = spans.length := by
      simpa using congrArg List.length hsteps
    have hsmall : ends.length < 256 ^ 2 := by
      have := htiles.le
      unfold blockSize at hlength
      omega
    obtain ⟨hkind, hrest⟩ := hheld.head
    have hcountHeld := hrest.left.get hsmall
    have hends' := hrest.right.left
    have hvalues' := hrest.right.right.left
    have hsteps' := hrest.right.right.right
    rw [length_encode] at hends' hvalues' hsteps'
    rw [length_flatMap_width length_uint16Bytes] at hvalues' hsteps'
    rw [DenseBlock.length_bytes, hcountValues, ← hcount] at hsteps'
    obtain ⟨hkind0, hkind1, hwideValues, hwideSteps⟩ := kind_spec items.wide steps.wide
    intro offset cursor origin hoffset
    have hread := readSpans_reads (fun i => get littleEndian data (start + 1 + 2 + i * 2) 2)
      (fun i => if items.wide then
          getFloat64 littleEndian data (start + 1 + 2 + ends.length * 2 +
            i * (if items.wide then 8 else 4))
        else getUint32 littleEndian data (start + 1 + 2 + ends.length * 2 +
          i * (if items.wide then 8 else 4)))
      (fun i => if steps.wide then
          getFloat64 littleEndian data (start + 1 + 2 + ends.length * 2 +
            ends.length * (if items.wide then 8 else 4) + i * 8)
        else getInt8 data (start + 1 + 2 + ends.length * 2 +
          ends.length * (if items.wide then 8 else 4) + i))
      htiles ?_ ?_ ?_ offset cursor origin hoffset
    · rw [← hcount] at hread
      rw [readPackedBlock, hkind]
      simp only [Option.bind_eq_bind, Option.bind_some, hkind0, hkind1, if_false, hcountHeld,
        hwideValues, hwideSteps]
      exact hread
    · intro i hi
      have hitem := hends'.item length_uint16Bytes (i := i) (by omega)
      refine (hitem.get (by have := (ends[i]).toNat_lt; omega)).trans ?_
      have hget := congrArg (fun items => items[i]?) hends
      rw [getElem?_map, getElem?_map, getElem?_eq_getElem (by omega)] at hget
      exact hget
    · intro i hi
      have hitem := items.read_held hvalues' (i := i) (by omega)
      rw [hvalues, getElem?_map] at hitem
      rw [← hitem]
      cases items.wide <;> rfl
    · intro i hi
      have hitem := steps.read_held hsteps' (i := i) (by omega)
      rw [hsteps, getElem?_map] at hitem
      exact hitem

end

end Softmaple.SpanColumn
