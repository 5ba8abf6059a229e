import Softmaple.Rope.TransientRope

/-!
Replay of a chain of events (`core/internals/replay-packed-linear.ts` and the chain replays of
`core/replica.ts`). Neighbouring edits are joined into one pending edit, which is checked against the
document without it.
-/
namespace Softmaple

inductive ExternalOperation where
  | insert (index : Nat) (text : Text)
  | delete (index length : Nat)
  deriving DecidableEq, Repr

def ExternalOperation.applyTo (text : Text) : ExternalOperation → Text
  | .insert index insertText => text.splice index insertText
  | .delete index length => text.delete index length

namespace Replay

open Rope

inductive ReplayError where
  | unsafeIndex (index : Nat)
  | indexOutOfBounds (index : Nat) (max : Int) (length : Nat)
  | insideCodePoint (index : Nat)
  | unsafeLength (length : Nat)
  | deleteRange (start stop : Nat) (length : Int)
  | illFormedText (text : Text)
  | rope (error : RopeError)
  | unfinished (offset endOffset : Nat)
  deriving DecidableEq, Repr

inductive ReplayDocument where
  | persistent (rope : PersistentUtf16Rope)
  | transient (editor : TransientUtf16RopeEditor)

namespace ReplayDocument

def length : ReplayDocument → Nat
  | .persistent rope => rope.length
  | .transient editor => editor.length

def hasSurrogateCodeUnits : ReplayDocument → Bool
  | .persistent rope => rope.hasSurrogateCodeUnits
  | .transient editor => editor.hasSurrogateCodeUnits

def codeUnitAt (index : Nat) : ReplayDocument → Option CodeUnit
  | .persistent rope => rope.codeUnitAt index
  | .transient editor => editor.codeUnitAt index

def insert (index : Nat) (text : Text) : ReplayDocument → Except ReplayError ReplayDocument
  | .persistent rope => (rope.insert index text).mapError .rope |>.map .persistent
  | .transient editor => (editor.insert index text).mapError .rope |>.map .transient

def delete (index length : Nat) : ReplayDocument → Except ReplayError ReplayDocument
  | .persistent rope => (rope.delete index length).mapError .rope |>.map .persistent
  | .transient editor => (editor.delete index length).mapError .rope |>.map .transient

def finish : ReplayDocument → Except ReplayError PersistentUtf16Rope
  | .persistent rope => .ok rope
  | .transient editor => editor.finish.mapError .rope |>.map (·.1)

end ReplayDocument

section Checks

variable (index length : Nat) (document : ReplayDocument)

def assertDocumentIndex (allowEnd : Bool) : Except ReplayError Unit :=
  let max : Int := if allowEnd then document.length else document.length - 1
  if !isSafeInteger index then .error (.unsafeIndex index)
  else if max < index then .error (.indexOutOfBounds index max document.length)
  else .ok ()

def assertCodePointBoundary : Except ReplayError Unit :=
  if index = 0 ∨ document.length ≤ index ∨ !document.hasSurrogateCodeUnits then .ok ()
  else if (document.codeUnitAt (index - 1)).any isHighSurrogate &&
      (document.codeUnitAt index).any isLowSurrogate then
    .error (.insideCodePoint index)
  else .ok ()

def checkInsert : Except ReplayError Unit := do
  assertDocumentIndex index document true
  assertCodePointBoundary index document

def checkDelete : Except ReplayError Unit := do
  assertDocumentIndex index document false
  assertCodePointBoundary index document
  if document.length < index + length then
    .error (.deleteRange index (index + length) document.length)
  else assertCodePointBoundary (index + length) document

end Checks

def assertWellFormedUtf16 (text : Text) : Except ReplayError Unit :=
  if Utf8.wellFormed text then .ok () else .error (.illFormedText text)

def validateLocalOperation (document : ReplayDocument) (operation : ExternalOperation) :
    Except ReplayError (Option ExternalOperation) :=
  match operation with
  | .insert index text =>
    if text = [] then .ok none
    else do
      assertWellFormedUtf16 text
      checkInsert index document
      return some operation
  | .delete index length =>
    if !isSafeInteger length then .error (.unsafeLength length)
    else if length = 0 then .ok none
    else do
      checkDelete index length document
      return some operation

def applyOperation (document : ReplayDocument) (operation : ExternalOperation) :
    Except ReplayError ReplayDocument := do
  match ← validateLocalOperation document operation with
  | none => return document
  | some (.insert index text) => document.insert index text
  | some (.delete index length) => document.delete index length

def offsets (start stop : Nat) : List Nat := List.range' start (stop - start)

def replayOneAtATime (operationAt : Nat → ExternalOperation) (start stop : Nat)
    (document : ReplayDocument) : Except ReplayError ReplayDocument :=
  (offsets start stop).foldlM (fun document rank => applyOperation document (operationAt rank))
    document

/-- The edit that is not applied yet; `γ` tells where an insert's text comes from. -/
inductive PendingEdit (γ : Type) where
  | none
  | insert (index length : Nat) (content : γ)
  | delete (index length : Nat)

structure LinearReplay (γ : Type) where
  document : ReplayDocument
  pending : PendingEdit γ

namespace LinearReplay

variable {γ : Type} (textOf : γ → Text)

def flush (replay : LinearReplay γ) : Except ReplayError (LinearReplay γ) :=
  match replay.pending with
  | .none => .ok replay
  | .insert index _ content => (⟨·, .none⟩) <$> replay.document.insert index (textOf content)
  | .delete index length => (⟨·, .none⟩) <$> replay.document.delete index length

def begin (replay : LinearReplay γ) (check : ReplayDocument → Except ReplayError Unit)
    (pending : PendingEdit γ) : Except ReplayError (LinearReplay γ) := do
  let flushed ← replay.flush textOf
  check flushed.document
  return ⟨flushed.document, pending⟩

def delete (replay : LinearReplay γ) (check : Nat → Nat → ReplayDocument → Except ReplayError Unit)
    (index length : Nat) : Except ReplayError (LinearReplay γ) :=
  match replay.pending with
  | .delete pendingIndex pendingLength =>
    if index = pendingIndex then
      let virtualDocumentLength : Int := replay.document.length - pendingLength
      if virtualDocumentLength < (index + length : Nat) then
        .error (.deleteRange index (index + length) virtualDocumentLength)
      else do
        assertCodePointBoundary (index + (pendingLength + length)) replay.document
        return ⟨replay.document, .delete pendingIndex (pendingLength + length)⟩
    else if index + length = pendingIndex then do
      assertCodePointBoundary index replay.document
      return ⟨replay.document, .delete index (pendingLength + length)⟩
    else replay.begin textOf (check index length) (.delete index length)
  | _ => replay.begin textOf (check index length) (.delete index length)

end LinearReplay

/-- The columns of a packed chain. Whoever packs one checks its scalar fields and texts. -/
structure PackedLinearReplayView where
  count : Nat
  isInsertAt : Nat → Bool
  operationIndexAt : Nat → Nat
  operationLengthAt : Nat → Nat
  insertStartAt : Nat → Nat
  insertedContent : Text
  index_safe : ∀ offset < count, isSafeInteger (operationIndexAt offset) = true
  length_safe : ∀ offset < count, isSafeInteger (operationLengthAt offset) = true
  insert_within : ∀ offset < count, isInsertAt offset = true →
    insertStartAt offset + operationLengthAt offset ≤ insertedContent.length
  insert_wellFormed : ∀ offset < count, isInsertAt offset = true → Utf8.wellFormed
    (sliceText insertedContent (insertStartAt offset)
      (insertStartAt offset + operationLengthAt offset)) = true

namespace PackedLinearReplayView

variable (packed : PackedLinearReplayView)

def sliceInsertedContent (start stop : Nat) : Text := sliceText packed.insertedContent start stop

def operationAt (offset : Nat) : ExternalOperation :=
  if packed.isInsertAt offset then
    .insert (packed.operationIndexAt offset) (packed.sliceInsertedContent (packed.insertStartAt offset)
      (packed.insertStartAt offset + packed.operationLengthAt offset))
  else .delete (packed.operationIndexAt offset) (packed.operationLengthAt offset)

end PackedLinearReplayView

def MIN_TRANSIENT_CHAIN_EVENTS : Nat := 128

section Packed

variable (packed : PackedLinearReplayView)

structure ContentRange where
  start : Nat
  stop : Nat

def contentText (range : ContentRange) : Text := packed.sliceInsertedContent range.start range.stop

structure PackedLinearReplay where
  replay : LinearReplay ContentRange
  offset : Nat
  endOffset : Nat

namespace PackedLinearReplay

def start (initialDocument : PersistentUtf16Rope) (endOffset startOffset : Nat) :
    PackedLinearReplay where
  replay :=
    { document := if MIN_TRANSIENT_CHAIN_EVENTS ≤ endOffset - startOffset
        then .transient (.start initialDocument) else .persistent initialDocument
      pending := .none }
  offset := startOffset
  endOffset := endOffset

def insertEvent (replay : LinearReplay ContentRange) (index length contentStart : Nat) :
    Except ReplayError (LinearReplay ContentRange) :=
  let next := replay.begin (contentText packed) (checkInsert index)
    (.insert index length ⟨contentStart, contentStart + length⟩)
  match replay.pending with
  | .insert pendingIndex pendingLength content =>
    if index = pendingIndex + pendingLength ∧ contentStart = content.stop then
      .ok ⟨replay.document,
        .insert pendingIndex (pendingLength + length) ⟨content.start, content.stop + length⟩⟩
    else next
  | _ => next

def event (replay : LinearReplay ContentRange) (offset : Nat) :
    Except ReplayError (LinearReplay ContentRange) :=
  let length := packed.operationLengthAt offset
  if length = 0 then .ok replay
  else
    let index := packed.operationIndexAt offset
    if packed.isInsertAt offset then insertEvent packed replay index length (packed.insertStartAt offset)
    else replay.delete (contentText packed) checkDelete index length

/-- `Infinity` is the number of all events left. -/
def advance (state : PackedLinearReplay) (maxEvents : Nat) : Except ReplayError PackedLinearReplay :=
  let endOffset := min state.endOffset (state.offset + maxEvents)
  (fun replay => { state with replay := replay, offset := max state.offset endOffset }) <$>
    (offsets state.offset endOffset).foldlM (event packed) state.replay

def finish (state : PackedLinearReplay) : Except ReplayError PersistentUtf16Rope :=
  if state.endOffset ≤ state.offset then do
    let flushed ← state.replay.flush (contentText packed)
    flushed.document.finish
  else .error (.unfinished state.offset state.endOffset)

end PackedLinearReplay

/-- `replayPackedLinear`, in calls of `advance` of these sizes. -/
def replayPackedLinear (initialDocument : PersistentUtf16Rope) (endOffset startOffset : Nat)
    (chunks : List Nat) : Except ReplayError PersistentUtf16Rope := do
  let state ← chunks.foldlM (PackedLinearReplay.advance packed)
    (.start initialDocument endOffset startOffset)
  state.finish packed

end Packed

section Coalesced

abbrev CoalescedLinearReplay := LinearReplay (List Text)

/-- `flushCoalescedLinearReplay`: the parts of an insert are joined. -/
def flushCoalescedLinearReplay (replay : CoalescedLinearReplay) :
    Except ReplayError CoalescedLinearReplay :=
  replay.flush List.flatten

def checkCoalesced (operation : ExternalOperation) (document : ReplayDocument) :
    Except ReplayError Unit :=
  (fun _ => ()) <$> validateLocalOperation document operation

def coalesceInsert (replay : CoalescedLinearReplay) (index length : Nat) (content : Text) :
    Except ReplayError CoalescedLinearReplay :=
  let next := replay.begin List.flatten (checkCoalesced (.insert index content))
    (.insert index length [content])
  match replay.pending with
  | .insert pendingIndex pendingLength parts =>
    if index = pendingIndex + pendingLength then
      .ok ⟨replay.document, .insert pendingIndex (pendingLength + length) (parts ++ [content])⟩
    else next
  | _ => next

def coalesceDelete (replay : CoalescedLinearReplay) (index length : Nat) :
    Except ReplayError CoalescedLinearReplay :=
  replay.delete List.flatten (fun index length => checkCoalesced (.delete index length)) index length

def coalesceEvent (plan : PackedLinearReplayView) (replay : CoalescedLinearReplay) (orderIndex : Nat) :
    Except ReplayError CoalescedLinearReplay :=
  let operationIndex := plan.operationIndexAt orderIndex
  let operationLength := plan.operationLengthAt orderIndex
  if operationLength = 0 then .ok replay
  else if plan.isInsertAt orderIndex then
    let contentStart := plan.insertStartAt orderIndex
    coalesceInsert replay operationIndex operationLength
      (plan.sliceInsertedContent contentStart (contentStart + operationLength))
  else coalesceDelete replay operationIndex operationLength

def replayCoalescedPackedLinearRange (plan : PackedLinearReplayView) (replay : CoalescedLinearReplay)
    (start stop : Nat) : Except ReplayError CoalescedLinearReplay :=
  (offsets start stop).foldlM (coalesceEvent plan) replay

def replayCoalescedSteps (plan : PackedLinearReplayView) (stop : Nat) (replay : CoalescedLinearReplay)
    (chunkStart : Nat) : List Nat → Except ReplayError CoalescedLinearReplay
  | [] => .ok replay
  | chunkEvents :: rest => do
      let chunkEnd := min stop (chunkStart + chunkEvents)
      let next ← replayCoalescedPackedLinearRange plan replay chunkStart chunkEnd
      replayCoalescedSteps plan stop next chunkEnd rest

def replayCoalescedSections (plan : PackedLinearReplayView) (document : PersistentUtf16Rope)
    (start stop : Nat) (chunks : List Nat) : Except ReplayError PersistentUtf16Rope := do
  let replay ← replayCoalescedSteps plan stop ⟨.transient (.start document), .none⟩ start chunks
  let flushed ← flushCoalescedLinearReplay replay
  flushed.document.finish

def chainEvent (replay : CoalescedLinearReplay) (operation : ExternalOperation) :
    Except ReplayError CoalescedLinearReplay :=
  match operation with
  | .insert index text =>
    if text = [] then .ok replay else coalesceInsert replay index text.length text
  | .delete index length => if length = 0 then .ok replay else coalesceDelete replay index length

def replayChain (operationAt : Nat → ExternalOperation) (start stop : Nat)
    (document : PersistentUtf16Rope) : Except ReplayError PersistentUtf16Rope :=
  if MIN_TRANSIENT_CHAIN_EVENTS ≤ stop - start then do
    let edited ← replayOneAtATime operationAt start stop (.transient (.start document))
    edited.finish
  else do
    let replay ← (offsets start stop).foldlM (fun replay rank => chainEvent replay (operationAt rank))
      ⟨.persistent document, .none⟩
    let flushed ← flushCoalescedLinearReplay replay
    flushed.document.finish

end Coalesced

end Replay
end Softmaple

namespace Softmaple.Text

variable {first second text : Text} {index : Nat}

theorem splitsScalar_succ (text : Text) (before : Nat) : text.splitsScalar (before + 1) = true ↔
    ∃ high low, text[before]? = some high ∧ text[before + 1]? = some low ∧
      isHighSurrogate high = true ∧ isLowSurrogate low = true := by
  rw [splitsScalar]
  cases text[before]? with
  | none => simp
  | some high =>
    cases text[before + 1]? with
    | none => simp
    | some low => simp

theorem splitsScalar_left (h : index < first.length) :
    splitsScalar (first ++ second) index = splitsScalar first index := by
  cases index with
  | zero => rfl
  | succ before =>
    rw [splitsScalar, splitsScalar, List.getElem?_append_left (by omega),
      List.getElem?_append_left h]

theorem splitsScalar_right (h : 0 < index) :
    splitsScalar (first ++ second) (first.length + index) = splitsScalar second index := by
  obtain ⟨before, rfl⟩ : ∃ before, index = before + 1 := ⟨index - 1, by omega⟩
  rw [← Nat.add_assoc, splitsScalar, splitsScalar, List.getElem?_append_right (by omega),
    List.getElem?_append_right (by omega), Nat.add_sub_cancel_left, Nat.add_assoc,
    Nat.add_sub_cancel_left]

theorem splitsScalar_end (h : Utf8.wellFormed first = true) :
    splitsScalar (first ++ second) first.length = false := by
  rw [Bool.eq_false_iff]
  intro hsplits
  cases hlength : first.length with
  | zero =>
    rw [hlength] at hsplits
    cases hsplits
  | succ before =>
    rw [hlength, splitsScalar_succ] at hsplits
    obtain ⟨high, low, hhigh, -, hpair, -⟩ := hsplits
    rw [List.getElem?_append_left (by omega)] at hhigh
    have hlast : first.getLast? = some high := by
      rw [List.getLast?_eq_getElem?, hlength, Nat.add_sub_cancel, hhigh]
    have hplain := (Utf8.wellFormed_ends h).2 high hlast
    have hsame : Utf8.isHigh high = isHighSurrogate high := rfl
    rw [hsame, hpair] at hplain
    cases hplain

theorem wellFormed_parts (h : Utf8.wellFormed text = true) (hcut : text.splitsScalar index = false) :
    Utf8.wellFormed (text.take index) = true ∧ Utf8.wellFormed (text.drop index) = true := by
  rw [← List.take_append_drop index text] at h
  refine Utf8.wellFormed_cut h fun high hhigh low hlow hpair => ?_
  cases index with
  | zero => cases hhigh
  | succ before =>
    rw [List.head?_drop] at hlow
    have hle : before + 1 ≤ text.length := by
      have hlt := (List.getElem?_eq_some_iff.mp hlow).1
      omega
    rw [List.getLast?_eq_getElem?, List.length_take, Nat.min_eq_left hle, Nat.add_sub_cancel,
      List.getElem?_take_of_lt (Nat.lt_succ_self before)] at hhigh
    by_contra htrue
    have hsplits := (splitsScalar_succ text before).mpr
      ⟨high, low, hhigh, hlow, hpair, (Bool.not_eq_false _).mp htrue⟩
    rw [hcut] at hsplits
    cases hsplits

end Softmaple.Text
