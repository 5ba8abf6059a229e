import Softmaple.Rope.RopeCalls

/-!
The one-shot editor of a rope (`text/transient-utf16-rope.ts`): pieces of the rope it began with and
of inserted texts, in a treap.
-/
namespace Softmaple.Rope

open List

inductive PieceKind where
  | rope
  | text (text : Text)
  deriving DecidableEq, Repr

structure Piece where
  kind : PieceKind
  start : Nat
  stop : Nat
  hasSurrogateCodeUnits : Bool
  deriving DecidableEq, Repr

/-- A treap by place; `empty` is `null`. -/
inductive PieceNode where
  | empty
  | node (left : PieceNode) (piece : Piece) (priority : UInt32) (totalLength : Nat)
      (hasSurrogateCodeUnits : Bool) (right : PieceNode)

def pieceLength (piece : Piece) : Nat := piece.stop - piece.start

def nodeLength : PieceNode → Nat
  | .empty => 0
  | .node _ _ _ totalLength _ _ => totalLength

def nodeHasSurrogateCodeUnits : PieceNode → Bool
  | .empty => false
  | .node _ _ _ _ hasSurrogateCodeUnits _ => hasSurrogateCodeUnits

def newNode (piece : Piece) (priority : UInt32) : PieceNode :=
  .node .empty piece priority (pieceLength piece) piece.hasSurrogateCodeUnits .empty

def updateNode (left : PieceNode) (piece : Piece) (priority : UInt32) (right : PieceNode) :
    PieceNode :=
  .node left piece priority (nodeLength left + pieceLength piece + nodeLength right)
    (nodeHasSurrogateCodeUnits left || piece.hasSurrogateCodeUnits || nodeHasSurrogateCodeUnits right)
    right

def mergeNodes (left right : PieceNode) : PieceNode :=
  match left, right with
  | .empty, right => right
  | left, .empty => left
  | .node leftLeft leftPiece leftPriority leftTotal leftHas leftRight,
      .node rightLeft rightPiece rightPriority rightTotal rightHas rightRight =>
      if leftPriority ≤ rightPriority then
        updateNode leftLeft leftPiece leftPriority
          (mergeNodes leftRight (.node rightLeft rightPiece rightPriority rightTotal rightHas rightRight))
      else
        updateNode
          (mergeNodes (.node leftLeft leftPiece leftPriority leftTotal leftHas leftRight) rightLeft)
          rightPiece rightPriority rightRight
termination_by sizeOf left + sizeOf right

def slicePiece (piece : Piece) (start stop : Nat) : Piece :=
  { piece with start := piece.start + start, stop := piece.start + stop }

def nextPriority (priorityState : UInt32) : UInt32 :=
  let state := priorityState ^^^ (priorityState <<< 13)
  let state := state ^^^ (state >>> 17)
  state ^^^ (state <<< 5)

structure SplitResult where
  left : PieceNode
  right : PieceNode
  priorityState : UInt32

def split (priorityState : UInt32) : PieceNode → Nat → SplitResult
  | .empty, _ => ⟨.empty, .empty, priorityState⟩
  | .node left piece priority _ _ right, index =>
    let leftLength := nodeLength left
    let ownLength := pieceLength piece
    if index < leftLength then
      let parts := split priorityState left index
      ⟨parts.left, updateNode parts.right piece priority right, parts.priorityState⟩
    else if leftLength + ownLength < index then
      let parts := split priorityState right (index - leftLength - ownLength)
      ⟨updateNode left piece priority parts.left, parts.right, parts.priorityState⟩
    else if index = leftLength then
      ⟨left, updateNode .empty piece priority right, priorityState⟩
    else if index = leftLength + ownLength then
      ⟨updateNode left piece priority .empty, right, priorityState⟩
    else
      let localIndex := index - leftLength
      let rightPiece :=
        newNode (slicePiece piece localIndex ownLength) (nextPriority priorityState)
      ⟨updateNode left (slicePiece piece 0 localIndex) priority .empty, mergeNodes rightPiece right,
        nextPriority priorityState⟩

structure TransientUtf16RopeEditor where
  base : PersistentUtf16Rope
  root : PieceNode
  finished : Option PersistentUtf16Rope
  dirty : Bool
  priorityState : UInt32

def assertEditorIndex (index : Int) (length : Nat) : Except RopeError Nat :=
  if 0 ≤ index ∧ index ≤ length then .ok index.toNat else .error (.editorIndex index length)

def assertEditorRange (index length : Int) (total : Nat) : Except RopeError (Nat × Nat) :=
  if 0 ≤ index ∧ 0 ≤ length ∧ index + length ≤ total then .ok (index.toNat, length.toNat)
  else .error (.editorRange index (index + length) total)

def PieceNode.pieces : PieceNode → List Piece
  | .empty => []
  | .node left piece _ _ _ right => left.pieces ++ piece :: right.pieces

def combineAdjacentPieces (left right : Piece) : Option Piece :=
  if left.kind = right.kind ∧ left.stop = right.start then some { left with stop := right.stop }
  else none

def pushPiece (pieces : List Piece) (current : Piece) : List Piece :=
  match pieces.getLast?.bind fun previous => combineAdjacentPieces previous current with
  | none => pieces ++ [current]
  | some combined => pieces.dropLast ++ [combined]

def upperBound (values : List Nat) (target : Nat) : Nat :=
  PartitionPoint.partitionPoint (fun value => decide (value ≤ target)) values

def appendRopeText (assembly : RopeAssembly) (rope : PersistentUtf16Rope) (start stop : Nat) :
    Except RopeError RopeAssembly := do
  let text ← rope.slice start stop
  return assembly.appendText text

def copyRopeText (assembly : RopeAssembly) (rope : PersistentUtf16Rope) (start stop : Nat) :
    Except RopeError RopeAssembly :=
  if start < stop then appendRopeText assembly rope start stop else .ok assembly

def shareLeaves (assembly : RopeAssembly) (rope : PersistentUtf16Rope)
    (sharedStartIndex sharedEndIndex : Nat) : Except RopeError RopeAssembly :=
  let boundaries := rope.getLeafBoundaries
  if boundaries.getD sharedStartIndex 0 < boundaries.getD sharedEndIndex 0 then
    assembly.appendLeafRange rope sharedStartIndex sharedEndIndex
  else .ok assembly

def appendRopePiece (assembly : RopeAssembly) (rope : PersistentUtf16Rope) (start stop : Nat)
    (hasLeftSeam hasRightSeam : Bool) : Except RopeError RopeAssembly :=
  if stop - start < UTF16_ROPE_MIN_LEAF then appendRopeText assembly rope start stop
  else
    let boundaries := rope.getLeafBoundaries
    let firstIndex := lowerBound boundaries start
    let lastIndex := upperBound boundaries stop - 1
    if lastIndex ≤ firstIndex then appendRopeText assembly rope start stop
    else
      let hasPartialLeft := boundaries.getD firstIndex 0 ≠ start
      let hasPartialRight := boundaries.getD lastIndex 0 ≠ stop
      let sharedStartIndex := if hasLeftSeam ∨ hasPartialLeft then firstIndex + 1 else firstIndex
      let sharedEndIndex :=
        if sharedStartIndex < lastIndex ∧ (hasRightSeam ∨ hasPartialRight) then lastIndex - 1
        else lastIndex
      do
        let copied ← copyRopeText assembly rope start (boundaries.getD sharedStartIndex 0)
        let shared ← shareLeaves copied rope sharedStartIndex sharedEndIndex
        copyRopeText shared rope (boundaries.getD sharedEndIndex 0) stop

def appendCompactedPiece (assembly : RopeAssembly) (base : PersistentUtf16Rope) (piece : Piece)
    (hasLeftSeam hasRightSeam : Bool) : Except RopeError RopeAssembly :=
  match piece.kind with
  | .text text => .ok (assembly.appendText (sliceText text piece.start piece.stop))
  | .rope => appendRopePiece assembly base piece.start piece.stop hasLeftSeam hasRightSeam

def appendCompacted (base : PersistentUtf16Rope) (assembly : RopeAssembly) (hasLeftSeam : Bool) :
    List Piece → Except RopeError RopeAssembly
  | [] => .ok assembly
  | piece :: rest => do
      let assembly ← appendCompactedPiece assembly base piece hasLeftSeam (!rest.isEmpty)
      appendCompacted base assembly true rest

def Piece.codeUnitAt (base : PersistentUtf16Rope) (piece : Piece) (offset : Nat) : Option CodeUnit :=
  match piece.kind with
  | .rope => base.codeUnitAt offset
  | .text text => text[offset]?

def PieceNode.codeUnitAt (base : PersistentUtf16Rope) : PieceNode → Nat → Option CodeUnit
  | .empty, _ => none
  | .node left piece _ _ _ right, offset =>
    let leftLength := nodeLength left
    if offset < leftLength then left.codeUnitAt base offset
    else
      let ownLength := pieceLength piece
      if offset < leftLength + ownLength then
        piece.codeUnitAt base (piece.start + offset - leftLength)
      else right.codeUnitAt base (offset - (leftLength + ownLength))

namespace TransientUtf16RopeEditor

/-- The constructor. -/
def start (base : PersistentUtf16Rope) : TransientUtf16RopeEditor :=
  if base.length = 0 then ⟨base, .empty, none, false, 0x9e3779b9⟩
  else
    let priority := nextPriority 0x9e3779b9
    ⟨base, newNode ⟨.rope, 0, base.length, base.hasSurrogateCodeUnits⟩ priority, none, false, priority⟩

def length (editor : TransientUtf16RopeEditor) : Nat :=
  match editor.finished with
  | some rope => rope.length
  | none => nodeLength editor.root

def hasSurrogateCodeUnits (editor : TransientUtf16RopeEditor) : Bool :=
  match editor.finished with
  | some rope => rope.hasSurrogateCodeUnits
  | none => nodeHasSurrogateCodeUnits editor.root

def codeUnitAt (editor : TransientUtf16RopeEditor) (index : Int) : Option CodeUnit :=
  if 0 ≤ index ∧ index < editor.length then
    match editor.finished with
    | some rope => rope.codeUnitAt index
    | none => editor.root.codeUnitAt editor.base index.toNat
  else none

def assertOpen (editor : TransientUtf16RopeEditor) : Except RopeError Unit :=
  if editor.finished.isSome then .error .finished else .ok ()

def insert (editor : TransientUtf16RopeEditor) (index : Int) (text : Text) :
    Except RopeError TransientUtf16RopeEditor := do
  editor.assertOpen
  let index ← assertEditorIndex index editor.length
  if text = [] then return editor
  let parts := split editor.priorityState editor.root index
  let priority := nextPriority parts.priorityState
  let inserted := newNode ⟨.text text, 0, text.length, containsUtf16SurrogateCodeUnit text⟩ priority
  return { editor with
    root := mergeNodes (mergeNodes parts.left inserted) parts.right
    dirty := true
    priorityState := priority }

def delete (editor : TransientUtf16RopeEditor) (index length : Int) :
    Except RopeError TransientUtf16RopeEditor := do
  editor.assertOpen
  let range ← assertEditorRange index length editor.length
  if range.2 = 0 then return editor
  let first := split editor.priorityState editor.root range.1
  let second := split first.priorityState first.right range.2
  return { editor with
    root := mergeNodes first.left second.right
    dirty := true
    priorityState := second.priorityState }

def freeze (editor : TransientUtf16RopeEditor) : Except RopeError PersistentUtf16Rope :=
  if !editor.dirty then .ok editor.base
  else
    RopeAssembly.finish <$>
      appendCompacted editor.base .start false (editor.root.pieces.foldl pushPiece [])

def finish (editor : TransientUtf16RopeEditor) :
    Except RopeError (PersistentUtf16Rope × TransientUtf16RopeEditor) :=
  match editor.finished with
  | some rope => .ok (rope, editor)
  | none =>
    (fun rope => (rope, { editor with finished := some rope, root := .empty })) <$> editor.freeze

end TransientUtf16RopeEditor

end Softmaple.Rope

namespace Softmaple.Rope

open List

open ExceptAgreement (Agree)
open PersistentUtf16Rope (boundariesFrom)

structure CutText where
  text : Text
  boundaries : List Nat

namespace PlainText

def run (text : Text) : AssemblerCall CutText → Except RopeError Text
  | .appendText added => .ok (text ++ added)
  | .appendRope source => .ok (text ++ source.text)
  | .appendSlice source start stop => do
      let added ← slice source.text start stop
      return text ++ added
  | .appendLeafRange source startLeaf endLeaf => do
      let range ← assertLeafRange startLeaf endLeaf (source.boundaries.length - 1)
      return text ++ sliceText source.text (source.boundaries.getD range.1 0)
        (source.boundaries.getD range.2 0)

def assemble (calls : List (AssemblerCall CutText)) : Except RopeError Text := calls.foldlM run []

def fromSegments (segments : List (Segment CutText)) : Except RopeError Text :=
  assemble (segments.map Segment.call)

end PlainText

structure CutsAs (rope : PersistentUtf16Rope) (source : CutText) : Prop where
  represents : Represents rope source.text
  boundaries : source.boundaries = rope.getLeafBoundaries

structure Assembled (assembly : RopeAssembly) (text : Text) : Prop where
  good : GoodLeaves assembly.leaves
  text : leavesText assembly.leaves ++ assembly.textParts.flatten = text

section Assembly

variable {assembly : RopeAssembly} {rope : PersistentUtf16Rope} {source : CutText}
  {text added : Text}

theorem assembled_start : Assembled .start [] where
  good _ hleaf := absurd hleaf not_mem_nil
  text := rfl

theorem leavesText_append (first second : List LeafNode) :
    leavesText (first ++ second) = leavesText first ++ leavesText second :=
  flatMap_append

section

variable (h : Assembled assembly text)
include h

theorem Assembled.appendText (added : Text) :
    Assembled (assembly.appendText added) (text ++ added) := by
  rw [RopeAssembly.appendText]
  split
  · exact ⟨h.good, by simp [← h.text]⟩
  · next hnone =>
      have hempty : added = [] := eq_nil_of_length_eq_zero (Nat.eq_zero_of_not_pos hnone)
      rw [hempty, append_nil]
      exact h

theorem Assembled.flushText :
    Assembled assembly.flushText text ∧ assembly.flushText.textParts = [] := by
  rw [RopeAssembly.flushText]
  split
  · next hnone => exact ⟨h, hnone⟩
  · obtain ⟨hgood, htext, -⟩ := @chunkText_spec assembly.textParts.flatten false nofun
    refine ⟨⟨forall_mem_append.mpr ⟨h.good, hgood⟩, ?_⟩, rfl⟩
    rw [leavesText_append, leavesText, leavesText, htext, flatten_nil, append_nil]
    exact h.text

theorem Assembled.donate {leaves : List LeafNode} (hleaves : GoodLeaves leaves) :
    Assembled { assembly.flushText with leaves := assembly.flushText.leaves ++ leaves }
      (text ++ leavesText leaves) := by
  obtain ⟨hflushed, hparts⟩ := h.flushText
  refine ⟨forall_mem_append.mpr ⟨hflushed.good, hleaves⟩, ?_⟩
  have htext := hflushed.text
  rw [hparts, flatten_nil, append_nil] at htext ⊢
  rw [leavesText_append, htext]

omit h in
theorem GoodLeaves.range {leaves : List LeafNode} (h : GoodLeaves leaves) (first last : Nat) :
    GoodLeaves ((leaves.take last).drop first) :=
  fun leaf hleaf => h leaf (mem_of_mem_take (mem_of_mem_drop hleaf))

omit h in
theorem CutsAs.leafCount (h : CutsAs rope source) :
    source.boundaries.length - 1 = (collectLeaves rope.root).length := by
  rw [h.boundaries, PersistentUtf16Rope.getLeafBoundaries, length_boundariesFrom,
    Nat.add_sub_cancel]

omit h in
theorem CutsAs.boundary (h : CutsAs rope source) {place : Nat}
    (hplace : place ≤ (collectLeaves rope.root).length) :
    source.boundaries.getD place 0 = (leavesText ((collectLeaves rope.root).take place)).length := by
  rw [h.boundaries, PersistentUtf16Rope.getLeafBoundaries, getD_eq_getElem?_getD,
    getElem?_boundariesFrom hplace, Option.getD_some, Nat.zero_add]

theorem Assembled.appendLeafRange (hsource : CutsAs rope source)
    (startLeaf endLeaf : Int) : Agree Eq Assembled (assembly.appendLeafRange rope startLeaf endLeaf)
      (PlainText.run text (.appendLeafRange source startLeaf endLeaf)) := by
  rw [RopeAssembly.appendLeafRange, PlainText.run, hsource.leafCount]
  refine (assertLeafRange_agree startLeaf endLeaf).bind fun range other hrange => ?_
  obtain ⟨rfl, hle, hcount⟩ := hrange
  obtain ⟨hgood, htext⟩ := hsource.represents.leaves
  rw [hsource.boundary (hle.trans hcount), hsource.boundary hcount, ← htext,
    ← leavesText_range _ range.1 range.2 hle]
  split
  · next hnone =>
      have hempty : ((collectLeaves rope.root).take range.2).drop range.1 = [] := by
        apply drop_eq_nil_of_le
        rw [length_take, hnone]
        exact Nat.min_le_left _ _
      rw [hempty, leavesText, flatMap_nil, append_nil]
      exact .ok h
  · exact .ok (h.donate (hgood.range range.1 range.2))

theorem Assembled.appendWhole (hrope : Represents rope added) :
    Agree Eq Assembled (assembly.appendLeafRange rope 0 (collectLeaves rope.root).length)
      (.ok (text ++ added)) := by
  obtain ⟨hgood, htext⟩ := hrope.leaves
  have hrange : assertLeafRange 0 (collectLeaves rope.root).length (collectLeaves rope.root).length =
      .ok (0, (collectLeaves rope.root).length) := by
    rw [assertLeafRange, if_pos (by omega), Int.toNat_zero, Int.toNat_natCast]
  rw [RopeAssembly.appendLeafRange, hrange]
  show Agree Eq Assembled (ite (0 = _) _ _) _
  split
  · next hnone =>
      rw [← htext, eq_nil_of_length_eq_zero hnone.symm, leavesText, flatMap_nil,
        append_nil]
      exact .ok h
  · rw [take_length, drop_zero, ← htext]
    exact .ok (h.donate hgood)

theorem Assembled.appendRope (hrope : Represents rope added) :
    Agree Eq Assembled (assembly.appendRope rope) (.ok (text ++ added)) := by
  rw [RopeAssembly.appendRope, hrope.length_eq]
  split
  · next hnone =>
      rw [eq_nil_of_length_eq_zero hnone, append_nil]
      exact .ok h
  · exact h.appendWhole hrope

theorem Assembled.appendSlice (hsource : CutsAs rope source)
    (start stop : Int) : Agree Eq Assembled (assembly.appendSlice rope start stop)
      (PlainText.run text (.appendSlice source start stop)) := by
  rw [RopeAssembly.appendSlice, PlainText.run, PlainText.slice, hsource.represents.length_eq,
    bind_assoc]
  refine (assertSlice_agree start stop).bind fun range other hrange => ?_
  obtain ⟨rfl, hle, hstop⟩ := hrange
  rw [pure_bind]
  split
  · next hnone =>
      rw [sliceText_outside (Or.inl (Nat.le_of_eq hnone.symm)), append_nil]
      exact .ok h
  · split
    · next hwhole =>
        rw [hwhole.1, sliceText_whole _ (Nat.le_of_eq hwhole.2.symm)]
        exact h.appendWhole hsource.represents
    · obtain ⟨hgood, hleaves⟩ := hsource.represents.collectSliceLeaves range.1 range.2
      rw [← hleaves]
      exact .ok (h.donate hgood)

theorem Assembled.finish : Represents assembly.finish text := by
  obtain ⟨hflushed, hparts⟩ := h.flushText
  have htext := hflushed.text
  rw [hparts, flatten_nil, append_nil] at htext
  rw [RopeAssembly.finish, ← htext]
  exact represents_buildTree hflushed.good

end

end Assembly

section Calls

variable {ρ : Type} {ropeOf : ρ → PersistentUtf16Rope} {sourceOf : ρ → CutText}

section

variable (hsources : ∀ place, CutsAs (ropeOf place) (sourceOf place))
include hsources

theorem Assembled.run
    {assembly : RopeAssembly} {text : Text} (h : Assembled assembly text) (call : AssemblerCall ρ) :
    Agree Eq Assembled (assembly.run (call.map ropeOf)) (PlainText.run text (call.map sourceOf)) := by
  cases call with
  | appendText added => exact .ok (h.appendText added)
  | appendRope place => exact h.appendRope (hsources place).represents
  | appendSlice place start stop => exact h.appendSlice (hsources place) start stop
  | appendLeafRange place startLeaf endLeaf =>
    exact h.appendLeafRange (hsources place) startLeaf endLeaf

theorem assemble_agree (calls : List (AssemblerCall ρ)) :
    Agree Eq Represents (PersistentUtf16Rope.assemble (calls.map (AssemblerCall.map ropeOf)))
      (PlainText.assemble (calls.map (AssemblerCall.map sourceOf))) := by
  have hrun : Agree Eq Assembled ((calls.map (AssemblerCall.map ropeOf)).foldlM RopeAssembly.run .start)
      ((calls.map (AssemblerCall.map sourceOf)).foldlM PlainText.run []) := by
    rw [foldlM_map, foldlM_map]
    exact Agree.foldlM calls (fun call _ assembly text h => h.run hsources call) assembled_start
  rw [PersistentUtf16Rope.assemble, PlainText.assemble, ← id_map (List.foldlM PlainText.run _ _)]
  exact hrun.map fun assembly text h => h.finish

theorem fromSegments_agree (segments : List (Segment ρ)) :
    Agree Eq Represents (PersistentUtf16Rope.fromSegments (segments.map (Segment.map ropeOf)))
      (PlainText.fromSegments (segments.map (Segment.map sourceOf))) := by
  have hcalls : ∀ {σ : Type} (f : ρ → σ), (segments.map (Segment.map f)).map Segment.call =
      (segments.map Segment.call).map (AssemblerCall.map f) := by
    intro σ f
    rw [map_map, map_map]
    congr 1
    funext segment
    cases segment <;> rfl
  rw [PersistentUtf16Rope.fromSegments.eq_def]
  split
  · next rope hone =>
      cases segments with
      | nil => cases hone
      | cons segment rest =>
        obtain ⟨hsegment, hrest⟩ := cons_eq_cons.mp hone
        rw [map_eq_nil_iff.mp hrest]
        cases segment with
        | text value => cases hsegment
        | rope place =>
          cases hsegment
          exact .ok (hsources place).represents
  · rw [PlainText.fromSegments, hcalls, hcalls]
    exact assemble_agree hsources _

end

end Calls

end Softmaple.Rope
