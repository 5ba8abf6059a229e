import Softmaple.EgWalker.EventId
import Softmaple.Lib.EvenParts
import Softmaple.Lib.PartitionPoint

/-!
The persistent UTF-16 rope (`text/persistent-utf16-rope.ts`): leaves of text under branches that
know where their children end. Counters and node counts are left out; a walk with an explicit
stack is a recursion.
-/
namespace Softmaple.Rope

def UTF16_ROPE_TARGET_LEAF : Nat := 2048
def UTF16_ROPE_MIN_LEAF : Nat := 1024
def UTF16_ROPE_MAX_LEAF : Nat := 4096
def UTF16_ROPE_BRANCH_FACTOR : Nat := 32

structure Utf16NodeMetadata where
  firstCodeUnit : Option CodeUnit
  lastCodeUnit : Option CodeUnit
  hasSurrogateCodeUnits : Bool
  hasSurrogatePairs : Bool
  deriving DecidableEq, Repr

structure LeafNode where
  text : Text
  utf16 : Utf16NodeMetadata
  deriving DecidableEq, Repr

inductive RopeNode where
  | leaf (leaf : LeafNode)
  | branch (children : List RopeNode) (cumulativeEnds : List Nat) (length height : Nat)
      (utf16 : Utf16NodeMetadata)

inductive RopeError where
  | index (index : Int) (length : Nat)
  | range (start stop : Int) (length : Nat)
  | slice (start stop : Int) (length : Nat)
  | leafRange (start stop : Int) (leafCount : Nat)
  | editorIndex (index : Int) (length : Nat)
  | editorRange (start stop : Int) (length : Nat)
  | finished
  deriving DecidableEq, Repr

/-- Whether some high surrogate is followed by a low one, where `previous` stands before. -/
def pairsAfter (previous : Option CodeUnit) : Text → Bool
  | [] => false
  | current :: rest =>
    (previous.any isHighSurrogate && isLowSurrogate current) || pairsAfter (some current) rest

def analyzeUtf16 (text : Text) : Utf16NodeMetadata where
  firstCodeUnit := text.head?
  lastCodeUnit := text.getLast?
  hasSurrogateCodeUnits := containsUtf16SurrogateCodeUnit text
  hasSurrogatePairs := pairsAfter none text

def bmpUtf16Metadata (text : Text) : Utf16NodeMetadata where
  firstCodeUnit := text.head?
  lastCodeUnit := text.getLast?
  hasSurrogateCodeUnits := false
  hasSurrogatePairs := false

def EMPTY_LEAF : RopeNode := .leaf ⟨[], bmpUtf16Metadata []⟩

namespace RopeNode

def length : RopeNode → Nat
  | .leaf node => node.text.length
  | .branch _ _ length _ _ => length

def height : RopeNode → Nat
  | .leaf _ => 0
  | .branch _ _ _ height _ => height

def utf16 : RopeNode → Utf16NodeMetadata
  | .leaf node => node.utf16
  | .branch _ _ _ _ utf16 => utf16

end RopeNode

/-- `slice(start, stop)` of a string, for bounds that are not negative. -/
def sliceText (text : Text) (start stop : Nat) : Text := (text.take stop).drop start

/-- What `branch` has gathered of the children it has passed. -/
structure BranchSummary where
  cumulativeEnds : List Nat
  length : Nat
  firstCodeUnit : Option CodeUnit
  previousLastCodeUnit : Option CodeUnit
  hasSurrogateCodeUnits : Bool
  hasSurrogatePairs : Bool

def BranchSummary.add (summary : BranchSummary) (child : RopeNode) : BranchSummary where
  cumulativeEnds := summary.cumulativeEnds ++ [summary.length + child.length]
  length := summary.length + child.length
  firstCodeUnit := summary.firstCodeUnit.or child.utf16.firstCodeUnit
  previousLastCodeUnit := child.utf16.lastCodeUnit.or summary.previousLastCodeUnit
  hasSurrogateCodeUnits := summary.hasSurrogateCodeUnits || child.utf16.hasSurrogateCodeUnits
  hasSurrogatePairs := summary.hasSurrogatePairs || (child.utf16.hasSurrogatePairs ||
      (summary.previousLastCodeUnit.any isHighSurrogate &&
        child.utf16.firstCodeUnit.any isLowSurrogate))

def branch (children : List RopeNode) : RopeNode :=
  let summary := children.foldl BranchSummary.add ⟨[], 0, none, none, false, false⟩
  .branch children summary.cumulativeEnds summary.length
    ((children.head?.map (·.height)).getD 0 + 1)
    ⟨summary.firstCodeUnit, summary.previousLastCodeUnit, summary.hasSurrogateCodeUnits,
      summary.hasSurrogatePairs⟩

/-- `Math.ceil(length / size)`. -/
def ceilDiv (length size : Nat) : Nat := (length + size - 1) / size

def chunkText (text : Text) (knownBmp : Bool) : List LeafNode :=
  if text = [] then []
  else
    (EvenParts.evenParts (max 1 (ceilDiv text.length UTF16_ROPE_TARGET_LEAF)) text).map fun chunk =>
      ⟨chunk, if knownBmp then bmpUtf16Metadata chunk else analyzeUtf16 chunk⟩

def lowerBound (values : List Nat) (target : Nat) : Nat :=
  PartitionPoint.partitionPoint (fun value => decide (value < target)) values

def childStartAt (cumulativeEnds : List Nat) (childIndex : Nat) : Nat :=
  if childIndex = 0 then 0 else cumulativeEnds.getD (childIndex - 1) 0

def spliceChildren (children : List RopeNode) (start stop : Nat) (replacements : List RopeNode) :
    List RopeNode :=
  children.take start ++ replacements ++ children.drop stop

def partitionLevel (nodes : List RopeNode) : List (List RopeNode) :=
  EvenParts.evenParts (max 1 (ceilDiv nodes.length UTF16_ROPE_BRANCH_FACTOR)) nodes

def nextLevel (nodes : List RopeNode) : List RopeNode := (partitionLevel nodes).map branch

theorem length_nextLevel_lt {nodes : List RopeNode} (h : 1 < nodes.length) :
    (nextLevel nodes).length < nodes.length := by
  rw [nextLevel, List.length_map, partitionLevel, EvenParts.length_evenParts]
  simp only [ceilDiv, UTF16_ROPE_BRANCH_FACTOR]
  omega

/-- The loop that puts branches over branches until one node is left. -/
def buildLevels (nodes : List RopeNode) : List RopeNode :=
  if 1 < nodes.length then buildLevels (nextLevel nodes) else nodes
termination_by nodes.length
decreasing_by exact length_nextLevel_lt ‹_›

def collapseRoot : RopeNode → RopeNode
  | .branch [child] _ _ _ _ => collapseRoot child
  | node => node

def buildFromSameHeightNodes (nodes : List RopeNode) : RopeNode :=
  collapseRoot ((buildLevels nodes).head?.getD EMPTY_LEAF)

def buildTree (leaves : List LeafNode) : RopeNode :=
  (buildLevels (leaves.map .leaf)).head?.getD EMPTY_LEAF

def insertIntoNode (index : Nat) (text : Text) : RopeNode → List RopeNode
  | .leaf leaf =>
    let knownBmp := !leaf.utf16.hasSurrogateCodeUnits && !containsUtf16SurrogateCodeUnit text
    (chunkText (leaf.text.take index ++ text ++ leaf.text.drop index) knownBmp).map .leaf
  | .branch children cumulativeEnds length _ _ =>
    let childIndex :=
      if index = length then children.length - 1 else lowerBound cumulativeEnds (index + 1)
    match _h : children[childIndex]? with
    | none => []
    | some child =>
      let replacements := insertIntoNode (index - childStartAt cumulativeEnds childIndex) text
        child
      let spliced := spliceChildren children childIndex (childIndex + 1) replacements
      if spliced.length ≤ UTF16_ROPE_BRANCH_FACTOR then [branch spliced]
      else nextLevel spliced
termination_by node => sizeOf node
decreasing_by
  have hmem := List.sizeOf_lt_of_mem (List.mem_of_getElem? _h)
  simp only [RopeNode.branch.sizeOf_spec]
  omega

structure DeleteResult where
  node : Option RopeNode
  hasUnderfilledLeaf : Bool

def DELETED_WHOLE : DeleteResult := ⟨none, false⟩

def leafWithout (leaf : LeafNode) (start stop : Nat) : DeleteResult :=
  let remaining := leaf.text.take start ++ leaf.text.drop stop
  if remaining = [] then ⟨none, false⟩
  else
    ⟨some (.leaf ⟨remaining, if leaf.utf16.hasSurrogateCodeUnits then analyzeUtf16 remaining
        else bmpUtf16Metadata remaining⟩),
      decide (remaining.length < UTF16_ROPE_MIN_LEAF)⟩

def keptChildren (head tail : DeleteResult) : List RopeNode := head.node.toList ++ tail.node.toList

mutual

def deleteFromNode (node : RopeNode) (start stop : Nat) : DeleteResult :=
  if start = 0 ∧ node.length ≤ stop then DELETED_WHOLE
  else
    match node with
    | .leaf leaf => leafWithout leaf start stop
    | .branch children cumulativeEnds _ _ _ =>
      let first := lowerBound cumulativeEnds (start + 1)
      let last := lowerBound cumulativeEnds stop
      let head := deleteFromChild children cumulativeEnds first start stop
      let tail := if last = first then DELETED_WHOLE
        else deleteFromChild children cumulativeEnds last start stop
      let spliced := spliceChildren children first (last + 1) (keptChildren head tail)
      ⟨if spliced = [] then none else some (branch spliced),
        head.hasUnderfilledLeaf || tail.hasUnderfilledLeaf⟩
termination_by sizeOf node

def deleteFromChild (children : List RopeNode) (cumulativeEnds : List Nat)
    (childIndex start stop : Nat) : DeleteResult :=
  match _h : children[childIndex]? with
  | none => DELETED_WHOLE
  | some child =>
    let childStart := childStartAt cumulativeEnds childIndex
    if start ≤ childStart ∧ childStart + child.length ≤ stop then DELETED_WHOLE
    else deleteFromNode child (start - childStart) (min child.length (stop - childStart))
termination_by sizeOf children
decreasing_by exact List.sizeOf_lt_of_mem (List.mem_of_getElem? _h)

end

def locateLeaf (offset start : Nat) : RopeNode → Option (LeafNode × Nat)
  | .leaf leaf => some (leaf, start)
  | .branch children cumulativeEnds _ _ _ =>
    let childIndex := lowerBound cumulativeEnds (offset + 1)
    let previousEnd := childStartAt cumulativeEnds childIndex
    match _h : children[childIndex]? with
    | none => none
    | some child => locateLeaf (offset - previousEnd) (start + previousEnd) child
termination_by node => sizeOf node
decreasing_by
  have hmem := List.sizeOf_lt_of_mem (List.mem_of_getElem? _h)
  simp only [RopeNode.branch.sizeOf_spec]
  omega

def rebalancePair (root : RopeNode) (target : LeafNode × Nat) :
    Option ((LeafNode × Nat) × (LeafNode × Nat)) :=
  let targetEnd := target.2 + target.1.text.length
  if targetEnd < root.length then (locateLeaf targetEnd 0 root).map fun right => (target, right)
  else (locateLeaf (target.2 - 1) 0 root).map fun left => (left, target)

def rebalanceLeafContaining (root : RopeNode) (index : Nat) : RopeNode :=
  match root with
  | .leaf _ => root
  | .branch _ _ length _ _ =>
    if length ≤ index then root
    else
      match locateLeaf index 0 root with
      | none => root
      | some target =>
        if UTF16_ROPE_MIN_LEAF ≤ target.1.text.length then root
        else
          match rebalancePair root target with
          | none => root
          | some (left, right) =>
            let removed := collapseRoot ((deleteFromNode root left.2
              (right.2 + right.1.text.length)).node.getD EMPTY_LEAF)
            buildFromSameHeightNodes (insertIntoNode left.2 (left.1.text ++ right.1.text) removed)

mutual

def collectLeaves : RopeNode → List LeafNode
  | .leaf leaf => if 0 < leaf.text.length then [leaf] else []
  | .branch children _ _ _ _ => collectChildLeaves children

def collectChildLeaves : List RopeNode → List LeafNode
  | [] => []
  | child :: rest => collectLeaves child ++ collectChildLeaves rest

end

mutual

def collectSliceLeaves (start stop nodeStart : Nat) : RopeNode → List LeafNode
  | .leaf leaf =>
    if stop ≤ nodeStart ∨ nodeStart + leaf.text.length ≤ start then []
    else if start ≤ nodeStart ∧ nodeStart + leaf.text.length ≤ stop then
      collectLeaves (.leaf leaf)
    else
      let retained := sliceText leaf.text (start - nodeStart)
        (min leaf.text.length (stop - nodeStart))
      if 0 < retained.length then
        [⟨retained, if leaf.utf16.hasSurrogateCodeUnits then analyzeUtf16 retained
          else bmpUtf16Metadata retained⟩]
      else []
  | .branch children cumulativeEnds length height utf16 =>
    if stop ≤ nodeStart ∨ nodeStart + length ≤ start then []
    else if start ≤ nodeStart ∧ nodeStart + length ≤ stop then
      collectLeaves (.branch children cumulativeEnds length height utf16)
    else collectChildSliceLeaves start stop nodeStart children

def collectChildSliceLeaves (start stop childStart : Nat) : List RopeNode → List LeafNode
  | [] => []
  | child :: rest =>
    collectSliceLeaves start stop childStart child ++
      if stop ≤ childStart + child.length then []
      else collectChildSliceLeaves start stop (childStart + child.length) rest

end

mutual

def collectSlice (start stop nodeStart : Nat) : RopeNode → Text
  | .leaf leaf =>
    if stop ≤ nodeStart ∨ nodeStart + leaf.text.length ≤ start then []
    else sliceText leaf.text (start - nodeStart) (min leaf.text.length (stop - nodeStart))
  | .branch children _ length _ _ =>
    if stop ≤ nodeStart ∨ nodeStart + length ≤ start then []
    else collectChildSlice start stop nodeStart children

def collectChildSlice (start stop childStart : Nat) : List RopeNode → Text
  | [] => []
  | child :: rest =>
    collectSlice start stop childStart child ++
      if stop ≤ childStart + child.length then []
      else collectChildSlice start stop (childStart + child.length) rest

end

/-- Lengths are safe integers, so an integer in range is one. -/
def assertIndex (index : Int) (length : Nat) : Except RopeError Nat :=
  if 0 ≤ index ∧ index ≤ length then .ok index.toNat else .error (.index index length)

def assertRange (index length : Int) (total : Nat) : Except RopeError (Nat × Nat) :=
  if 0 ≤ index ∧ 0 ≤ length ∧ index + length ≤ total then .ok (index.toNat, length.toNat)
  else .error (.range index (index + length) total)

def assertSlice (start stop : Int) (total : Nat) : Except RopeError (Nat × Nat) :=
  if 0 ≤ start ∧ start ≤ stop ∧ stop ≤ total then .ok (start.toNat, stop.toNat)
  else .error (.slice start stop total)

def assertLeafRange (start stop : Int) (leafCount : Nat) : Except RopeError (Nat × Nat) :=
  if 0 ≤ start ∧ start ≤ stop ∧ stop ≤ leafCount then .ok (start.toNat, stop.toNat)
  else .error (.leafRange start stop leafCount)

structure PersistentUtf16Rope where
  root : RopeNode

namespace PersistentUtf16Rope

def length (rope : PersistentUtf16Rope) : Nat := rope.root.length

def hasSurrogateCodeUnits (rope : PersistentUtf16Rope) : Bool := rope.root.utf16.hasSurrogateCodeUnits

def hasSurrogatePairs (rope : PersistentUtf16Rope) : Bool := rope.root.utf16.hasSurrogatePairs

/-- `from`. -/
def ofText (text : Text) : PersistentUtf16Rope :=
  if text = [] then ⟨EMPTY_LEAF⟩ else ⟨buildTree (chunkText text false)⟩

def insert (rope : PersistentUtf16Rope) (index : Int) (text : Text) :
    Except RopeError PersistentUtf16Rope := do
  let index ← assertIndex index rope.length
  if text = [] then return rope
  return ⟨buildFromSameHeightNodes (insertIntoNode index text rope.root)⟩

/-- `delete` once its range is checked. -/
def deleteRange (rope : PersistentUtf16Rope) (index length : Nat) : PersistentUtf16Rope :=
  if length = 0 then rope
  else if length = rope.length then ⟨EMPTY_LEAF⟩
  else
    let deleted := deleteFromNode rope.root index (index + length)
    let next := collapseRoot (deleted.node.getD EMPTY_LEAF)
    match next with
    | .leaf _ => ⟨next⟩
    | .branch _ _ _ _ _ =>
      if !deleted.hasUnderfilledLeaf then ⟨next⟩
      else
        let rebalanced := rebalanceLeafContaining next (min index (next.length - 1))
        if 0 < index then
          ⟨rebalanceLeafContaining rebalanced (min (index - 1) (rebalanced.length - 1))⟩
        else ⟨rebalanced⟩

def delete (rope : PersistentUtf16Rope) (index length : Int) :
    Except RopeError PersistentUtf16Rope := do
  let range ← assertRange index length rope.length
  return rope.deleteRange range.1 range.2

def slice (rope : PersistentUtf16Rope) (start stop : Int) : Except RopeError Text := do
  let range ← assertSlice start stop rope.length
  return if range.1 = range.2 then [] else collectSlice range.1 range.2 0 rope.root

def sliceRope (rope : PersistentUtf16Rope) (start stop : Int) :
    Except RopeError PersistentUtf16Rope := do
  let range ← assertSlice start stop rope.length
  if range.1 = 0 ∧ range.2 = rope.length then return rope
  if range.1 = range.2 then return ⟨EMPTY_LEAF⟩
  return ⟨buildTree (collectSliceLeaves range.1 range.2 0 rope.root)⟩

def codeUnitAt (rope : PersistentUtf16Rope) (index : Int) : Option CodeUnit :=
  if 0 ≤ index ∧ index < rope.length then
    (locateLeaf index.toNat 0 rope.root).bind fun located => located.1.text[index.toNat - located.2]?
  else none

/-- `toString`. -/
def toText (rope : PersistentUtf16Rope) : Text :=
  match rope.root with
  | .leaf leaf => leaf.text
  | node => (collectLeaves node).flatMap (·.text)

/-- Ends of a list of leaves, from `start` on. -/
def boundariesFrom (start : Nat) : List LeafNode → List Nat
  | [] => [start]
  | leaf :: rest => start :: boundariesFrom (start + leaf.text.length) rest

def getLeafBoundaries (rope : PersistentUtf16Rope) : List Nat :=
  boundariesFrom 0 (collectLeaves rope.root)

end PersistentUtf16Rope

structure RopeAssembly where
  leaves : List LeafNode
  textParts : List Text

namespace RopeAssembly

def start : RopeAssembly := ⟨[], []⟩

def flushText (assembly : RopeAssembly) : RopeAssembly :=
  if assembly.textParts = [] then assembly
  else ⟨assembly.leaves ++ chunkText assembly.textParts.flatten false, []⟩

def appendText (assembly : RopeAssembly) (text : Text) : RopeAssembly :=
  if 0 < text.length then { assembly with textParts := assembly.textParts ++ [text] } else assembly

def appendLeafRange (assembly : RopeAssembly) (rope : PersistentUtf16Rope) (startLeaf endLeaf : Int) :
    Except RopeError RopeAssembly := do
  let sourceLeaves := collectLeaves rope.root
  let range ← assertLeafRange startLeaf endLeaf sourceLeaves.length
  if range.1 = range.2 then return assembly
  let flushed := assembly.flushText
  return { flushed with leaves := flushed.leaves ++ (sourceLeaves.take range.2).drop range.1 }

def appendRope (assembly : RopeAssembly) (rope : PersistentUtf16Rope) :
    Except RopeError RopeAssembly :=
  if rope.length = 0 then .ok assembly
  else assembly.appendLeafRange rope 0 (collectLeaves rope.root).length

def appendSlice (assembly : RopeAssembly) (rope : PersistentUtf16Rope) (start stop : Int) :
    Except RopeError RopeAssembly := do
  let range ← assertSlice start stop rope.length
  if range.1 = range.2 then return assembly
  if range.1 = 0 ∧ range.2 = rope.length then
    assembly.appendLeafRange rope 0 (collectLeaves rope.root).length
  else
    let flushed := assembly.flushText
    return { flushed with
      leaves := flushed.leaves ++ collectSliceLeaves range.1 range.2 0 rope.root }

def finish (assembly : RopeAssembly) : PersistentUtf16Rope := ⟨buildTree assembly.flushText.leaves⟩

end RopeAssembly

/-- A call of an assembler; `ρ` stands for its ropes. -/
inductive AssemblerCall (ρ : Type) where
  | appendText (text : Text)
  | appendRope (rope : ρ)
  | appendSlice (rope : ρ) (start stop : Int)
  | appendLeafRange (rope : ρ) (startLeaf endLeaf : Int)

def AssemblerCall.map {ρ σ : Type} (f : ρ → σ) : AssemblerCall ρ → AssemblerCall σ
  | .appendText text => .appendText text
  | .appendRope rope => .appendRope (f rope)
  | .appendSlice rope start stop => .appendSlice (f rope) start stop
  | .appendLeafRange rope startLeaf endLeaf => .appendLeafRange (f rope) startLeaf endLeaf

def RopeAssembly.run (assembly : RopeAssembly) :
    AssemblerCall PersistentUtf16Rope → Except RopeError RopeAssembly
  | .appendText text => .ok (assembly.appendText text)
  | .appendRope rope => assembly.appendRope rope
  | .appendSlice rope start stop => assembly.appendSlice rope start stop
  | .appendLeafRange rope startLeaf endLeaf => assembly.appendLeafRange rope startLeaf endLeaf

inductive Segment (ρ : Type) where
  | text (text : Text)
  | rope (rope : ρ)

def Segment.map {ρ σ : Type} (f : ρ → σ) : Segment ρ → Segment σ
  | .text value => .text value
  | .rope source => .rope (f source)

def Segment.call {ρ : Type} : Segment ρ → AssemblerCall ρ
  | .text value => .appendText value
  | .rope source => .appendRope source

namespace PersistentUtf16Rope

/-- `assemble` with a `write` that makes these calls and lets the first error through. -/
def assemble (calls : List (AssemblerCall PersistentUtf16Rope)) :
    Except RopeError PersistentUtf16Rope :=
  RopeAssembly.finish <$> calls.foldlM RopeAssembly.run .start

def fromSegments (segments : List (Segment PersistentUtf16Rope)) :
    Except RopeError PersistentUtf16Rope :=
  match segments with
  | [.rope rope] => .ok rope
  | segments => assemble (segments.map Segment.call)

end PersistentUtf16Rope

end Softmaple.Rope
