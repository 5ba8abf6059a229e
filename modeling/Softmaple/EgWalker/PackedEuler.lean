import Mathlib.Logic.Function.Basic
import Softmaple.Codec.RemoteEvent
import Softmaple.Lib.StateMethod

/-!
The packed Euler rank index (`engine/internals/packed-euler-rank-index.ts`): START, VISIT and END
markers in the leaves of a tree of bounded width, each with a packed location. A node's parent is the
node that has it as a child, and `leavesById` finds the leaf of the tree with an ID; the index of a
node among its parent's children is stored, as the source stores it. The count of structural
operations is left out.
-/
namespace Softmaple.PackedEuler

open List StateMethod
open Codec (JsNumber)

def MARKERS_PER_NODE : Nat := 3
def MAX_MARKER_ID : Nat := 0xffffffff
def MAX_NODE_HANDLE : Nat := (MAX_MARKER_ID - (MARKERS_PER_NODE - 1)) / MARKERS_PER_NODE
def LEAF_CAPACITY : Nat := 32
def MAX_INSERT_RUN : Nat := MARKERS_PER_NODE
def BRANCH_FACTOR : Nat := 32
def LOCATION_SLOT_STRIDE : Nat := 128

inductive PackedEulerBoundary
  | Start
  | Visit
  | End
  deriving DecidableEq

open PackedEulerBoundary

def markerId (node : Nat) : PackedEulerBoundary → Nat
  | Start => node * MARKERS_PER_NODE
  | Visit => node * MARKERS_PER_NODE + 1
  | End => node * MARKERS_PER_NODE + 2

/-- Of the VISIT markers all count but the root's. -/
def markerVisitWeight (marker : Nat) : Nat := if marker ≠ 1 ∧ marker % MARKERS_PER_NODE = 1 then 1 else 0

def visitWeight (markers : List Nat) : Nat := (markers.map markerVisitWeight).sum

structure LeafNode where
  id : Nat
  markers : List Nat
  childIndex : Nat
  visitCount : Nat

inductive TreeNode
  | leaf (node : LeafNode)
  | internal (children : List TreeNode) (childIndex visitCount : Nat)

structure InternalNode where
  children : List TreeNode
  childIndex : Nat
  visitCount : Nat

namespace TreeNode

def childIndex : TreeNode → Nat
  | leaf node => node.childIndex
  | internal _ childIndex _ => childIndex

def visitCount : TreeNode → Nat
  | leaf node => node.visitCount
  | internal _ _ visitCount => visitCount

def setChildIndex (childIndex : Nat) : TreeNode → TreeNode
  | leaf node => leaf { node with childIndex }
  | internal children _ visitCount => internal children childIndex visitCount

mutual

/-- The IDs and the markers of the leaves, in the order of `visitLeaves`. -/
def leaves : TreeNode → List (Nat × List Nat)
  | leaf node => [(node.id, node.markers)]
  | internal children _ _ => leavesOf children

def leavesOf : List TreeNode → List (Nat × List Nat)
  | [] => []
  | child :: children => child.leaves ++ leavesOf children

end

mutual

/-- The leaf with the ID, and the nodes from its parent up to this one. -/
def leafForId (leafId : Nat) : TreeNode → Option (LeafNode × List InternalNode)
  | leaf node => if node.id = leafId then some (node, []) else none
  | internal children childIndex visitCount =>
    (childForId leafId children).map fun (node, parents) =>
      (node, parents ++ [⟨children, childIndex, visitCount⟩])

def childForId (leafId : Nat) : List TreeNode → Option (LeafNode × List InternalNode)
  | [] => none
  | child :: children => (child.leafForId leafId).or (childForId leafId children)

end

def reindexFrom (start : Nat) (children : List TreeNode) : List TreeNode :=
  children.mapIdx fun index child => if start ≤ index then child.setChildIndex index else child

def createInternalNode (children : List TreeNode) : TreeNode :=
  internal (reindexFrom 0 children) 0 (children.map visitCount).sum

def splitInternal (node : InternalNode) : TreeNode × Option TreeNode :=
  let midpoint := (node.children.length + 1) / 2
  let sibling := createInternalNode (node.children.drop midpoint)
  (internal (node.children.take midpoint) node.childIndex (node.visitCount - sibling.visitCount),
    some sibling)

/-- `insertSiblingAfter` where the node has a parent. -/
def insertSiblingAfter (parent : InternalNode) (node sibling : TreeNode) :
    TreeNode × Option TreeNode :=
  let insertionIndex := node.childIndex + 1
  let children := reindexFrom insertionIndex
    (parent.children.take insertionIndex ++ sibling :: parent.children.drop insertionIndex)
  if BRANCH_FACTOR < children.length then splitInternal { parent with children }
  else (internal children parent.childIndex parent.visitCount, none)

/-- What becomes of a parent when its child has changed and may have a sibling. -/
def attach (visitDelta : Nat) (grown : TreeNode × Option TreeNode) (parent : InternalNode) :
    TreeNode × Option TreeNode :=
  let children := parent.children.set grown.1.childIndex grown.1
  let visitCount := parent.visitCount + visitDelta
  match grown.2 with
  | some sibling => insertSiblingAfter ⟨children, parent.childIndex, visitCount⟩ grown.1 sibling
  | none => (internal children parent.childIndex visitCount, none)

def splitLeaf (siblingId : Nat) (node : LeafNode) : TreeNode × Option TreeNode :=
  let midpoint := (node.markers.length + 1) / 2
  let moved := node.markers.drop midpoint
  let visitCount := visitWeight moved
  (leaf { node with markers := node.markers.take midpoint, visitCount := node.visitCount - visitCount },
    some (leaf ⟨siblingId, moved, 0, visitCount⟩))

/-- A turn of the loop of `visitRankBefore`. -/
def rankAbove (current : TreeNode × Nat) (parent : InternalNode) : TreeNode × Nat :=
  (internal parent.children parent.childIndex parent.visitCount,
    current.2 + ((parent.children.take current.1.childIndex).map visitCount).sum)

end TreeNode

/-- The errors, each with the number its message names. -/
inductive PackedEulerError
  | nodeCapacityExceeded
  | leafCapacityExceeded
  | syntheticRootSplit
  | nodeUnavailable (node : JsNumber)
  | markerInUse (marker : Nat)
  | markerUnavailable (marker : Nat)
  | leafUnavailable (leafId : Nat)
  | slotOutOfBounds (slot : Nat)
  | runLengthInvalid (count : Nat)

open PackedEulerError

/-- A location of 0 is none. -/
structure PackedEulerRankIndex where
  root : TreeNode
  locations : Nat → Nat
  nextLeafId : Nat
  nextNodeHandle : Nat

abbrev Method := EStateM PackedEulerError PackedEulerRankIndex

def leafIdFor (index : PackedEulerRankIndex) (marker : Nat) : Nat :=
  index.locations marker / LOCATION_SLOT_STRIDE

def slotForLocation (location : Nat) : Nat := location % LOCATION_SLOT_STRIDE

def setLocations (leafId : Nat) : Nat → List Nat → (Nat → Nat) → Nat → Nat
  | _, [], locations => locations
  | slot, marker :: markers, locations =>
    setLocations leafId (slot + 1) markers
      (Function.update locations marker (leafId * LOCATION_SLOT_STRIDE + slot))

namespace PackedEulerRankIndex

def getMarkerOrder (index : PackedEulerRankIndex) : List Nat := index.root.leaves.flatMap (·.2)

/-- The leaf of an ID with the nodes above it. -/
def leavesById (index : PackedEulerRankIndex) (id : Nat) : Option (LeafNode × List InternalNode) :=
  index.root.leafForId id

def reset : PackedEulerRankIndex where
  root := .leaf ⟨1, [0, 1, 2], 0, 0⟩
  locations := setLocations 1 0 [0, 1, 2] fun _ => 0
  nextLeafId := 2
  nextNodeHandle := 1

/-- The tree with a changed leaf. A sibling of the root makes a new root. -/
def updateLeaf (index : PackedEulerRankIndex) (leafId : Nat)
    (change : LeafNode → TreeNode × Option TreeNode) (visitDelta : Nat) : TreeNode :=
  match index.leavesById leafId with
  | none => index.root
  | some (node, parents) =>
    match parents.foldl (TreeNode.attach visitDelta) (change node) with
    | (root, some sibling) => .createInternalNode [root, sibling]
    | (root, none) => root

end PackedEulerRankIndex

section Methods

def allocateNode : Method Nat := do
  let index ← get
  if MAX_NODE_HANDLE < index.nextNodeHandle then throw nodeCapacityExceeded
  else
    set { index with nextNodeHandle := index.nextNodeHandle + 1 }
    return index.nextNodeHandle

/-- The natural number that an allocated handle is. -/
def handleOf : JsNumber → Nat
  | .finite node => node.num.toNat
  | _ => 0

def isAllocated (index : PackedEulerRankIndex) : JsNumber → Bool
  | .finite node => node.den = 1 ∧ 0 ≤ node.num ∧ node.num < index.nextNodeHandle
  | _ => false

def assertAllocatedNode (node : JsNumber) : Method Nat := do
  if isAllocated (← get) node then return handleOf node
  else throw (nodeUnavailable node)

def assertMarkerRunAvailable (firstMarker count : Nat) : Method Unit := do
  let index ← get
  match (range' firstMarker count).find? fun marker =>
      leafIdFor index marker ≠ 0 with
  | some marker => throw (markerInUse marker)
  | none => return

def requireLocation (marker : Nat) : Method Nat := do
  let index ← get
  let location := index.locations marker
  let leafId := location / LOCATION_SLOT_STRIDE
  let held := (index.leavesById leafId).bind fun leaf => leaf.1.markers[slotForLocation location]?
  if leafId = 0 ∨ held ≠ some marker then throw (markerUnavailable marker)
  else return location

def leafForLocation (location : Nat) : Method (LeafNode × List InternalNode) := do
  let leafId := location / LOCATION_SLOT_STRIDE
  match (← get).leavesById leafId with
  | some found => return found
  | none => throw (leafUnavailable leafId)

def visitRankBefore (location : Nat) : Method Nat := do
  let found ← leafForLocation location
  let rank := visitWeight (found.1.markers.take (slotForLocation location))
  return (found.2.foldl TreeNode.rankAbove (.leaf found.1, rank)).2

def createLeaf : Method Nat := do
  let id := (← get).nextLeafId
  modify fun index => { index with nextLeafId := id + 1 }
  if MAX_MARKER_ID < id then throw leafCapacityExceeded
  else return id

def splitLeaf (leafId : Nat) (markers : List Nat) : Method Unit := do
  let siblingId ← createLeaf
  modify fun index => { index with
    root := index.updateLeaf leafId (TreeNode.splitLeaf siblingId) 0
    locations := setLocations siblingId 0 (markers.drop ((markers.length + 1) / 2)) index.locations }

def setMarkers (markers : List Nat) (visitDelta : Nat) (node : LeafNode) : TreeNode × Option TreeNode :=
  (.leaf { node with markers, visitCount := node.visitCount + visitDelta }, none)

def insertRun (node : LeafNode) (slot firstMarker count : Nat) : Method Unit := do
  if node.markers.length < slot then throw (slotOutOfBounds slot)
  else if count ≤ 0 ∨ MAX_INSERT_RUN < count then throw (runLengthInvalid count)
  else
    let run := range' firstMarker count
    let markers := node.markers.take slot ++ run ++ node.markers.drop slot
    modify fun index => { index with
      root := index.updateLeaf node.id (setMarkers markers (visitWeight run)) (visitWeight run)
      locations := setLocations node.id slot (markers.drop slot) index.locations }
    if LEAF_CAPACITY < markers.length then splitLeaf node.id markers
    else return

def insertNodeBeforeInternal (targetNode : JsNumber) (targetBoundary : PackedEulerBoundary)
    (node : JsNumber) (collectRank : Bool) : Method (Option Nat) := do
  let targetNode ← assertAllocatedNode targetNode
  let node ← assertAllocatedNode node
  let firstMarker := markerId node Start
  assertMarkerRunAvailable firstMarker MARKERS_PER_NODE
  let target ← requireLocation (markerId targetNode targetBoundary)
  let rank ← if collectRank then some <$> visitRankBefore target else pure none
  let leaf ← leafForLocation target
  insertRun leaf.1 (slotForLocation target) firstMarker MARKERS_PER_NODE
  return rank

def insertSplitContinuation (leftNode rightNode : JsNumber) : Method Unit := do
  let leftNode ← assertAllocatedNode leftNode
  let rightNode ← assertAllocatedNode rightNode
  if leftNode = 0 then throw syntheticRootSplit
  else
    let rightStart := markerId rightNode Start
    assertMarkerRunAvailable rightStart MARKERS_PER_NODE
    let leftVisit ← requireLocation (markerId leftNode Visit)
    let leaf ← leafForLocation leftVisit
    insertRun leaf.1 (slotForLocation leftVisit + 1) rightStart 2
    -- the first insertion may have split the leaf
    let leftEnd ← requireLocation (markerId leftNode End)
    let leaf ← leafForLocation leftEnd
    insertRun leaf.1 (slotForLocation leftEnd) (markerId rightNode End) 1

def rankOfVisit (node : JsNumber) : Method Nat := do
  let node ← assertAllocatedNode node
  let location ← requireLocation (markerId node Visit)
  visitRankBefore location

end Methods

end Softmaple.PackedEuler
