import Mathlib.Data.List.Pairwise
import Softmaple.Lib.InsertionMap

/-!
The typed runs of the event-item index (`engine/internals/event-item-index.ts`) and what splits
(`record-splitter.ts`) and extensions do to them. An agent's runs are in a treap by their first
sequence; each node also knows where the next run begins, which is all that an extension looks at.
-/
namespace Softmaple.EventItemIndex

open List

abbrev ItemKey := Nat

def maxSafeInteger : Nat := 9007199254740991

/-- A node of a treap. What it changes is kept by the index: its children in the tree, and its
`nextStartSequence`. -/
structure RunItemNode where
  item : ItemKey
  epoch : Nat
  startSequence : Nat
  priority : UInt32
  deriving DecidableEq

structure AugmentedCRDTItem where
  agent : Int
  sequence : Nat
  contentLength : Nat
  run : Bool
  runNode : Option RunItemNode

inductive Treap where
  | null
  | node (left : Treap) (root : RunItemNode) (right : Treap)

namespace Treap

def toList : Treap → List RunItemNode
  | null => []
  | node left root right => left.toList ++ root :: right.toList

def root? : Treap → Option RunItemNode
  | null => none
  | node _ root _ => some root

/-- The last node that does not begin after `sequence`. -/
def floor (sequence : Nat) : Treap → Option RunItemNode → Option RunItemNode
  | null, candidate => candidate
  | node left root right, candidate =>
    if root.startSequence ≤ sequence then right.floor sequence (some root)
    else left.floor sequence candidate

def findRunPredecessor (root : Treap) (sequence : Nat) : Option RunItemNode :=
  root.floor sequence none

def findRunSuccessor (startSequence : Nat) : Treap → Option RunItemNode → Option RunItemNode
  | null, successor => successor
  | node left root right, successor =>
    if startSequence < root.startSequence then left.findRunSuccessor startSequence (some root)
    else right.findRunSuccessor startSequence successor

def rotateRunLeft : Treap → Except String Treap
  | node left root (node inner pivot right) => .ok (node (node left root inner) pivot right)
  | _ => .error "Cannot rotate typed-run index left"

def rotateRunRight : Treap → Except String Treap
  | node (node left pivot inner) root right => .ok (node left pivot (node inner root right))
  | _ => .error "Cannot rotate typed-run index right"

end Treap

/-- `compareRunPriority(left, right) < 0`. -/
def RunItemNode.precedes (left right : RunItemNode) : Bool :=
  if left.priority ≠ right.priority then decide (left.priority < right.priority)
  else decide (left.startSequence < right.startSequence)

def Treap.insertRunNode (added : RunItemNode) : Treap → Except String Treap
  | null => .ok (node null added null)
  | node left root right =>
    if added.startSequence < root.startSequence then do
      let left ← left.insertRunNode added
      if left.root?.any (·.precedes root) then rotateRunRight (node left root right)
      else return node left root right
    else if root.startSequence < added.startSequence then do
      let right ← right.insertRunNode added
      if right.root?.any (·.precedes root) then rotateRunLeft (node left root right)
      else return node left root right
    else if root.item = added.item then .ok (node left root right)
    else
      let startSequence := added.startSequence
      .error s!"Duplicate typed-run start sequence {startSequence}"

def sequencePriority (sequence : Nat) : UInt32 :=
  let low := UInt32.ofNat sequence
  let high := UInt32.ofNat (sequence / 0x100000000)
  let hash := (0x811c9dc5 ^^^ low) * 0x01000193
  let hash := (hash ^^^ high) * 0x01000193
  let hash := (hash ^^^ (hash >>> 16)) * 0x7feb352d
  hash ^^^ (hash >>> 15)

/-- The records of the engine, the run treaps over them and the lifetime of the treaps. A
`nextStartSequence` of `none` is infinity. -/
structure RunIndex where
  items : List AugmentedCRDTItem
  runRootsByAgent : Int → Treap
  nextStartSequence : RunItemNode → Option Nat
  epoch : Nat

namespace RunIndex

def runs (state : RunIndex) (agent : Int) : List RunItemNode := (state.runRootsByAgent agent).toList

def endOf (state : RunIndex) (node : RunItemNode) : Nat :=
  node.startSequence + (state.items[node.item]?.map (·.contentLength)).getD 0

def getRunItem (state : RunIndex) (agent : Int) (sequence : Nat) : Option ItemKey :=
  (((state.runRootsByAgent agent).floor sequence none).filter (sequence < state.endOf ·)).map (·.item)

def overlaps (id other sequence : Nat) : String :=
  s!"Typed run {id} overlaps {other} at sequence {sequence}"

/-- The node enters the tree `root`, between its neighbours. -/
def place (state : RunIndex) (node : RunItemNode) (item : AugmentedCRDTItem) (root : Treap)
    (predecessor successor : Option RunItemNode) : RunIndex :=
  let linked := Function.update state.nextStartSequence node (successor.map (·.startSequence))
  { state with
    items := state.items.set node.item { item with runNode := some node }
    runRootsByAgent := Function.update state.runRootsByAgent item.agent root
    nextStartSequence := predecessor.elim linked fun predecessor =>
      Function.update linked predecessor (some node.startSequence) }

/-- `registerRunItem` from the search for the successor on. -/
def insertRun (state : RunIndex) (id : ItemKey) (item : AugmentedCRDTItem)
    (predecessor : Option RunItemNode) : Except String RunIndex :=
  let root := state.runRootsByAgent item.agent
  let successor := root.findRunSuccessor item.sequence none
  match successor.filter (·.startSequence < item.sequence + item.contentLength) with
  | some successor => .error (overlaps id successor.item successor.startSequence)
  | none => do
    let node : RunItemNode := ⟨id, state.epoch, item.sequence, sequencePriority item.sequence⟩
    let root ← root.insertRunNode node
    return state.place node item root predecessor successor

def registerRunItem (state : RunIndex) (id : ItemKey) : Except String RunIndex :=
  match state.items[id]? with
  | none => .ok state
  | some item =>
    let startSequence := item.sequence
    let endSequence := startSequence + item.contentLength
    if !item.run then .ok state
    else if item.contentLength ≤ 0 then .error s!"Typed run {id} must have positive length"
    else if maxSafeInteger < endSequence then
      .error s!"Typed run {id} exceeds the safe sequence range"
    else
      match (state.runRootsByAgent item.agent).findRunPredecessor startSequence with
      | none => state.insertRun id item none
      | some predecessor =>
        if predecessor.startSequence = startSequence then
          if predecessor.item = id then
            match (state.nextStartSequence predecessor).filter (· < endSequence) with
            | some next => .error s!"Typed run {id} overlaps the run at sequence {next}"
            | none => .ok state
          else .error s!"Duplicate typed-run start sequence {startSequence}"
        else if startSequence < state.endOf predecessor then
          .error (overlaps id predecessor.item startSequence)
        else state.insertRun id item (some predecessor)

def canExtendRunItem (state : RunIndex) (item : AugmentedCRDTItem) (additionalLength : Nat) :
    Bool :=
  if maxSafeInteger < additionalLength ∨ additionalLength ≤ 0 then false
  else
    match item.runNode with
    | none => false
    | some node =>
      if node.epoch ≠ state.epoch ∨ !item.run then false
      else
        let nextEnd := node.startSequence + item.contentLength + additionalLength
        decide (nextEnd ≤ maxSafeInteger) && (state.nextStartSequence node).all (nextEnd ≤ ·)

/-- An extension in place, where the index admits it. -/
def extendRunItem (state : RunIndex) (id : ItemKey) (additionalLength : Nat) : RunIndex :=
  match state.items[id]? with
  | none => state
  | some item =>
    if state.canExtendRunItem item additionalLength then
      let contentLength := item.contentLength + additionalLength
      { state with items := state.items.set id { item with contentLength } }
    else state

def halves (state : RunIndex) (left : ItemKey) (item : AugmentedCRDTItem) (offset : Nat) : RunIndex :=
  { state with
    items := state.items.set left { item with contentLength := offset } ++
      [{ item with
          sequence := if item.run then item.sequence + offset else item.sequence
          contentLength := item.contentLength - offset
          runNode := none }] }

/-- `splitRecord`, with what it throws beside the state it leaves; `found` is the answer of
the record sequence. -/
def splitRecord (state : RunIndex) (left : ItemKey) (offset : Nat) (found : Bool) :
    RunIndex × Option String :=
  match state.items[left]? with
  | none => (state, none)
  | some item =>
    if offset ≤ 0 ∨ item.contentLength ≤ offset then
      (state, some s!"Record split offset {offset} is invalid for {left}")
    else if !found then (state, some s!"Record {left} missing from sequence index")
    else
      let split := state.halves left item offset
      if item.run then
        match split.registerRunItem state.items.length with
        | .ok registered => (registered, none)
        | .error message => (split, some message)
      else (split, none)

def clear (state : RunIndex) : RunIndex :=
  { state with runRootsByAgent := fun _ => .null, epoch := state.epoch + 1 }

end RunIndex

/-- What the engine does with the records and the index. -/
inductive Call where
  | add (agent : Int) (sequence contentLength : Nat) (run : Bool)
  | registerRunItem (id : ItemKey)
  | extendRunItem (id : ItemKey) (additionalLength : Nat)
  | splitRecord (left : ItemKey) (offset : Nat) (found : Bool)
  | clear

/-- A call that throws leaves what it has changed before. -/
def step (state : RunIndex) : Call → RunIndex
  | .add agent sequence contentLength run =>
    { state with items := state.items ++ [⟨agent, sequence, contentLength, run, none⟩] }
  | .registerRunItem id => (state.registerRunItem id).toOption.getD state
  | .extendRunItem id additionalLength => state.extendRunItem id additionalLength
  | .splitRecord left offset found => (state.splitRecord left offset found).1
  | .clear => state.clear

def run (calls : List Call) : RunIndex :=
  calls.foldl step ⟨[], fun _ => .null, fun _ => none, 0⟩

section Trees

variable {added : RunItemNode} {sequence : Nat} {tree left right : Treap} {root : RunItemNode}

/-- The nodes that do not begin after `sequence`. -/
def upTo (sequence : Nat) (nodes : List RunItemNode) : List RunItemNode :=
  nodes.filter (·.startSequence ≤ sequence)

def past (sequence : Nat) (nodes : List RunItemNode) : List RunItemNode :=
  nodes.filter (sequence < ·.startSequence)

@[simp]
theorem mem_upTo {nodes : List RunItemNode} {node : RunItemNode} :
    node ∈ upTo sequence nodes ↔ node ∈ nodes ∧ node.startSequence ≤ sequence := by
  simp [upTo]

namespace Treap

/-- The nodes are in the order of a search. -/
def SearchOrdered (tree : Treap) : Prop := tree.toList.Pairwise (·.startSequence < ·.startSequence)

section

variable (h : (node left root right).SearchOrdered)
include h

theorem SearchOrdered.sides : left.SearchOrdered ∧ right.SearchOrdered ∧
    (∀ other ∈ left.toList, other.startSequence < root.startSequence) ∧
    ∀ other ∈ right.toList, root.startSequence < other.startSequence := by
  obtain ⟨hleft, hright, hacross⟩ := pairwise_append.mp h
  obtain ⟨habove, hright⟩ := pairwise_cons.mp hright
  exact ⟨hleft, hright, fun other hother => hacross other hother root mem_cons_self, habove⟩

theorem parts_of_le (hle : root.startSequence ≤ sequence) :
    upTo sequence (node left root right).toList =
        left.toList ++ root :: upTo sequence right.toList ∧
      past sequence (node left root right).toList = past sequence right.toList := by
  have hleft : ∀ other ∈ left.toList, other.startSequence ≤ sequence := fun other hother =>
    Nat.le_of_lt (Nat.lt_of_lt_of_le (h.sides.2.2.1 other hother) hle)
  simpa [upTo, past, toList, hle, Nat.not_lt.mpr hle, filter_eq_self] using hleft

theorem parts_of_lt (hlt : sequence < root.startSequence) :
    upTo sequence (node left root right).toList = upTo sequence left.toList ∧
      past sequence (node left root right).toList =
        past sequence left.toList ++ root :: right.toList := by
  have hright : ∀ other ∈ right.toList, sequence < other.startSequence := fun other hother =>
    Nat.lt_trans hlt (h.sides.2.2.2 other hother)
  simpa [upTo, past, toList, hlt, Nat.not_le.mpr hlt, filter_eq_self] using hright

end

theorem floor_eq (h : tree.SearchOrdered) (candidate : Option RunItemNode) :
    tree.floor sequence candidate = (upTo sequence tree.toList).getLast?.or candidate := by
  induction tree generalizing candidate with
  | null => rfl
  | node left root right ihLeft ihRight =>
    rw [floor]
    split
    · next hle =>
        rw [ihRight h.sides.2.1, (parts_of_le h hle).1, getLast?_append, getLast?_cons]
        cases (upTo sequence right.toList).getLast? <;> rfl
    · next hgt => rw [ihLeft h.sides.1, (parts_of_lt h (Nat.lt_of_not_le hgt)).1]

theorem findRunSuccessor_eq (h : tree.SearchOrdered) (successor : Option RunItemNode) :
    tree.findRunSuccessor sequence successor =
      (past sequence tree.toList).head?.or successor := by
  induction tree generalizing successor with
  | null => rfl
  | node left root right ihLeft ihRight =>
    rw [findRunSuccessor]
    split
    · next hlt =>
        rw [ihLeft h.sides.1, (parts_of_lt h hlt).2, head?_append]
        cases (past sequence left.toList).head? <;> rfl
    · next hge => rw [ihRight h.sides.2.1, (parts_of_le h (Nat.le_of_not_lt hge)).2]

/-- A rotation has a child to turn round where the root of that child comes first. -/
theorem rotated_toList {nodes : List RunItemNode} {precedes : RunItemNode → Bool}
    (hnodes : (node left root right).toList = nodes) :
    (∃ grown, (if left.root?.any precedes then rotateRunRight (node left root right)
        else .ok (node left root right)) = .ok grown ∧ grown.toList = nodes) ∧
      ∃ grown, (if right.root?.any precedes then rotateRunLeft (node left root right)
        else .ok (node left root right)) = .ok grown ∧ grown.toList = nodes := by
  subst hnodes
  constructor
  · cases left with
    | null => exact ⟨_, rfl, rfl⟩
    | node outer pivot inner =>
      split
      · exact ⟨_, rfl, by simp [toList]⟩
      · exact ⟨_, rfl, rfl⟩
  · cases right with
    | null => exact ⟨_, rfl, rfl⟩
    | node inner pivot outer =>
      split
      · exact ⟨_, rfl, by simp [toList]⟩
      · exact ⟨_, rfl, rfl⟩

theorem insertRunNode_spec (h : tree.SearchOrdered)
    (hnew : ∀ other ∈ tree.toList, other.startSequence ≠ added.startSequence) :
    ∃ grown, tree.insertRunNode added = .ok grown ∧ grown.toList =
      upTo added.startSequence tree.toList ++ added :: past added.startSequence tree.toList := by
  induction tree with
  | null => exact ⟨_, rfl, rfl⟩
  | node left root right ihLeft ihRight =>
    rw [insertRunNode]
    split
    · next hlt =>
        obtain ⟨grown, hgrown, hlist⟩ := ihLeft h.sides.1 fun other hother =>
          hnew other (mem_append_left _ hother)
        rw [hgrown, (parts_of_lt h hlt).1, (parts_of_lt h hlt).2]
        exact (rotated_toList (by simp [toList, hlist])).1
    · next hge =>
        have hroot := hnew root (mem_append_right _ mem_cons_self)
        have hle : root.startSequence ≤ added.startSequence := Nat.le_of_not_lt hge
        obtain ⟨grown, hgrown, hlist⟩ := ihRight h.sides.2.1 fun other hother =>
          hnew other (mem_append_right _ (mem_cons_of_mem _ hother))
        rw [if_pos (Nat.lt_of_le_of_ne hle hroot), hgrown, (parts_of_le h hle).1,
          (parts_of_le h hle).2]
        exact (rotated_toList (by simp [toList, hlist])).2

end Treap

theorem upTo_append_past (sequence : Nat) {nodes : List RunItemNode}
    (h : nodes.Pairwise (·.startSequence < ·.startSequence)) :
    upTo sequence nodes ++ past sequence nodes = nodes := by
  induction nodes with
  | nil => rfl
  | cons node nodes ih =>
    obtain ⟨habove, hnodes⟩ := pairwise_cons.mp h
    by_cases hle : node.startSequence ≤ sequence
    · simpa [upTo, past, hle, Nat.not_lt.mpr hle] using ih hnodes
    · have hlt : ∀ other ∈ nodes, sequence < other.startSequence := fun other hother =>
        Nat.lt_trans (Nat.lt_of_not_le hle) (habove other hother)
      have hupTo : upTo sequence (node :: nodes) = [] := by
        simpa [upTo, Nat.lt_of_not_le hle] using hlt
      have hpast : past sequence (node :: nodes) = node :: nodes := by
        simpa [past, Nat.lt_of_not_le hle, filter_eq_self] using hlt
      rw [hupTo, hpast, nil_append]

theorem exists_last {R : RunItemNode → RunItemNode → Prop} {nodes : List RunItemNode}
    (h : nodes.Pairwise R) {node : RunItemNode} (hnode : node ∈ nodes) :
    ∃ last, nodes.getLast? = some last ∧ (node = last ∨ R node last) := by
  obtain rfl | ⟨init, last, rfl⟩ := nodes.eq_nil_or_concat
  · cases hnode
  · rw [concat_eq_append] at *
    refine ⟨last, by simp, (mem_append.mp hnode).symm.imp mem_singleton.mp fun hinit => ?_⟩
    exact (pairwise_append.mp h).2.2 node hinit last (by simp)

end Trees

section Links

variable {state later : RunIndex} {nodes before after : List RunItemNode} {bound : Option Nat}
  {node other : RunItemNode}

def startOf (nodes : List RunItemNode) (bound : Option Nat) : Option Nat :=
  (nodes.head?.map (·.startSequence)).or bound

/-- A run has a length and does not reach `next`. -/
def EndsBy (state : RunIndex) (node : RunItemNode) (next : Option Nat) : Prop :=
  node.startSequence < state.endOf node ∧ ∀ start ∈ next, state.endOf node ≤ start

def Linked (state : RunIndex) : List RunItemNode → Option Nat → Prop
  | [], _ => True
  | node :: nodes, bound => state.nextStartSequence node = startOf nodes bound ∧
    EndsBy state node (startOf nodes bound) ∧ Linked state nodes bound

theorem linked_append : Linked state (before ++ after) bound ↔
    Linked state before (startOf after bound) ∧ Linked state after bound := by
  induction before with
  | nil => simp [Linked]
  | cons node before ih =>
    have hstart : startOf (before ++ after) bound = startOf before (startOf after bound) := by
      cases before <;> rfl
    simp only [cons_append, Linked, hstart, ih, and_assoc]

namespace Linked

section

variable (h : Linked state nodes bound)
include h

theorem endsBy (hnode : node ∈ nodes) : EndsBy state node (state.nextStartSequence node) := by
  induction nodes with
  | nil => cases hnode
  | cons first nodes ih =>
    obtain ⟨hnext, hends, hrest⟩ := h
    cases hnode with
    | head => rwa [hnext]
    | tail _ hnode => exact ih hrest hnode

theorem disjoint : nodes.Pairwise fun node other => state.endOf node ≤ other.startSequence := by
  induction nodes with
  | nil => exact .nil
  | cons node nodes ih =>
    obtain ⟨-, hends, hrest⟩ := h
    refine .cons (fun other hother => ?_) (ih hrest)
    cases nodes with
    | nil => cases hother
    | cons first nodes =>
      have hfirst : state.endOf node ≤ first.startSequence := hends.2 _ rfl
      cases hother with
      | head => exact hfirst
      | tail _ hother =>
        have hlater := (pairwise_cons.mp (ih hrest)).1 other hother
        have hpositive := (hrest.endsBy mem_cons_self).1
        omega

theorem searchOrdered : nodes.Pairwise (·.startSequence < ·.startSequence) :=
  h.disjoint.imp_of_mem fun hnode _ hends => Nat.lt_of_lt_of_le (h.endsBy hnode).1 hends

theorem apart (hnode : node ∈ nodes) (hother : other ∈ nodes) (hne : node ≠ other) :
    state.endOf node ≤ other.startSequence ∨ state.endOf other ≤ node.startSequence := by
  let Apart (node other : RunItemNode) : Prop :=
    state.endOf node ≤ other.startSequence ∨ state.endOf other ≤ node.startSequence
  have : Std.Symm Apart := ⟨fun _ _ => Or.symm⟩
  have hapart : nodes.Pairwise Apart := h.disjoint.imp fun hends => .inl hends
  exact hapart.forall hnode hother hne

theorem next (place : Nat) (node : RunItemNode) (hnode : nodes[place]? = some node) :
    state.nextStartSequence node =
      (nodes[place + 1]?.map (·.startSequence)).or bound := by
  induction nodes generalizing place with
  | nil => cases hnode
  | cons first nodes ih =>
    obtain ⟨hnext, -, hrest⟩ := h
    cases place with
    | zero =>
      cases hnode
      rw [hnext, startOf, head?_eq_getElem?]
      rfl
    | succ place => exact ih hrest place hnode

theorem congr (hnext : ∀ node ∈ nodes, later.nextStartSequence node = state.nextStartSequence node)
    (hends : ∀ node ∈ nodes, EndsBy later node (state.nextStartSequence node)) :
    Linked later nodes bound := by
  induction nodes with
  | nil => trivial
  | cons node nodes ih =>
    obtain ⟨hstart, -, hrest⟩ := h
    rw [forall_mem_cons] at hnext hends
    exact ⟨hnext.1.trans hstart, hstart ▸ hends.1, ih hrest hnext.2 hends.2⟩

end

end Linked

end Links

/-- The runs of every agent are linked, and the nodes of this lifetime are those that the records
name. -/
structure Sound (state : RunIndex) : Prop where
  linked : ∀ agent, Linked state (state.runs agent) none
  held : ∀ {agent node}, node ∈ state.runs agent → ∃ item, state.items[node.item]? = some item ∧
    item.run = true ∧ item.agent = agent ∧ item.sequence = node.startSequence ∧
    item.runNode = some node ∧ node.epoch = state.epoch
  named : ∀ {id item node}, state.items[id]? = some item → item.runNode = some node →
    node.epoch ≤ state.epoch ∧
      (node.epoch = state.epoch → node ∈ state.runs item.agent ∧ node.item = id)

section Runs

variable {state later : RunIndex} {id : ItemKey} {item : AugmentedCRDTItem} {node : RunItemNode}

theorem endOf_eq (hitem : state.items[node.item]? = some item) :
    state.endOf node = node.startSequence + item.contentLength := by
  rw [RunIndex.endOf, hitem]
  rfl

section

variable (h : Sound state)
include h

/-- What records may become without the index. -/
theorem Sound.reshaped {items : List AugmentedCRDTItem}
    (hkept : ∀ {agent node item}, node ∈ state.runs agent → state.items[node.item]? = some item →
      ∃ contentLength, items[node.item]? = some { item with contentLength } ∧ 0 < contentLength ∧
        ∀ start ∈ state.nextStartSequence node, node.startSequence + contentLength ≤ start)
    (hold : ∀ {id : ItemKey} {item : AugmentedCRDTItem} {node}, items[id]? = some item → item.runNode = some node →
      ∃ old : AugmentedCRDTItem, state.items[id]? = some old ∧ old.runNode = some node ∧ old.agent = item.agent) :
    Sound { state with items } where
  linked agent := (h.linked agent).congr (fun _ _ => rfl) fun node hnode => by
    obtain ⟨item, hitem, -⟩ := h.held hnode
    obtain ⟨contentLength, hkept, hpositive, hends⟩ := hkept hnode hitem
    rw [EndsBy, endOf_eq hkept]
    exact ⟨by simpa using hpositive, hends⟩
  held hnode := by
    obtain ⟨item, hitem, hsame⟩ := h.held hnode
    obtain ⟨contentLength, hkept, -⟩ := hkept hnode hitem
    exact ⟨_, hkept, hsame⟩
  named hitem hnode := by
    obtain ⟨old, hold, holdNode, hagent⟩ := hold hitem hnode
    exact hagent ▸ h.named hold holdNode

theorem Sound.bounds {agent : Int} (hnode : node ∈ state.runs agent)
    (hitem : state.items[node.item]? = some item) : 0 < item.contentLength ∧
      ∀ start ∈ state.nextStartSequence node, node.startSequence + item.contentLength ≤ start := by
  obtain ⟨hpositive, hends⟩ := (h.linked agent).endsBy hnode
  rw [endOf_eq hitem] at hpositive hends
  exact ⟨by omega, hends⟩

theorem Sound.added (hfresh : item.runNode = none) :
    Sound { state with items := state.items ++ [item] } := by
  refine h.reshaped (fun {_ _ item} hnode hitem => ?_) fun hitem hnode => ?_
  · exact ⟨item.contentLength, getElem?_concat_eq_some.mpr (.inl hitem), h.bounds hnode hitem⟩
  · obtain hold | ⟨-, rfl⟩ := getElem?_concat_eq_some.mp hitem
    · exact ⟨_, hold, hnode, rfl⟩
    · rw [hfresh] at hnode
      cases hnode

theorem Sound.resized (hitem : state.items[id]? = some item) {contentLength : Nat}
    (hbounds : ∀ node ∈ state.runs item.agent, node.item = id → item.runNode = some node →
      0 < contentLength ∧ ∀ start ∈ state.nextStartSequence node,
        node.startSequence + contentLength ≤ start) :
    Sound { state with items := state.items.set id { item with contentLength } } := by
  refine h.reshaped (fun {agent node found} hnode hfound => ?_) fun {other found node} hfound hnode => ?_
  · by_cases hsame : node.item = id
    · obtain ⟨old, hold, -, hagent, -, hnamed, -⟩ := h.held hnode
      rw [hsame] at hold hfound
      obtain rfl := Option.some.inj (hitem.symm.trans hold)
      obtain rfl := Option.some.inj (hitem.symm.trans hfound)
      refine ⟨contentLength, ?_, hbounds node (hagent ▸ hnode) hsame hnamed⟩
      rw [hsame, List.getElem?_set_self (List.getElem?_eq_some_iff.mp hitem).1]
    · exact ⟨found.contentLength, by rw [getElem?_set_ne (Ne.symm hsame)]; exact hfound,
        h.bounds hnode hfound⟩
  · by_cases hsame : other = id
    · rw [hsame, List.getElem?_set_self (List.getElem?_eq_some_iff.mp hitem).1] at hfound
      cases hfound
      exact ⟨item, hsame ▸ hitem, hnode, rfl⟩
    · rw [getElem?_set_ne (Ne.symm hsame)] at hfound
      exact ⟨found, hfound, hnode, rfl⟩

end

section Registration

section

variable {root : Treap} {predecessor successor : Option RunItemNode} {other : RunItemNode}
  (hother : other.item ≠ node.item)
include hother

theorem endOf_place : (state.place node item root predecessor successor).endOf other =
    state.endOf other := by
  simp [RunIndex.endOf, RunIndex.place, getElem?_set_ne (Ne.symm hother)]

theorem nextStartSequence_place (hnot : other ∉ predecessor) :
    (state.place node item root predecessor successor).nextStartSequence other =
      state.nextStartSequence other := by
  have hne : other ≠ node := fun hsame => hother (hsame ▸ rfl)
  cases predecessor with
  | none => simp [RunIndex.place, hne]
  | some last => simp [RunIndex.place, hne, show other ≠ last from fun hsame => hnot (hsame ▸ rfl)]

end

variable (h : Sound state) (hitem : state.items[node.item]? = some item)
  (hfree : ∀ {agent other}, other ∈ state.runs agent → other.item ≠ node.item)
include h hitem hfree

theorem Sound.linked_place {root : Treap} {before after : List RunItemNode}
    (hnodes : state.runs item.agent = before ++ after)
    (hbefore : ∀ other ∈ before, state.endOf other ≤ node.startSequence)
    (hpositive : 0 < item.contentLength)
    (hafter : ∀ start ∈ startOf after none, node.startSequence + item.contentLength ≤ start) :
    Linked (state.place node item root before.getLast? after.head?) (before ++ node :: after) none := by
  have hlinked : Linked state (before ++ after) none := hnodes ▸ h.linked item.agent
  have hsearch := hlinked.searchOrdered
  obtain ⟨hbeforeLinked, hafterLinked⟩ := linked_append.mp hlinked
  have hmem : ∀ other ∈ before ++ after, other.item ≠ node.item := fun other hother =>
    hfree (hnodes ▸ hother)
  have hlast : ∀ last ∈ before.getLast?, last ∈ before := fun last => mem_of_getLast?
  generalize hplaced : state.place node item root before.getLast? after.head? = later
  have hsame : ∀ other ∈ before ++ after, later.endOf other = state.endOf other :=
    fun other hother => hplaced ▸ endOf_place (hmem other hother)
  have hends : ∀ other ∈ before ++ after, EndsBy later other (state.nextStartSequence other) := by
    intro other hother
    rw [EndsBy, hsame other hother]
    exact hlinked.endsBy hother
  have hnext : ∀ other ∈ before ++ after, other ∉ before.getLast? →
      later.nextStartSequence other = state.nextStartSequence other :=
    fun other hother hnot => hplaced ▸ nextStartSequence_place (hmem other hother) hnot
  have hlength : later.endOf node = node.startSequence + item.contentLength := by
    subst hplaced
    simp [RunIndex.endOf, RunIndex.place, (List.getElem?_eq_some_iff.mp hitem).1]
  refine linked_append.mpr ⟨?_, ?_, ⟨by omega, fun start hstart => hlength ▸ hafter start hstart⟩, ?_⟩
  · obtain rfl | ⟨init, last, rfl⟩ := before.eq_nil_or_concat
    · trivial
    · rw [concat_eq_append] at *
      obtain ⟨hinit, -⟩ := linked_append.mp hbeforeLinked
      have hlastMem : last ∈ init ++ [last] ++ after := by simp
      have hend : later.endOf last ≤ node.startSequence :=
        hsame last hlastMem ▸ hbefore last (by simp)
      refine linked_append.mpr ⟨hinit.congr (fun other hother => ?_) fun other hother => ?_, ?_,
        ⟨(hends last hlastMem).1, fun start hstart => Option.some.inj hstart ▸ hend⟩, trivial⟩
      · refine hnext other (by simp [hother]) fun hsame => ?_
        obtain rfl : other = last := by simpa using hsame.symm
        have hfirst := (pairwise_append.mp hsearch).1
        exact Nat.lt_irrefl _ ((pairwise_append.mp hfirst).2.2 other hother other (by simp))
      · exact hends other (by simp [hother])
      · subst hplaced
        simp [RunIndex.place, startOf]
  · subst hplaced
    cases hlast' : before.getLast? with
    | none => simp [RunIndex.place, startOf]
    | some last =>
      have hother : node ≠ last := fun hsame =>
        hmem last (mem_append_left _ (hlast last hlast')) (hsame ▸ rfl)
      simp [RunIndex.place, startOf, hother]
  · refine hafterLinked.congr (fun other hother => ?_) fun other hother => ?_
    · refine hnext other (mem_append_right _ hother) fun hsame => ?_
      exact Nat.lt_irrefl _ ((pairwise_append.mp hsearch).2.2 other (hlast other hsame) other hother)
    · exact hends other (mem_append_right _ hother)

theorem Sound.placed {root : Treap} {predecessor successor : Option RunItemNode}
    (hlinked : Linked (state.place node item root predecessor successor) root.toList none)
    (hroot : ∀ other, other ∈ root.toList ↔ other = node ∨ other ∈ state.runs item.agent)
    (hpredecessor : ∀ other ∈ predecessor, other ∈ state.runs item.agent)
    (hrun : item.run = true) (hsequence : item.sequence = node.startSequence)
    (hepoch : node.epoch = state.epoch) :
    Sound (state.place node item root predecessor successor) := by
  have hruns : ∀ agent, (state.place node item root predecessor successor).runs agent =
      if agent = item.agent then root.toList else state.runs agent := by
    intro agent
    simp only [RunIndex.runs, RunIndex.place, Function.update_apply]
    split <;> rfl
  have hitems : ∀ id, (state.place node item root predecessor successor).items[id]? =
      if id = node.item then some { item with runNode := some node } else state.items[id]? := by
    intro id
    simp only [RunIndex.place]
    split
    · next hsame => rw [hsame, List.getElem?_set_self (List.getElem?_eq_some_iff.mp hitem).1]
    · next hne => exact getElem?_set_ne (Ne.symm hne)
  have hmem : ∀ {agent other}, other ∈ (state.place node item root predecessor successor).runs agent ↔
      other ∈ state.runs agent ∨ other = node ∧ agent = item.agent := by
    intro agent other
    rw [hruns]
    split
    · next hsame => rw [hroot, hsame, or_comm, and_iff_left rfl]
    · next hne => rw [or_iff_left fun hnew => hne hnew.2]
  refine ⟨fun agent => ?_, fun {agent other} hother => ?_, fun {id found other} hfound hother => ?_⟩
  · rw [hruns]
    split
    · exact hlinked
    · next hne =>
        refine (h.linked agent).congr (fun other hother => ?_) fun other hother => ?_
        · refine nextStartSequence_place (hfree hother) fun hlast => hne ?_
          obtain ⟨_, hfirst, -, hagent, -⟩ := h.held hother
          obtain ⟨_, hsecond, -, hagent', -⟩ := h.held (hpredecessor other hlast)
          rw [← hagent, ← hagent', Option.some.inj (hfirst.symm.trans hsecond)]
        · rw [EndsBy, endOf_place (hfree hother)]
          exact (h.linked agent).endsBy hother
  · obtain hold | ⟨rfl, rfl⟩ := hmem.mp hother
    · obtain ⟨found, hfound, hheld⟩ := h.held hold
      exact ⟨found, (hitems _).trans ((if_neg (hfree hold)).trans hfound), hheld⟩
    · exact ⟨_, (hitems _).trans (if_pos rfl), hrun, rfl, hsequence, rfl, hepoch⟩
  · rw [hitems] at hfound
    split at hfound
    · next hsame =>
        cases hfound
        obtain rfl := Option.some.inj hother
        exact ⟨Nat.le_of_eq hepoch, fun _ => ⟨hmem.mpr (.inr ⟨rfl, rfl⟩), hsame.symm⟩⟩
    · obtain ⟨hepochs, hnamed⟩ := h.named hfound hother
      exact ⟨hepochs, fun hcurrent => ⟨hmem.mpr (.inl (hnamed hcurrent).1), (hnamed hcurrent).2⟩⟩

end Registration

section

variable (h : Sound state)
include h

theorem Sound.inserted (hitem : state.items[id]? = some item) (hrun : item.run = true)
    (hpositive : 0 < item.contentLength) (hlast : ∀ last ∈ (upTo item.sequence
      (state.runs item.agent)).getLast?, state.endOf last ≤ item.sequence)
    (hinsert : state.insertRun id item (upTo item.sequence (state.runs item.agent)).getLast? =
      .ok later) : Sound later ∧ ∃ node ∈ later.runs item.agent, node.item = id := by
  have hlinked := h.linked item.agent
  have hsplit := upTo_append_past item.sequence hlinked.searchOrdered
  have hdisjoint := hlinked.disjoint
  have hends : ∀ other ∈ upTo item.sequence (state.runs item.agent),
      state.endOf other ≤ item.sequence := by
    intro other hother
    obtain ⟨last, hsome, hend⟩ := exists_last (hdisjoint.sublist filter_sublist) hother
    have hlow : last.startSequence ≤ item.sequence :=
      (mem_upTo.mp (mem_of_getLast? hsome)).2
    cases hend with
    | inl hsame => exact hsame ▸ hlast last hsome
    | inr hend => exact Nat.le_trans hend hlow
  have hfree : ∀ {agent other}, other ∈ state.runs agent → other.item ≠ id := by
    rintro agent other hother rfl
    obtain ⟨found, hfound, -, hagent, hsequence, -⟩ := h.held hother
    obtain rfl := Option.some.inj (hitem.symm.trans hfound)
    have hend := hends other (mem_upTo.mpr ⟨hagent ▸ hother, Nat.le_of_eq hsequence.symm⟩)
    rw [endOf_eq hitem] at hend
    omega
  have hsuccessor : (state.runRootsByAgent item.agent).findRunSuccessor item.sequence none =
      (past item.sequence (state.runs item.agent)).head? :=
    (Treap.findRunSuccessor_eq hlinked.searchOrdered none).trans (Option.or_none ..)
  have hnew : ∀ other ∈ state.runs item.agent, other.startSequence ≠ item.sequence := by
    intro other hother hsame
    have hlow := hends other (mem_upTo.mpr ⟨hother, Nat.le_of_eq hsame⟩)
    have hpositive := (hlinked.endsBy hother).1
    omega
  simp only [RunIndex.insertRun, hsuccessor] at hinsert
  split at hinsert
  · cases hinsert
  · next hnone =>
      let node : RunItemNode := ⟨id, state.epoch, item.sequence, sequencePriority item.sequence⟩
      obtain ⟨grown, hgrown, hlist⟩ := @Treap.insertRunNode_spec node _ hlinked.searchOrdered hnew
      rw [hgrown] at hinsert
      obtain rfl := Except.ok.inj hinsert
      have hroot : ∀ other, other ∈ grown.toList ↔ other = node ∨ other ∈ state.runs item.agent := by
        intro other
        rw [hlist, mem_append, mem_cons, or_left_comm, ← mem_append]
        exact or_congr_right (hsplit.symm ▸ Iff.rfl)
      refine ⟨h.placed hitem hfree ?_ hroot (fun other hother => ?_) hrun rfl rfl, node, ?_, rfl⟩
      · rw [hlist]
        refine h.linked_place hitem hfree hsplit.symm hends hpositive fun start hstart => ?_
        obtain ⟨first, hfirst, rfl⟩ : ∃ first, (past item.sequence (state.runs item.agent)).head? =
            some first ∧ first.startSequence = start := by simpa [startOf] using hstart
        simpa [hfirst] using hnone
      · exact (mem_upTo.mp (mem_of_getLast? hother)).1
      · simp [RunIndex.runs, RunIndex.place, hlist]

theorem Sound.registered (hitem : state.items[id]? = some item)
    (hregister : state.registerRunItem id = .ok later) :
    Sound later ∧ (item.run = true → ∃ node ∈ later.runs item.agent, node.item = id) := by
  have hfloor : (state.runRootsByAgent item.agent).findRunPredecessor item.sequence =
      (upTo item.sequence (state.runs item.agent)).getLast? :=
    (Treap.floor_eq (h.linked item.agent).searchOrdered none).trans (Option.or_none ..)
  simp only [RunIndex.registerRunItem, hitem, hfloor] at hregister
  split at hregister
  · next hrun =>
      cases hregister
      exact ⟨h, fun htrue => by simp [htrue] at hrun⟩
  · next hrun =>
    have hrun : item.run = true := by simpa using hrun
    split at hregister
    · cases hregister
    · next hlength =>
      have hpositive : 0 < item.contentLength := Nat.lt_of_not_le hlength
      split at hregister
      · cases hregister
      · split at hregister
        · next hnone =>
            have hinserted := h.inserted hitem hrun hpositive
              (fun last hlast => by rw [hnone] at hlast; cases hlast) (hnone ▸ hregister)
            exact ⟨hinserted.1, fun _ => hinserted.2⟩
        · next predecessor hpredecessor =>
            split at hregister
            · split at hregister
              · next hsame =>
                  split at hregister
                  · cases hregister
                  · cases hregister
                    have hmem := (mem_upTo.mp (mem_of_getLast? hpredecessor)).1
                    exact ⟨h, fun _ => ⟨predecessor, hmem, hsame⟩⟩
              · cases hregister
            · split at hregister
              · cases hregister
              · next hends =>
                  have hinserted := h.inserted hitem hrun hpositive (fun last hlast => by
                    rw [hpredecessor] at hlast
                    exact Option.some.inj hlast ▸ Nat.le_of_not_lt hends) (hpredecessor ▸ hregister)
                  exact ⟨hinserted.1, fun _ => hinserted.2⟩

theorem Sound.halved (hitem : state.items[id]? = some item) {offset : Nat}
    (hoffset : ¬ (offset ≤ 0 ∨ item.contentLength ≤ offset)) :
    Sound (state.halves id item offset) := by
  refine Sound.added (h.resized hitem fun node hnode hsame _ => ⟨by omega, fun start hstart => ?_⟩) rfl
  have hends := (h.bounds hnode (hsame ▸ hitem)).2 start hstart
  omega

theorem Sound.extended {additionalLength : Nat} : Sound (state.extendRunItem id additionalLength) := by
  unfold RunIndex.extendRunItem
  split
  · exact h
  · next item hitem =>
      split
      · next hextends =>
          refine h.resized hitem fun node hnode hsame hnamed => ?_
          have hpositive := (h.bounds hnode (hsame ▸ hitem)).1
          refine ⟨by omega, fun start hstart => ?_⟩
          have hroom : node.startSequence + item.contentLength + additionalLength ≤ start := by
            simp [RunIndex.canExtendRunItem, hnamed, Option.mem_def.mp hstart] at hextends
            exact hextends.2.2.2
          omega
      · exact h

theorem Sound.cleared : Sound state.clear where
  linked _ := trivial
  held hnode := nomatch hnode
  named hitem hnode := by
    have hepoch := (h.named hitem hnode).1
    exact ⟨Nat.le_succ_of_le hepoch, fun hcurrent => absurd hcurrent (Nat.ne_of_lt (Nat.lt_succ_of_le hepoch))⟩

theorem Sound.register (hregister : state.registerRunItem id = .ok later) : Sound later := by
  cases hitem : state.items[id]? with
  | none =>
    simp only [RunIndex.registerRunItem, hitem] at hregister
    exact Except.ok.inj hregister ▸ h
  | some item => exact (h.registered hitem hregister).1

theorem Sound.step (call : Call) : Sound (step state call) := by
  cases call with
  | add agent sequence contentLength run => exact h.added rfl
  | registerRunItem id =>
    cases hregister : state.registerRunItem id with
    | error message => simpa [EventItemIndex.step, hregister, Except.toOption] using h
    | ok later => simpa [EventItemIndex.step, hregister, Except.toOption] using h.register hregister
  | extendRunItem id additionalLength => exact h.extended
  | splitRecord left offset found =>
    simp only [EventItemIndex.step, RunIndex.splitRecord]
    split
    · exact h
    · next item hitem =>
        split
        · exact h
        · next hoffset =>
            have hhalved := h.halved hitem hoffset
            split
            · exact h
            · split
              · split
                · next later hregister => exact hhalved.register hregister
                · exact hhalved
              · exact hhalved
  | clear => exact h.cleared

theorem Sound.node_of_current (hitem : state.items[id]? = some item)
    (hcurrent : item.runNode.any (·.epoch = state.epoch)) :
    ∃ node ∈ state.runs item.agent, node.item = id ∧ node.startSequence = item.sequence ∧
      state.endOf node = item.sequence + item.contentLength := by
  obtain ⟨node, hnode, hepoch⟩ := (Option.any_eq_true _ _).mp hcurrent
  obtain ⟨hmem, rfl⟩ := (h.named hitem hnode).2 (of_decide_eq_true hepoch)
  obtain ⟨found, hfound, -, -, hsequence, -⟩ := h.held hmem
  obtain rfl := Option.some.inj (hitem.symm.trans hfound)
  exact ⟨node, hmem, rfl, hsequence.symm, hsequence ▸ endOf_eq hitem⟩

theorem Sound.getRunItem_iff {agent : Int} {sequence : Nat} :
    state.getRunItem agent sequence = some id ↔ ∃ node ∈ state.runs agent, node.item = id ∧
      node.startSequence ≤ sequence ∧ sequence < state.endOf node := by
  have hlinked := h.linked agent
  have hfloor : (state.runRootsByAgent agent).floor sequence none =
      (upTo sequence (state.runs agent)).getLast? :=
    (Treap.floor_eq hlinked.searchOrdered none).trans (Option.or_none ..)
  simp only [RunIndex.getRunItem, hfloor, Option.map_eq_some_iff, Option.filter_eq_some_iff,
    decide_eq_true_eq]
  constructor
  · rintro ⟨node, ⟨hlast, hend⟩, hid⟩
    obtain ⟨hmem, hlow⟩ := mem_upTo.mp (mem_of_getLast? hlast)
    exact ⟨node, hmem, hid, hlow, hend⟩
  · rintro ⟨node, hmem, hid, hlow, hend⟩
    obtain ⟨last, hlast, hsame | hbefore⟩ := exists_last (hlinked.disjoint.sublist filter_sublist)
      (mem_upTo.mpr ⟨hmem, hlow⟩)
    · exact ⟨node, ⟨hsame ▸ hlast, hend⟩, hid⟩
    · have hlastLow := (mem_upTo.mp (mem_of_getLast? hlast)).2
      omega

end

end Runs

theorem run_sound (calls : List Call) : Sound (run calls) := by
  unfold run
  have hstart : Sound ⟨[], fun _ => .null, fun _ => none, 0⟩ :=
    ⟨fun _ => trivial, (fun hnode => nomatch hnode), fun hitem => nomatch hitem⟩
  generalize (⟨[], fun _ => .null, fun _ => none, 0⟩ : RunIndex) = state at hstart
  induction calls generalizing state with
  | nil => exact hstart
  | cons call calls ih => exact ih _ (hstart.step call)

/-- The record has been registered in the lifetime of the treaps. -/
def Registered (state : RunIndex) (id : ItemKey) (item : AugmentedCRDTItem) : Prop :=
  state.items[id]? = some item ∧ item.runNode.any (·.epoch = state.epoch) = true

end Softmaple.EventItemIndex
