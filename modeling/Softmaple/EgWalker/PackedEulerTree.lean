import Softmaple.EgWalker.PackedEuler

/-!
The tree of a packed Euler index keeps its shape: all leaves are at one depth, every child knows its
index and every count is that of the visits below.
-/
namespace Softmaple.PackedEuler

open List TreeNode

variable {depth visitDelta : Nat} {markers more : List Nat} {node child sibling : TreeNode}
  {children left right : List TreeNode} {before after pre post : List (Nat × List Nat)}

@[simp]
theorem visitWeight_append : visitWeight (markers ++ more) = visitWeight markers + visitWeight more := by
  simp [visitWeight]

theorem split_flatMap {α β : Type} {f : α → List β} {items : List α} {first last : List β} {found : β}
    (h : items.flatMap f = first ++ found :: last) : ∃ left item right inner outer,
      items = left ++ item :: right ∧ f item = inner ++ found :: outer ∧
        first = left.flatMap f ++ inner ∧ last = outer ++ right.flatMap f := by
  induction items generalizing first with
  | nil => simp at h
  | cons item items ih =>
    rw [flatMap_cons] at h
    obtain ⟨more, rfl, hrest⟩ | ⟨more, hitem, hrest⟩ := append_eq_append_iff.mp h
    · obtain ⟨left, other, right, inner, outer, rfl, hother, rfl, rfl⟩ := ih hrest
      exact ⟨item :: left, other, right, inner, outer, rfl, hother, by simp, rfl⟩
    · cases more with
      | nil =>
        obtain ⟨left, other, right, inner, outer, rfl, hother, hfirst, rfl⟩ := @ih [] hrest.symm
        rw [append_nil] at hitem
        exact ⟨item :: left, other, right, inner, outer, rfl, hother, by simp [hitem, ← hfirst], rfl⟩
      | cons next more =>
        obtain ⟨rfl, rfl⟩ := cons.inj hrest
        exact ⟨[], item, items, first, more, rfl, hitem, by simp, rfl⟩

/-- The visits that leaves hold. -/
def weigh (leaves : List (Nat × List Nat)) : Nat := visitWeight (leaves.flatMap (·.2))

@[simp]
theorem weigh_append : weigh (before ++ after) = weigh before + weigh after := by
  simp [weigh]

@[simp]
theorem leavesOf_eq : leavesOf children = children.flatMap leaves := by
  induction children with
  | nil => rfl
  | cons child children ih => rw [leavesOf, ih, flatMap_cons]

namespace TreeNode

/-- Every child knows its index. -/
def Placed (children : List TreeNode) : Prop :=
  ∀ (place : Nat) (child : TreeNode), children[place]? = some child → child.childIndex = place

/-- All leaves are at one depth below a node, no branch is too wide, and every node counts the visits
below it. -/
def Formed : Nat → TreeNode → Prop
  | 0, leaf node => node.visitCount = visitWeight node.markers
  | depth + 1, internal children _ visitCount =>
    children.length ≤ BRANCH_FACTOR ∧ visitCount = weigh (children.flatMap leaves) ∧ Placed children ∧
      ∀ child ∈ children, Formed depth child
  | _, _ => False

/-- A node with the sibling it may have split off, and the leaves of both. -/
structure Grown (depth : Nat) (grown : TreeNode × Option TreeNode) (childIndex : Nat)
    (leaves : List (Nat × List Nat)) : Prop where
  childIndex : grown.1.childIndex = childIndex
  formed : grown.1.Formed depth
  sibling : ∀ sibling ∈ grown.2, sibling.Formed depth
  leaves : grown.1.leaves ++ grown.2.elim [] TreeNode.leaves = leaves

@[simp]
theorem childIndex_setChildIndex (index : Nat) : (node.setChildIndex index).childIndex = index := by
  cases node <;> rfl

@[simp]
theorem leaves_setChildIndex (index : Nat) : (node.setChildIndex index).leaves = node.leaves := by
  cases node <;> rfl

theorem formed_setChildIndex (index : Nat) : (node.setChildIndex index).Formed depth ↔ node.Formed depth := by
  cases depth <;> cases node <;> rfl

theorem Formed.visitCount_eq (h : node.Formed depth) : node.visitCount = weigh node.leaves := by
  cases depth with
  | zero =>
    cases node with
    | leaf node => simpa [weigh, leaves, visitCount, Formed] using h
    | internal => exact h.elim
  | succ depth =>
    cases node with
    | leaf => exact h.elim
    | internal children childIndex visitCount =>
      rw [leaves, leavesOf_eq]
      exact h.2.1

theorem sum_visitCount (h : ∀ child ∈ children, Formed depth child) :
    (children.map visitCount).sum = weigh (children.flatMap leaves) := by
  induction children with
  | nil => rfl
  | cons child children ih =>
    rw [forall_mem_cons] at h
    rw [map_cons, sum_cons, flatMap_cons, weigh_append, ih h.2, h.1.visitCount_eq]

section Reindex

variable (start : Nat)

theorem getElem?_reindexFrom (place : Nat) : (reindexFrom start children)[place]? =
    children[place]?.map fun child => if start ≤ place then child.setChildIndex place else child :=
  getElem?_mapIdx

theorem leaves_reindexFrom : (reindexFrom start children).flatMap leaves = children.flatMap leaves := by
  rw [flatMap_def, flatMap_def]
  congr 1
  refine ext_getElem? fun place => ?_
  rw [getElem?_map, getElem?_map, getElem?_reindexFrom, Option.map_map]
  refine Option.map_congr fun child _ => ?_
  by_cases hstart : start ≤ place <;> simp [hstart]

theorem formed_reindexFrom (h : ∀ child ∈ children, Formed depth child) :
    ∀ child ∈ reindexFrom start children, Formed depth child := by
  intro child hchild
  obtain ⟨place, hplace⟩ := mem_iff_getElem?.mp hchild
  rw [getElem?_reindexFrom] at hplace
  obtain ⟨old, hold, rfl⟩ := Option.map_eq_some_iff.mp hplace
  have hformed := h old (mem_of_getElem? hold)
  split
  · exact (formed_setChildIndex place).mpr hformed
  · exact hformed

theorem placed_reindexFrom (h : ∀ (place : Nat) (child : TreeNode), place < start →
    children[place]? = some child → child.childIndex = place) : Placed (reindexFrom start children) := by
  intro place child hplace
  rw [getElem?_reindexFrom] at hplace
  obtain ⟨old, hold, rfl⟩ := Option.map_eq_some_iff.mp hplace
  split
  · exact childIndex_setChildIndex place
  · next hbefore => exact h place old (Nat.lt_of_not_le hbefore) hold

end Reindex

theorem createInternalNode_formed (hlength : children.length ≤ BRANCH_FACTOR)
    (h : ∀ child ∈ children, Formed depth child) :
    (createInternalNode children).Formed (depth + 1) ∧
      (createInternalNode children).leaves = children.flatMap leaves := by
  have hleaves := @leaves_reindexFrom children 0
  refine ⟨⟨?_, ?_, placed_reindexFrom 0 fun _ _ hlt => absurd hlt (Nat.not_lt_zero _), formed_reindexFrom 0 h⟩, ?_⟩
  · rwa [reindexFrom, length_mapIdx]
  · rw [hleaves]
    exact sum_visitCount h
  · rw [createInternalNode, leaves, leavesOf_eq, hleaves]

theorem splitInternal_grown {node : InternalNode} (hlength : node.children.length ≤ BRANCH_FACTOR + 1)
    (hcount : node.visitCount = weigh (node.children.flatMap leaves)) (hplaced : Placed node.children)
    (h : ∀ child ∈ node.children, Formed depth child) :
    Grown (depth + 1) (splitInternal node) node.childIndex (node.children.flatMap leaves) := by
  let midpoint := (node.children.length + 1) / 2
  have hmid : midpoint ≤ BRANCH_FACTOR ∧ node.children.length - midpoint ≤ BRANCH_FACTOR := by
    dsimp only [midpoint, BRANCH_FACTOR] at *
    omega
  have hsplit : (node.children.take midpoint).flatMap leaves ++ (node.children.drop midpoint).flatMap leaves =
      node.children.flatMap leaves := by
    rw [← flatMap_append, take_append_drop]
  obtain ⟨hsibling, hleaves⟩ := @createInternalNode_formed depth (node.children.drop midpoint)
    (by rw [length_drop]; exact hmid.2) fun child hchild => h child (mem_of_mem_drop hchild)
  refine ⟨rfl, ⟨?_, ?_, fun place child hplace => ?_, fun child hchild => h child (mem_of_mem_take hchild)⟩,
    fun _ hsome => Option.some.inj hsome ▸ hsibling, ?_⟩
  · exact Nat.le_trans (length_take_le _ _) hmid.1
  · rw [hsibling.visitCount_eq, hleaves, hcount, ← hsplit, weigh_append, Nat.add_sub_cancel]
  · rw [getElem?_take] at hplace
    split at hplace
    · exact hplaced place child hplace
    · cases hplace
  · show leavesOf _ ++ (createInternalNode _).leaves = _
    rw [leavesOf_eq, hleaves, hsplit]

theorem insertSiblingAfter_grown {childIndex visitCount : Nat}
    (hlength : (left ++ node :: right).length ≤ BRANCH_FACTOR) (hplaced : Placed (left ++ node :: right))
    (hformed : ∀ child ∈ left ++ node :: sibling :: right, Formed depth child)
    (hcount : visitCount = weigh ((left ++ node :: sibling :: right).flatMap leaves)) :
    Grown (depth + 1) (insertSiblingAfter ⟨left ++ node :: right, childIndex, visitCount⟩ node sibling)
      childIndex ((left ++ node :: sibling :: right).flatMap leaves) := by
  have hindex : node.childIndex = left.length := hplaced _ _ (by simp)
  have hinsert : (left ++ node :: right).take (left.length + 1) ++
      sibling :: (left ++ node :: right).drop (left.length + 1) = left ++ node :: sibling :: right := by
    simp [take_length_add_append, drop_length_add_append]
  have hchildren : Placed (reindexFrom (left.length + 1) (left ++ node :: sibling :: right)) := by
    refine placed_reindexFrom _ fun place child hlt hplace => hplaced place child ?_
    rw [← hplace]
    have hboth (rest : List TreeNode) : (left ++ node :: rest)[place]? = (left ++ [node])[place]? := by
      rw [append_cons, getElem?_append_left (by rwa [length_append])]
    exact (hboth right).trans (hboth (sibling :: right)).symm
  have hall := formed_reindexFrom (left.length + 1) hformed
  have hleaves := @leaves_reindexFrom (left ++ node :: sibling :: right) (left.length + 1)
  rw [insertSiblingAfter, hindex, hinsert]
  dsimp only
  split
  · have hgrown := @splitInternal_grown depth
      ⟨reindexFrom (left.length + 1) (left ++ node :: sibling :: right), childIndex, visitCount⟩
      (by simp [reindexFrom] at hlength ⊢; omega) (hcount.trans (congrArg weigh hleaves.symm)) hchildren hall
    exact hleaves ▸ hgrown
  · next hfits =>
      refine ⟨rfl, ⟨Nat.le_of_not_lt hfits, hcount.trans (congrArg weigh hleaves.symm), hchildren, hall⟩,
        by rintro _ ⟨⟩, ?_⟩
      rw [leaves, leavesOf_eq, hleaves]
      exact append_nil _

/-- The parent of a child that has changed. -/
theorem attach_grown {childIndex visitCount : Nat} {grown : TreeNode × Option TreeNode}
    {new : List (Nat × List Nat)}
    (h : (internal (left ++ child :: right) childIndex visitCount).Formed (depth + 1))
    (hgrown : Grown depth grown child.childIndex new) (hnew : weigh new = weigh child.leaves + visitDelta) :
    Grown (depth + 1) (attach visitDelta grown ⟨left ++ child :: right, childIndex, visitCount⟩) childIndex
      (left.flatMap leaves ++ new ++ right.flatMap leaves) := by
  obtain ⟨hlength, hcount, hplaced, hformed⟩ := h
  have hindex : child.childIndex = left.length := hplaced _ _ (by simp)
  have hset : (left ++ child :: right).set grown.1.childIndex grown.1 = left ++ grown.1 :: right := by
    rw [hgrown.childIndex, hindex, set_append_right _ _ (Nat.le_refl _), Nat.sub_self]
    rfl
  have hplaced' : Placed (left ++ grown.1 :: right) := by
    intro place found hplace
    rw [← hset, hgrown.childIndex, hindex] at hplace
    by_cases hsame : place = left.length
    · subst hsame
      rw [getElem?_set_self (by simp)] at hplace
      exact Option.some.inj hplace ▸ hgrown.childIndex.trans hindex
    · rw [getElem?_set_ne (Ne.symm hsame)] at hplace
      exact hplaced place found hplace
  have hlength' : (left ++ grown.1 :: right).length ≤ BRANCH_FACTOR := by simpa using hlength
  rw [attach, hset]
  obtain ⟨node, sibling⟩ := grown
  have hleaves := hgrown.leaves
  have hboth : ∀ found ∈ left ++ node :: (sibling.toList ++ right), Formed depth found := by
    intro found hfound
    simp only [mem_append, mem_cons, Option.mem_toList] at hfound
    obtain hleft | rfl | hsibling | hright := hfound
    · exact hformed found (by simp [hleft])
    · exact hgrown.formed
    · exact hgrown.sibling found hsibling
    · exact hformed found (by simp [hright])
  have hweigh : visitCount + visitDelta = weigh (left.flatMap leaves ++ new ++ right.flatMap leaves) := by
    rw [hcount]
    simp [hnew]
    omega
  cases sibling with
  | none =>
    obtain rfl : node.leaves = new := by simpa using hleaves
    refine ⟨rfl, ⟨hlength', by simpa using hweigh, hplaced', hboth⟩, by rintro _ ⟨⟩, ?_⟩
    simp [leaves]
  | some sibling =>
    obtain rfl : node.leaves ++ sibling.leaves = new := hleaves
    have hsplit : left.flatMap leaves ++ (node.leaves ++ sibling.leaves) ++ right.flatMap leaves =
        (left ++ node :: sibling :: right).flatMap leaves := by simp
    rw [hsplit] at hweigh ⊢
    exact insertSiblingAfter_grown hlength' hplaced' hboth hweigh

theorem leafForId_none {id : Nat} (h : node.Formed depth) (hid : id ∉ node.leaves.map (·.1)) :
    node.leafForId id = none := by
  induction depth generalizing node with
  | zero =>
    cases node with
    | leaf node => exact if_neg fun hsame => hid (by simp [leaves, hsame])
    | internal => exact h.elim
  | succ depth ih =>
    cases node with
    | leaf => exact h.elim
    | internal children childIndex visitCount =>
      have hnone : childForId id children = none := by
        have hformed := h.2.2.2
        rw [leaves, leavesOf_eq] at hid
        clear h
        induction children with
        | nil => rfl
        | cons child children ihChildren =>
          rw [forall_mem_cons] at hformed
          rw [flatMap_cons, map_append, mem_append, not_or] at hid
          rw [childForId, ih hformed.1 hid.1, ihChildren hid.2 hformed.2]
          rfl
      rw [leafForId, hnone]
      rfl

/-- The leaf of an ID, with what the loops to the root make of it. -/
theorem leafForId_spec {id : Nat} (h : node.Formed depth) (hleaves : node.leaves = pre ++ (id, markers) :: post)
    (hid : id ∉ pre.map (·.1)) : ∃ childIndex parents,
      node.leafForId id = some (⟨id, markers, childIndex, visitWeight markers⟩, parents) ∧
      (∀ rank, parents.foldl rankAbove (leaf ⟨id, markers, childIndex, visitWeight markers⟩, rank) =
        (node, rank + weigh pre)) ∧
      ∀ {grown new visitDelta}, Grown 0 grown childIndex new → weigh new = visitWeight markers + visitDelta →
        Grown depth (parents.foldl (attach visitDelta) grown) node.childIndex (pre ++ new ++ post) := by
  induction depth generalizing node pre post with
  | zero =>
    cases node with
    | leaf node =>
      obtain ⟨found, held, childIndex, visitCount⟩ := node
      have hvisits : visitCount = visitWeight held := h
      rw [leaves] at hleaves
      cases pre with
      | nil =>
        obtain ⟨heq, rfl⟩ := cons.inj hleaves
        cases heq
        subst hvisits
        refine ⟨childIndex, [], if_pos rfl, fun rank => rfl, fun hgrown _ => ?_⟩
        rw [append_nil]
        exact hgrown
      | cons => simp at hleaves
    | internal => exact h.elim
  | succ depth ih =>
    cases node with
    | leaf => exact h.elim
    | internal children childIndex visitCount =>
      rw [leaves, leavesOf_eq] at hleaves
      obtain ⟨left, child, right, first, last, rfl, hchild, rfl, rfl⟩ := split_flatMap hleaves
      have hformed := h.2.2.2
      have hindex : child.childIndex = left.length := h.2.2.1 _ _ (by simp)
      rw [map_append, mem_append, not_or] at hid
      obtain ⟨leafIndex, parents, hfound, hrank, hgrows⟩ := ih (hformed child (by simp)) hchild hid.2
      refine ⟨leafIndex, parents ++ [⟨left ++ child :: right, childIndex, visitCount⟩], ?_, fun rank => ?_,
        fun {grown new visitDelta} hgrown hweigh => ?_⟩
      · have hchildren : childForId id (left ++ child :: right) =
            some (⟨id, markers, leafIndex, visitWeight markers⟩, parents) := by
          replace hid := hid.1
          clear hleaves h hindex
          induction left with
          | nil => rw [nil_append, childForId, hfound]; rfl
          | cons other left ihLeft =>
            rw [cons_append] at hformed ⊢
            rw [forall_mem_cons] at hformed
            rw [flatMap_cons, map_append, mem_append, not_or] at hid
            rw [childForId, leafForId_none hformed.1 hid.1, ihLeft hformed.2 hid.2]
            rfl
        rw [leafForId, hchildren]
        rfl
      · rw [foldl_append, hrank]
        have hsum := @sum_visitCount depth left fun child hchild =>
          hformed child (by simp [hchild])
        simp only [foldl_cons, foldl_nil, rankAbove, hindex, take_left, hsum, weigh_append]
        rw [Nat.add_assoc, Nat.add_comm (weigh first)]
      · rw [foldl_append]
        have hnew : weigh (first ++ new ++ last) = weigh child.leaves + visitDelta := by
          rw [hchild]
          simp only [weigh, flatMap_append, flatMap_cons, visitWeight_append] at hweigh ⊢
          omega
        have hattached := attach_grown h (hgrows hgrown hweigh) hnew
        simp only [append_assoc] at hattached ⊢
        exact hattached

end TreeNode

end Softmaple.PackedEuler
