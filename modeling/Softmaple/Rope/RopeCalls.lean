import Softmaple.Lib.ExceptAgreement
import Softmaple.Rope.RopeReads

/-!
The calls of a rope, each against the same call on a plain string.
-/
namespace Softmaple.Rope

open List

open ExceptAgreement (Agree)

namespace PlainText

def insert (text : Text) (index : Int) (inserted : Text) : Except RopeError Text := do
  let index ← assertIndex index text.length
  return text.splice index inserted

def delete (text : Text) (index length : Int) : Except RopeError Text := do
  let range ← assertRange index length text.length
  return text.delete range.1 range.2

def slice (text : Text) (start stop : Int) : Except RopeError Text := do
  let range ← assertSlice start stop text.length
  return sliceText text range.1 range.2

def codeUnitAt (text : Text) (index : Int) : Option CodeUnit :=
  if 0 ≤ index then text[index.toNat]? else none

end PlainText

/-- A rope that is well formed and holds a text. -/
structure Represents (rope : PersistentUtf16Rope) (text : Text) : Prop where
  root : IsRoot rope.root
  text : rope.root.toText = text

theorem represents_empty : Represents ⟨EMPTY_LEAF⟩ [] := ⟨isRoot_empty, toText_empty⟩

theorem represents_buildTree {leaves : List LeafNode} (h : GoodLeaves leaves) :
    Represents ⟨buildTree leaves⟩ (leavesText leaves) :=
  ⟨(buildTree_spec h).1, (buildTree_spec h).2⟩

section Checks

variable {length : Nat}

theorem assertIndex_agree (index : Int) : Agree Eq (fun place other => place = other ∧ place ≤ length)
    (assertIndex index length) (assertIndex index length) := by
  rw [assertIndex]
  split
  · next h => exact .ok ⟨rfl, by omega⟩
  · exact .error rfl

theorem assertRange_agree (index count : Int) :
    Agree Eq (fun range other => range = other ∧ range.1 + range.2 ≤ length)
      (assertRange index count length) (assertRange index count length) := by
  rw [assertRange]
  split
  · next h => exact .ok ⟨rfl, by dsimp only; omega⟩
  · exact .error rfl

theorem assertSlice_agree (start stop : Int) :
    Agree Eq (fun range other => range = other ∧ range.1 ≤ range.2 ∧ range.2 ≤ length)
      (assertSlice start stop length) (assertSlice start stop length) := by
  rw [assertSlice]
  split
  · next h => exact .ok ⟨rfl, by dsimp only; omega⟩
  · exact .error rfl

theorem assertLeafRange_agree (start stop : Int) :
    Agree Eq (fun range other => range = other ∧ range.1 ≤ range.2 ∧ range.2 ≤ length)
      (assertLeafRange start stop length) (assertLeafRange start stop length) := by
  rw [assertLeafRange]
  split
  · next h => exact .ok ⟨rfl, by dsimp only; omega⟩
  · exact .error rfl

end Checks

section Calls

variable {rope : PersistentUtf16Rope} {text : Text}

section

variable (h : Represents rope text)
include h

theorem Represents.length_eq : rope.length = text.length := by
  rw [PersistentUtf16Rope.length, h.root.length_eq, h.text]

omit h in
theorem ofText_represents (text : Text) : Represents (PersistentUtf16Rope.ofText text) text := by
  rw [PersistentUtf16Rope.ofText]
  split
  · next hempty => rw [hempty]; exact represents_empty
  · obtain ⟨hgood, htext, -⟩ := @chunkText_spec text false nofun
    have htree := represents_buildTree hgood
    rwa [leavesText, htext] at htree

theorem Represents.insert (index : Int) (inserted : Text) :
    Agree Eq Represents (rope.insert index inserted) (PlainText.insert text index inserted) := by
  rw [PersistentUtf16Rope.insert, PlainText.insert, h.length_eq]
  refine (assertIndex_agree index).bind fun place other hplace => ?_
  obtain ⟨rfl, hle⟩ := hplace
  by_cases hempty : inserted = []
  · rw [if_pos hempty, hempty, Text.splice_nil]
    exact .ok h
  · rw [if_neg hempty]
    obtain ⟨height, hsame, htext⟩ :=
      h.root.insert (show place ≤ rope.root.toText.length by rwa [h.text]) hempty
    obtain ⟨top, hformed, hbuilt, -⟩ := hsame.build
    exact .ok ⟨hformed.isRoot, by rw [hbuilt, htext, h.text]⟩

theorem Represents.deleteRange {index length : Nat} (hrange : index + length ≤ text.length) :
    Represents (rope.deleteRange index length) (text.delete index length) := by
  rw [PersistentUtf16Rope.deleteRange, h.length_eq]
  by_cases hnone : length = 0
  · rw [if_pos hnone, hnone, Text.delete, Nat.add_zero, take_append_drop]
    exact h
  rw [if_neg hnone]
  by_cases hall : length = text.length
  · have hzero : index = 0 := by omega
    rw [if_pos hall, hzero, hall, Text.delete, Nat.zero_add, take_zero, drop_length]
    exact represents_empty
  rw [if_neg hall]
  have hremains : ∃ height, Remains height text index (index + length)
      (deleteFromNode rope.root index (index + length)) := by
    cases h.root with
    | inl heq =>
      have hlength : text.length = 0 := by rw [← h.text, heq, toText_empty]; rfl
      omega
    | inr hformed =>
      obtain ⟨height, hformed⟩ := hformed
      have hdelete := hformed.delete (show index < index + length by omega)
        (by rw [h.text]; exact hrange)
      rw [h.text] at hdelete
      exact ⟨height, hdelete⟩
  obtain ⟨height, hremains⟩ := hremains
  obtain ⟨node, hnode⟩ : ∃ node, (deleteFromNode rope.root index (index + length)).node = some node := by
    have hlength := congrArg List.length hremains.text
    rw [length_append, length_take, length_drop] at hlength
    cases hnode : (deleteFromNode rope.root index (index + length)).node with
    | none =>
      rw [hnode, Option.map_none, Option.getD_none, length_nil] at hlength
      omega
    | some node => exact ⟨node, rfl⟩
  have htext : node.toText = text.delete index length := by
    rw [Text.delete, ← hremains.text, hnode, Option.map_some, Option.getD_some]
  obtain ⟨top, hcollapsed, hsame, hroot⟩ := (hremains.formed node hnode).collapseRoot
  have hnext : Represents ⟨collapseRoot node⟩ (text.delete index length) :=
    ⟨hcollapsed.isRoot, hsame.trans htext⟩
  simp only [hnode, Option.getD_some]
  split
  · exact hnext
  · split
    · exact hnext
    · obtain ⟨first, hfirst, hfirstText, hfirstRoot⟩ :=
        hcollapsed.rebalance hroot (min index ((collapseRoot node).length - 1))
      split
      · obtain ⟨second, hsecond, hsecondText, -⟩ := hfirst.rebalance hfirstRoot
          (min (index - 1) ((rebalanceLeafContaining (collapseRoot node)
            (min index ((collapseRoot node).length - 1))).length - 1))
        exact ⟨hsecond.isRoot, by rw [hsecondText, hfirstText, hsame, htext]⟩
      · exact ⟨hfirst.isRoot, by rw [hfirstText, hsame, htext]⟩

theorem Represents.delete (index length : Int) :
    Agree Eq Represents (rope.delete index length) (PlainText.delete text index length) := by
  rw [PersistentUtf16Rope.delete, PlainText.delete, h.length_eq]
  refine (assertRange_agree index length).bind fun range other hrange => ?_
  obtain ⟨rfl, hle⟩ := hrange
  exact .ok (h.deleteRange hle)

theorem Represents.collectSlice {start stop : Nat} (hlt : start < stop)
    (hstop : stop ≤ text.length) : collectSlice start stop 0 rope.root = sliceText text start stop := by
  cases h.root with
  | inl heq =>
    have hlength : text.length = 0 := by rw [← h.text, heq, toText_empty]; rfl
    omega
  | inr hformed =>
    obtain ⟨height, hformed⟩ := hformed
    rw [hformed.collectSlice 0, h.text, Nat.sub_zero, Nat.sub_zero]

theorem Represents.slice (start stop : Int) :
    rope.slice start stop = PlainText.slice text start stop := by
  rw [PersistentUtf16Rope.slice, PlainText.slice, h.length_eq, assertSlice]
  split
  · next hrange =>
      show Except.ok (ite (start.toNat = stop.toNat) _ _) = Except.ok _
      congr 1
      split
      · next hnone => exact (sliceText_outside (Or.inl (Nat.le_of_eq hnone.symm))).symm
      · next hsome => exact h.collectSlice (by omega) (by omega)
  · rfl

theorem Represents.collectSliceLeaves (start stop : Nat) :
    SliceLeaves text start stop (collectSliceLeaves start stop 0 rope.root) := by
  cases h.root with
  | inl heq =>
    have hempty : text = [] := by rw [← h.text, heq, toText_empty]
    have hoff : stop ≤ 0 ∨ 0 + ([] : Text).length ≤ start := Or.inr (Nat.zero_le start)
    rw [heq, EMPTY_LEAF, Rope.collectSliceLeaves, hempty, if_pos hoff]
    exact sliceLeaves_nil (Or.inr (Nat.zero_le start))
  | inr hformed =>
    obtain ⟨height, hformed⟩ := hformed
    have hleaves := @WellFormed.collectSliceLeaves start stop height rope.root hformed 0
    rwa [h.text, Nat.sub_zero, Nat.sub_zero] at hleaves

theorem Represents.sliceRope (start stop : Int) :
    Agree Eq Represents (rope.sliceRope start stop) (PlainText.slice text start stop) := by
  rw [PersistentUtf16Rope.sliceRope, PlainText.slice, h.length_eq]
  refine (assertSlice_agree start stop).bind fun range other hrange => ?_
  obtain ⟨rfl, hle, hstop⟩ := hrange
  split
  · next hwhole =>
      rw [hwhole.1, sliceText_whole text (Nat.le_of_eq hwhole.2.symm)]
      exact .ok h
  · split
    · next hnone =>
        rw [sliceText_outside (Or.inl (Nat.le_of_eq hnone.symm))]
        exact .ok represents_empty
    · obtain ⟨hgood, htext⟩ := h.collectSliceLeaves range.1 range.2
      rw [← htext]
      exact .ok (represents_buildTree hgood)

theorem Represents.codeUnitAt (index : Int) :
    rope.codeUnitAt index = PlainText.codeUnitAt text index := by
  rw [PersistentUtf16Rope.codeUnitAt, PlainText.codeUnitAt, h.length_eq]
  by_cases hlow : 0 ≤ index
  · rw [if_pos hlow]
    split
    · next hrange =>
        have hplace : index.toNat < rope.root.toText.length := by rw [h.text]; omega
        cases h.root with
        | inl heq => rw [heq, toText_empty] at hplace; exact absurd hplace (Nat.not_lt_zero _)
        | inr hformed =>
          obtain ⟨height, hformed⟩ := hformed
          obtain ⟨leaf, found, hlocate, hholds⟩ := locateLeaf_spec hformed hplace 0
          rw [hlocate, Nat.zero_add, Option.bind_some, ← hholds.getElem?, hformed.collectLeaves.2,
            h.text]
    · next hrange => exact (getElem?_eq_none (by omega)).symm
  · rw [if_neg hlow, if_neg fun hrange => hlow hrange.1]

theorem Represents.toText : rope.toText = text := by
  rw [← h.text, PersistentUtf16Rope.toText]
  split
  · next leaf hleaf => rw [hleaf, toText_leaf]
  · exact h.root.collectLeaves.2

theorem Represents.utf16_eq : rope.root.utf16 = analyzeUtf16 text := by
  rw [h.root.utf16_eq, h.text]

theorem Represents.leaves :
    GoodLeaves (collectLeaves rope.root) ∧ leavesText (collectLeaves rope.root) = text := by
  obtain ⟨hgood, htext⟩ := h.root.collectLeaves
  exact ⟨hgood, htext.trans h.text⟩

end

end Calls

section Boundaries

open PersistentUtf16Rope (boundariesFrom)

variable {leaves : List LeafNode} {start place : Nat}

theorem length_boundariesFrom : (boundariesFrom start leaves).length = leaves.length + 1 := by
  induction leaves generalizing start with
  | nil => rfl
  | cons leaf leaves ih => rw [boundariesFrom, length_cons, length_cons, ih]

theorem getElem?_boundariesFrom (h : place ≤ leaves.length) :
    (boundariesFrom start leaves)[place]? = some (start + (leavesText (leaves.take place)).length) := by
  induction leaves generalizing start place with
  | nil =>
    rw [length_nil, Nat.le_zero] at h
    rw [h]
    rfl
  | cons leaf leaves ih =>
    cases place with
    | zero => rfl
    | succ place =>
      rw [length_cons] at h
      rw [boundariesFrom, getElem?_cons_succ, ih (by omega), take_succ_cons, Nat.add_assoc,
        ← length_append]
      rfl

theorem leavesText_range (leaves : List LeafNode) (first last : Nat) (h : first ≤ last) :
    leavesText ((leaves.take last).drop first) =
      sliceText (leavesText leaves) (leavesText (leaves.take first)).length
        (leavesText (leaves.take last)).length := by
  have hfirst : (leaves.take last).take first = leaves.take first := by
    rw [take_take, Nat.min_eq_left h]
  have hsplit : leavesText leaves =
      leavesText (leaves.take last) ++ leavesText (leaves.drop last) := by
    rw [leavesText, leavesText, leavesText, ← flatMap_append, take_append_drop]
  have hinner : leavesText (leaves.take last) =
      leavesText (leaves.take first) ++ leavesText ((leaves.take last).drop first) := by
    rw [← hfirst, leavesText, leavesText, leavesText, ← flatMap_append, take_append_drop]
  rw [sliceText, hsplit, take_left, hinner, drop_left]

end Boundaries

end Softmaple.Rope
