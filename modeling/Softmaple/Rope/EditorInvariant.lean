import Softmaple.Rope.TransientRope

/-!
The treap of an editor by the text its pieces spell: totals are exact, and a piece that might hold
a surrogate is marked.
-/
namespace Softmaple.Rope

open List

def PieceKind.source (base : Text) : PieceKind → Text
  | .rope => base
  | .text value => value

def Piece.text (base : Text) (piece : Piece) : Text :=
  sliceText (piece.kind.source base) piece.start piece.stop

def piecesText (base : Text) (pieces : List Piece) : Text := pieces.flatMap (Piece.text base)

def nodeText (base : Text) (node : PieceNode) : Text := piecesText base node.pieces

structure PieceFormed (base : Text) (piece : Piece) : Prop where
  some : piece.start < piece.stop
  inside : piece.stop ≤ (piece.kind.source base).length
  marked : containsUtf16SurrogateCodeUnit (piece.kind.source base) = true →
    piece.hasSurrogateCodeUnits = true

inductive NodeFormed (base : Text) : PieceNode → Prop where
  | empty : NodeFormed base .empty
  | node {left right : PieceNode} {piece : Piece} {priority : UInt32} (hleft : NodeFormed base left)
      (hpiece : PieceFormed base piece) (hright : NodeFormed base right) :
      NodeFormed base (updateNode left piece priority right)

section Totals

variable {base : Text} {left right node : PieceNode} {piece : Piece} {priority : UInt32}

@[simp] theorem piecesText_append (first second : List Piece) :
    piecesText base (first ++ second) = piecesText base first ++ piecesText base second :=
  flatMap_append

@[simp] theorem piecesText_cons (pieces : List Piece) :
    piecesText base (piece :: pieces) = piece.text base ++ piecesText base pieces := rfl

@[simp] theorem nodeText_empty : nodeText base .empty = [] := rfl

@[simp] theorem nodeText_node (total : Nat) (marked : Bool) :
    nodeText base (.node left piece priority total marked right) =
      nodeText base left ++ (piece.text base ++ nodeText base right) := by
  rw [nodeText, PieceNode.pieces, piecesText_append, piecesText_cons]
  rfl

@[simp] theorem nodeText_updateNode : nodeText base (updateNode left piece priority right) =
    nodeText base left ++ (piece.text base ++ nodeText base right) :=
  nodeText_node _ _

theorem length_sliceText (text : Text) {start stop : Nat} (h : stop ≤ text.length) :
    (sliceText text start stop).length = stop - start := by
  rw [sliceText, length_drop, length_take, Nat.min_eq_left h]

theorem PieceFormed.length_text (h : PieceFormed base piece) :
    (piece.text base).length = pieceLength piece := by
  rw [Piece.text, length_sliceText _ h.inside, pieceLength]

theorem containsUtf16SurrogateCodeUnit_append (first second : Text) :
    containsUtf16SurrogateCodeUnit (first ++ second) =
      (containsUtf16SurrogateCodeUnit first || containsUtf16SurrogateCodeUnit second) := by
  rw [containsUtf16SurrogateCodeUnit, any_append]
  rfl

theorem PieceFormed.marked_text (h : PieceFormed base piece)
    (hsurrogate : containsUtf16SurrogateCodeUnit (piece.text base) = true) :
    piece.hasSurrogateCodeUnits = true := by
  apply h.marked
  by_contra hplain
  have hsub : ∀ unit ∈ piece.text base, unit ∈ piece.kind.source base :=
    fun unit hunit => mem_of_mem_take (mem_of_mem_drop hunit)
  rw [containsUtf16SurrogateCodeUnit_sub hsub (Bool.eq_false_iff.mpr hplain)] at hsurrogate
  exact Bool.false_ne_true hsurrogate

theorem NodeFormed.length_eq (h : NodeFormed base node) :
    nodeLength node = (nodeText base node).length := by
  induction h with
  | empty => rfl
  | node hleft hpiece hright ihl ihr =>
    rw [nodeText_updateNode, length_append, length_append, hpiece.length_text, ← ihl,
      ← ihr, updateNode, nodeLength, Nat.add_assoc]

theorem NodeFormed.marked (h : NodeFormed base node)
    (hsurrogate : containsUtf16SurrogateCodeUnit (nodeText base node) = true) :
    nodeHasSurrogateCodeUnits node = true := by
  induction h with
  | empty => cases hsurrogate
  | node hleft hpiece hright ihl ihr =>
    rw [nodeText_updateNode, containsUtf16SurrogateCodeUnit_append,
      containsUtf16SurrogateCodeUnit_append, Bool.or_eq_true, Bool.or_eq_true] at hsurrogate
    rw [updateNode, nodeHasSurrogateCodeUnits, Bool.or_eq_true, Bool.or_eq_true]
    rcases hsurrogate with hfirst | hown | hlast
    · exact Or.inl (Or.inl (ihl hfirst))
    · exact Or.inl (Or.inr (hpiece.marked_text hown))
    · exact Or.inr (ihr hlast)

theorem NodeFormed.newNode (h : PieceFormed base piece) (priority : UInt32) :
    NodeFormed base (newNode piece priority) ∧ nodeText base (newNode piece priority) = piece.text base := by
  have hsame : Rope.newNode piece priority = updateNode .empty piece priority .empty := by
    simp [Rope.newNode, updateNode, nodeLength, nodeHasSurrogateCodeUnits]
  rw [hsame, nodeText_updateNode, nodeText_empty, nil_append, append_nil]
  exact ⟨.node .empty h .empty, rfl⟩

theorem NodeFormed.parts {total : Nat} {marked : Bool}
    (h : NodeFormed base (.node left piece priority total marked right)) :
    NodeFormed base left ∧ PieceFormed base piece ∧ NodeFormed base right := by
  generalize hnode : PieceNode.node left piece priority total marked right = node at h
  cases h with
  | empty => cases hnode
  | node formedLeft formedPiece formedRight =>
    rw [updateNode] at hnode
    cases hnode
    exact ⟨formedLeft, formedPiece, formedRight⟩

end Totals

structure Spells (base : Text) (node : PieceNode) (text : Text) : Prop where
  formed : NodeFormed base node
  text : nodeText base node = text

section Edits

variable {base : Text}

theorem spells_empty : Spells base .empty [] := ⟨.empty, rfl⟩

theorem Spells.update {left right : PieceNode} {first second : Text} {piece : Piece}
    {priority : UInt32} (hleft : Spells base left first) (hpiece : PieceFormed base piece)
    (hright : Spells base right second) :
    Spells base (updateNode left piece priority right) (first ++ (piece.text base ++ second)) :=
  ⟨.node hleft.formed hpiece hright.formed, by
    rw [nodeText_updateNode, hleft.text, hright.text]⟩

theorem NodeFormed.merge {left right : PieceNode} (hleft : NodeFormed base left)
    (hright : NodeFormed base right) :
    Spells base (mergeNodes left right) (nodeText base left ++ nodeText base right) := by
  induction left, right using mergeNodes.induct with
  | case1 right =>
    rw [mergeNodes]
    exact ⟨hright, rfl⟩
  | case2 left hsome =>
    rw [mergeNodes.eq_2 _ hsome, nodeText_empty, append_nil]
    exact ⟨hleft, rfl⟩
  | case3 leftLeft leftPiece leftPriority _ _ leftRight rightLeft rightPiece rightPriority _ _
      rightRight hle ih =>
      obtain ⟨hfirst, hpiece, hsecond⟩ := hleft.parts
      rw [mergeNodes, if_pos hle, nodeText_node, append_assoc, append_assoc]
      exact Spells.update ⟨hfirst, rfl⟩ hpiece (ih hsecond hright)
  | case4 leftLeft leftPiece leftPriority _ _ leftRight rightLeft rightPiece rightPriority _ _
      rightRight hlt ih =>
      obtain ⟨hfirst, hpiece, hsecond⟩ := hright.parts
      rw [mergeNodes, if_neg hlt, @nodeText_node base rightLeft, ← append_assoc]
      exact Spells.update (ih hleft hfirst) hpiece ⟨hsecond, rfl⟩

theorem Spells.merge {left right : PieceNode} {first second : Text} (hleft : Spells base left first)
    (hright : Spells base right second) : Spells base (mergeNodes left right) (first ++ second) := by
  have hmerge := hleft.formed.merge hright.formed
  rwa [hleft.text, hright.text] at hmerge

theorem PieceFormed.slice {piece : Piece} (h : PieceFormed base piece) {start stop : Nat}
    (hlt : start < stop) (hstop : stop ≤ pieceLength piece) :
    PieceFormed base (slicePiece piece start stop) ∧
      (slicePiece piece start stop).text base = sliceText (piece.text base) start stop := by
  have hsome := h.some
  have hinside := h.inside
  rw [pieceLength] at hstop
  refine ⟨⟨?_, ?_, h.marked⟩, ?_⟩
  · show piece.start + start < piece.start + stop
    omega
  · show piece.start + stop ≤ (piece.kind.source base).length
    omega
  · show sliceText (piece.kind.source base) (piece.start + start) (piece.start + stop) = _
    rw [Piece.text, sliceText, sliceText, sliceText, take_drop, drop_drop, take_take,
      Nat.min_eq_left (by omega)]

structure Splits (base : Text) (parts : SplitResult) (text : Text) (index : Nat) : Prop where
  left : Spells base parts.left (text.take index)
  right : Spells base parts.right (text.drop index)

section Cuts

variable (first own last : Text) {offset : Nat}

theorem cut_first (h : offset ≤ first.length) :
    (first ++ (own ++ last)).take offset = first.take offset ∧
      (first ++ (own ++ last)).drop offset = first.drop offset ++ (own ++ last) :=
  ⟨take_append_of_le_length h, drop_append_of_le_length h⟩

theorem cut_own (h : offset ≤ own.length) :
    (first ++ (own ++ last)).take (first.length + offset) = first ++ own.take offset ∧
      (first ++ (own ++ last)).drop (first.length + offset) = own.drop offset ++ last := by
  rw [take_length_add_append, drop_length_add_append]
  exact ⟨congrArg _ (take_append_of_le_length h), drop_append_of_le_length h⟩

theorem cut_last : (first ++ (own ++ last)).take (first.length + (own.length + offset)) =
      first ++ (own ++ last.take offset) ∧
    (first ++ (own ++ last)).drop (first.length + (own.length + offset)) = last.drop offset := by
  rw [take_length_add_append, drop_length_add_append, take_length_add_append,
    drop_length_add_append]
  exact ⟨rfl, rfl⟩

end Cuts

theorem NodeFormed.split {node : PieceNode} (h : NodeFormed base node) {index : Nat}
    (hindex : index ≤ (nodeText base node).length) (priorityState : UInt32) :
    Splits base (split priorityState node index) (nodeText base node) index := by
  induction h generalizing index with
  | empty => exact ⟨by rw [nodeText_empty, take_nil]; exact spells_empty,
      by rw [nodeText_empty, drop_nil]; exact spells_empty⟩
  | @node left right piece priority hleft hpiece hright ihl ihr =>
    have hleftLength := hleft.length_eq
    have hownLength := hpiece.length_text
    rw [nodeText_updateNode] at hindex ⊢
    rw [length_append, length_append] at hindex
    rw [updateNode, Rope.split]
    dsimp only
    by_cases hbefore : index < nodeLength left
    · obtain ⟨htake, hdrop⟩ := cut_first (nodeText base left) (piece.text base)
        (nodeText base right) (show index ≤ _ by omega)
      obtain ⟨hfirst, hsecond⟩ := @ihl index (by omega)
      rw [if_pos hbefore]
      refine ⟨by rw [htake]; exact hfirst, ?_⟩
      rw [hdrop]
      exact hsecond.update hpiece ⟨hright, rfl⟩
    rw [if_neg hbefore]
    by_cases hafter : nodeLength left + pieceLength piece < index
    · obtain ⟨offset, rfl⟩ : ∃ offset, index =
          (nodeText base left).length + ((piece.text base).length + offset) :=
        ⟨index - (nodeText base left).length - (piece.text base).length, by omega⟩
      obtain ⟨htake, hdrop⟩ := @cut_last (nodeText base left) (piece.text base)
        (nodeText base right) offset
      have hoffset : (nodeText base left).length + ((piece.text base).length + offset) -
          nodeLength left - pieceLength piece = offset := by omega
      obtain ⟨hfirst, hsecond⟩ := @ihr offset (by omega)
      rw [if_pos hafter, hoffset]
      refine ⟨?_, by rw [hdrop]; exact hsecond⟩
      rw [htake]
      exact Spells.update ⟨hleft, rfl⟩ hpiece hfirst
    rw [if_neg hafter]
    obtain ⟨offset, rfl⟩ : ∃ offset, index = (nodeText base left).length + offset :=
      ⟨index - (nodeText base left).length, by omega⟩
    have hoffset : offset ≤ (piece.text base).length := by omega
    obtain ⟨htake, hdrop⟩ := cut_own (nodeText base left) (piece.text base)
      (nodeText base right) hoffset
    by_cases hstart : offset = 0
    · rw [if_pos (by omega)]
      rw [hstart, take_zero, append_nil] at htake
      rw [hstart, drop_zero] at hdrop
      rw [hstart]
      exact ⟨by rw [htake]; exact ⟨hleft, rfl⟩,
        by rw [hdrop]; exact spells_empty.update hpiece ⟨hright, rfl⟩⟩
    rw [if_neg (by omega)]
    by_cases hend : offset = pieceLength piece
    · rw [if_pos (by omega)]
      rw [hend, ← hownLength, take_length] at htake
      rw [hend, ← hownLength, drop_length, nil_append] at hdrop
      rw [hend, ← hownLength]
      refine ⟨?_, by rw [hdrop]; exact ⟨hright, rfl⟩⟩
      rw [htake]
      have hupdate := @Spells.update base left .empty _ [] piece priority ⟨hleft, rfl⟩ hpiece spells_empty
      rwa [append_nil] at hupdate
    -- the piece itself is cut, and its second half becomes a node of its own
    have hlocal : (nodeText base left).length + offset - nodeLength left = offset := by omega
    rw [if_neg (by omega), hlocal]
    obtain ⟨hhead, hheadText⟩ := hpiece.slice (show 0 < offset by omega) (by omega)
    obtain ⟨htail, htailText⟩ := hpiece.slice (show offset < pieceLength piece by omega) le_rfl
    rw [sliceText, drop_zero] at hheadText
    rw [sliceText, ← hownLength, take_length, hownLength] at htailText
    constructor
    · have hupdate := @Spells.update base left .empty _ [] _ priority ⟨hleft, rfl⟩ hhead spells_empty
      rw [htake]
      rwa [append_nil, hheadText] at hupdate
    · have hnew := NodeFormed.newNode htail (nextPriority priorityState)
      rw [htailText] at hnew
      rw [hdrop]
      exact Spells.merge ⟨hnew.1, hnew.2⟩ ⟨hright, rfl⟩

theorem Spells.split {node : PieceNode} {text : Text} (h : Spells base node text) {index : Nat}
    (hindex : index ≤ text.length) (priorityState : UInt32) :
    Splits base (split priorityState node index) text index := by
  have hsplit := h.formed.split (show index ≤ (nodeText base node).length by rwa [h.text])
    priorityState
  rwa [h.text] at hsplit

end Edits

section Reads

variable {base : PersistentUtf16Rope} {text : Text}

theorem codeUnitAt_piece {piece : Piece} (hbase : Represents base text) {offset : Nat} (hoffset : offset < pieceLength piece) :
    piece.codeUnitAt base (piece.start + offset) = (piece.text text)[offset]? := by
  have hstop : piece.start + offset < piece.stop := by rw [pieceLength] at hoffset; omega
  rw [Piece.text, sliceText, getElem?_drop, getElem?_take_of_lt hstop, Piece.codeUnitAt]
  cases piece.kind with
  | text value => rfl
  | rope =>
    show base.codeUnitAt ↑(piece.start + offset) = _
    rw [hbase.codeUnitAt, PlainText.codeUnitAt, if_pos (Int.natCast_nonneg _), Int.toNat_natCast]
    rfl

theorem NodeFormed.codeUnitAt {node : PieceNode} (h : NodeFormed text node)
    (hbase : Represents base text) {offset : Nat} (hoffset : offset < (nodeText text node).length) :
    node.codeUnitAt base offset = (nodeText text node)[offset]? := by
  induction h generalizing offset with
  | empty => cases hoffset
  | @node left right piece priority hleft hpiece hright ihl ihr =>
    have hleftLength := hleft.length_eq
    have hownLength := hpiece.length_text
    rw [nodeText_updateNode, length_append, length_append] at hoffset
    rw [nodeText_updateNode, updateNode, PieceNode.codeUnitAt]
    dsimp only
    by_cases hfirst : offset < nodeLength left
    · rw [if_pos hfirst, getElem?_append_left (by omega)]
      exact ihl (by omega)
    rw [if_neg hfirst]
    obtain ⟨rest, rfl⟩ := Nat.exists_eq_add_of_le (Nat.le_of_not_lt hfirst)
    rw [getElem?_append_right (by omega), ← hleftLength, Nat.add_sub_cancel_left]
    by_cases hown : rest < pieceLength piece
    · have hplace : piece.start + (nodeLength left + rest) - nodeLength left = piece.start + rest := by
        omega
      rw [if_pos (by omega), hplace, codeUnitAt_piece hbase hown, getElem?_append_left (by omega)]
    · have hplace : nodeLength left + rest - (nodeLength left + pieceLength piece) =
          rest - (piece.text text).length := by omega
      rw [if_neg (by omega), hplace, getElem?_append_right (by omega)]
      exact ihr (by omega)

end Reads

end Softmaple.Rope

namespace Softmaple.Rope

open List

open ExceptAgreement (Agree)

structure PieceInside (base : Text) (piece : Piece) : Prop where
  some : piece.start < piece.stop
  inside : piece.stop ≤ (piece.kind.source base).length

def PiecesInside (base : Text) (pieces : List Piece) : Prop :=
  ∀ piece ∈ pieces, PieceInside base piece

section Joining

variable {base : Text} {node : PieceNode}

theorem NodeFormed.pieces (h : NodeFormed base node) : PiecesInside base node.pieces := by
  induction h with
  | empty => exact fun piece hpiece => absurd hpiece not_mem_nil
  | @node left right piece priority hleft hpiece hright ihl ihr =>
    rw [updateNode, PieceNode.pieces]
    exact forall_mem_append.mpr
      ⟨ihl, forall_mem_cons.mpr ⟨⟨hpiece.some, hpiece.inside⟩, ihr⟩⟩

theorem sliceText_join (text : Text) {start middle stop : Nat} (hfirst : start ≤ middle)
    (hlast : middle ≤ stop) (hstop : stop ≤ text.length) :
    sliceText text start middle ++ sliceText text middle stop = sliceText text start stop := by
  have hmiddle : (text.take stop).take middle = text.take middle := by
    rw [take_take, Nat.min_eq_left hlast]
  have hsplit := take_append_drop middle (text.take stop)
  rw [hmiddle] at hsplit
  have hdrop := congrArg (List.drop start) hsplit
  rwa [drop_append_of_le_length (by rw [length_take]; omega)] at hdrop

theorem combine_spec {left right combined : Piece} (hleft : PieceInside base left)
    (hright : PieceInside base right) (h : combineAdjacentPieces left right = some combined) :
    PieceInside base combined ∧ combined.text base = left.text base ++ right.text base := by
  rw [combineAdjacentPieces] at h
  split at h
  · next hadjacent =>
      obtain ⟨hkind, hplace⟩ := hadjacent
      obtain rfl := Option.some.inj h
      have hsome := hright.some
      have hinside := hright.inside
      rw [← hkind] at hinside
      refine ⟨⟨?_, hinside⟩, ?_⟩
      · show left.start < right.stop
        exact hleft.some.trans (by omega)
      · show sliceText (left.kind.source base) left.start right.stop = _
        rw [Piece.text, Piece.text, ← hkind, ← hplace]
        exact (sliceText_join _ (Nat.le_of_lt hleft.some) (by omega) hinside).symm
  · cases h

theorem pushPiece_spec {pieces : List Piece} {current : Piece} (h : PiecesInside base pieces)
    (hcurrent : PieceInside base current) : PiecesInside base (pushPiece pieces current) ∧
      piecesText base (pushPiece pieces current) = piecesText base pieces ++ current.text base := by
  have hadd : PiecesInside base (pieces ++ [current]) ∧
      piecesText base (pieces ++ [current]) = piecesText base pieces ++ current.text base := by
    refine ⟨forall_mem_append.mpr ⟨h, forall_mem_singleton.mpr hcurrent⟩, ?_⟩
    rw [piecesText_append, piecesText_cons]
    exact congrArg _ (append_nil _)
  rw [pushPiece]
  split
  · exact hadd
  · next combined hcombined =>
      obtain ⟨previous, hlast, hjoin⟩ := Option.bind_eq_some_iff.mp hcombined
      obtain ⟨front, rfl⟩ := getLast?_eq_some_iff.mp hlast
      obtain ⟨hfront, hprevious⟩ := forall_mem_append.mp h
      obtain ⟨hinside, htext⟩ := combine_spec (forall_mem_singleton.mp hprevious) hcurrent hjoin
      rw [dropLast_concat]
      refine ⟨forall_mem_append.mpr ⟨hfront, forall_mem_singleton.mpr hinside⟩, ?_⟩
      rw [piecesText_append, piecesText_append, piecesText_cons, piecesText_cons, htext]
      simp [piecesText]

theorem foldl_pushPiece {current : List Piece} (hcurrent : PiecesInside base current)
    {pieces : List Piece} (h : PiecesInside base pieces) :
    PiecesInside base (current.foldl pushPiece pieces) ∧
      piecesText base (current.foldl pushPiece pieces) =
        piecesText base pieces ++ piecesText base current := by
  induction current generalizing pieces with
  | nil => exact ⟨h, (append_nil _).symm⟩
  | cons piece current ih =>
    obtain ⟨hpiece, hrest⟩ := forall_mem_cons.mp hcurrent
    obtain ⟨hpushed, htext⟩ := pushPiece_spec h hpiece
    obtain ⟨hfinal, hfinalText⟩ := ih hrest hpushed
    rw [foldl_cons, hfinalText, htext, piecesText_cons, append_assoc]
    exact ⟨hfinal, rfl⟩

end Joining

section Compacting

variable {base : PersistentUtf16Rope} {text added : Text} {assembly : RopeAssembly} {start stop : Nat}

section

variable (h : Assembled assembly added)
variable (hbase : Represents base text)
include h hbase

theorem Assembled.appendRopeText (hle : start ≤ stop) (hstop : stop ≤ text.length) :
    Agree Eq Assembled (appendRopeText assembly base start stop)
      (.ok (added ++ sliceText text start stop)) := by
  have hslice : base.slice start stop = .ok (sliceText text start stop) := by
    rw [hbase.slice, PlainText.slice, assertSlice, if_pos (by omega), Int.toNat_natCast,
      Int.toNat_natCast]
    rfl
  rw [Rope.appendRopeText, hslice]
  exact .ok (h.appendText _)

theorem Assembled.copyRopeText (hle : start ≤ stop) (hstop : stop ≤ text.length) :
    Agree Eq Assembled (copyRopeText assembly base start stop)
      (.ok (added ++ sliceText text start stop)) := by
  rw [Rope.copyRopeText]
  split
  · exact h.appendRopeText hbase hle hstop
  · next hnone =>
      rw [sliceText_outside (Or.inl (Nat.le_of_not_lt hnone)), append_nil]
      exact .ok h

omit hbase in
omit h in
theorem Represents.cuts (h : Represents base text) : CutsAs base ⟨text, base.getLeafBoundaries⟩ :=
  ⟨h, rfl⟩

theorem Assembled.shareLeaves
    {first last : Nat} (hle : first ≤ last) (hcount : last ≤ (collectLeaves base.root).length) :
    Agree Eq Assembled (shareLeaves assembly base first last)
      (.ok (added ++ sliceText text (base.getLeafBoundaries.getD first 0)
        (base.getLeafBoundaries.getD last 0))) := by
  rw [Rope.shareLeaves]
  split
  · have hrange := h.appendLeafRange hbase.cuts first last
    rwa [PlainText.run, hbase.cuts.leafCount, assertLeafRange, if_pos (by omega), Int.toNat_natCast,
      Int.toNat_natCast] at hrange
  · next hnone =>
      rw [sliceText_outside (Or.inl (Nat.le_of_not_lt hnone)), append_nil]
      exact .ok h

omit hbase in
omit h in
theorem Represents.boundary_le (h : Represents base text) {first last : Nat} (hle : first ≤ last)
    (hcount : last ≤ (collectLeaves base.root).length) :
    base.getLeafBoundaries.getD first 0 ≤ base.getLeafBoundaries.getD last 0 := by
  rw [h.cuts.boundary (hle.trans hcount), h.cuts.boundary hcount]
  have hfront : (collectLeaves base.root).take last =
      (collectLeaves base.root).take first ++ ((collectLeaves base.root).take last).drop first := by
    have hsplit := take_append_drop first ((collectLeaves base.root).take last)
    rw [take_take, Nat.min_eq_left hle] at hsplit
    exact hsplit.symm
  rw [hfront, leavesText_append, length_append]
  exact Nat.le_add_right _ _

omit hbase in
omit h in
theorem le_lowerBound {values : List Nat} {target : Nat}
    (h : lowerBound values target < values.length) :
    target ≤ values.getD (lowerBound values target) 0 := by
  obtain ⟨value, hvalue, htest⟩ := (PartitionPoint.partitionPoint_between values).after h
  rw [lowerBound, getD_eq_getElem?_getD, hvalue, Option.getD_some]
  exact Nat.le_of_not_lt (of_decide_eq_false htest)

omit hbase in
omit h in
theorem upperBound_le {values : List Nat} {target : Nat} (h : 0 < upperBound values target) :
    upperBound values target ≤ values.length ∧
      values.getD (upperBound values target - 1) 0 ≤ target := by
  have hbetween := @PartitionPoint.partitionPoint_between Nat (fun value => decide (value ≤ target)) values
  obtain ⟨value, hvalue, htest⟩ := hbetween.before h
  refine ⟨hbetween.le_high, ?_⟩
  rw [upperBound, getD_eq_getElem?_getD, hvalue, Option.getD_some]
  exact of_decide_eq_true htest

theorem Assembled.compact
    {first last : Nat} (hfirst : start ≤ base.getLeafBoundaries.getD first 0) (hle : first ≤ last)
    (hcount : last ≤ (collectLeaves base.root).length)
    (hlast : base.getLeafBoundaries.getD last 0 ≤ stop) (hstop : stop ≤ text.length) :
    Agree Eq Assembled (do
        let copied ← Rope.copyRopeText assembly base start (base.getLeafBoundaries.getD first 0)
        let shared ← Rope.shareLeaves copied base first last
        Rope.copyRopeText shared base (base.getLeafBoundaries.getD last 0) stop)
      (.ok (added ++ sliceText text start stop)) := by
  have hmiddle := hbase.boundary_le hle hcount
  refine (h.copyRopeText hbase hfirst (by omega)).bind_ok fun copied hcopied => ?_
  refine (hcopied.shareLeaves hbase hle hcount).bind_ok fun shared hshared => ?_
  have hrest := hshared.copyRopeText hbase hlast hstop
  rwa [append_assoc, append_assoc,
    sliceText_join text hmiddle hlast hstop,
    sliceText_join text hfirst (hmiddle.trans hlast) hstop] at hrest

theorem Assembled.appendRopePiece
    (hle : start ≤ stop) (hstop : stop ≤ text.length) (hasLeftSeam hasRightSeam : Bool) :
    Agree Eq Assembled (appendRopePiece assembly base start stop hasLeftSeam hasRightSeam)
      (.ok (added ++ sliceText text start stop)) := by
  rw [Rope.appendRopePiece]
  split
  · exact h.appendRopeText hbase hle hstop
  dsimp only
  split
  · exact h.appendRopeText hbase hle hstop
  next hshared =>
  have hlength : base.getLeafBoundaries.length = (collectLeaves base.root).length + 1 :=
    length_boundariesFrom
  obtain ⟨hupper, hlast⟩ :=
    @upperBound_le base.getLeafBoundaries stop (by omega)
  have hfirst := @le_lowerBound base.getLeafBoundaries start (by omega)
  have hlastCount : upperBound base.getLeafBoundaries stop - 1 ≤ (collectLeaves base.root).length := by
    omega
  generalize lowerBound base.getLeafBoundaries start = firstIndex at hshared hfirst ⊢
  generalize upperBound base.getLeafBoundaries stop - 1 = lastIndex at hshared hlast hlastCount ⊢
  generalize hstartIndex : (if hasLeftSeam ∨ base.getLeafBoundaries.getD firstIndex 0 ≠ start then
    firstIndex + 1 else firstIndex) = sharedStartIndex
  have hstartLow : firstIndex ≤ sharedStartIndex ∧ sharedStartIndex ≤ lastIndex := by
    split at hstartIndex <;> omega
  generalize hendIndex : (if sharedStartIndex < lastIndex ∧
    (hasRightSeam ∨ base.getLeafBoundaries.getD lastIndex 0 ≠ stop) then lastIndex - 1
    else lastIndex) = sharedEndIndex
  have hendHigh : sharedStartIndex ≤ sharedEndIndex ∧ sharedEndIndex ≤ lastIndex := by
    split at hendIndex <;> omega
  have hlow := hbase.boundary_le hstartLow.1 (by omega)
  have hhigh := hbase.boundary_le hendHigh.2 hlastCount
  exact h.compact hbase (hfirst.trans hlow) hendHigh.1 (hendHigh.2.trans hlastCount)
    (hhigh.trans hlast) hstop

theorem Assembled.appendCompactedPiece
    {piece : Piece} (hpiece : PieceInside text piece) (hasLeftSeam hasRightSeam : Bool) :
    Agree Eq Assembled (appendCompactedPiece assembly base piece hasLeftSeam hasRightSeam)
      (.ok (added ++ piece.text text)) := by
  obtain ⟨hsome, hinside⟩ := hpiece
  rw [Rope.appendCompactedPiece.eq_def, Piece.text]
  cases hkind : piece.kind with
  | text value => exact .ok (h.appendText _)
  | rope =>
    rw [hkind] at hinside
    exact h.appendRopePiece hbase (Nat.le_of_lt hsome) hinside hasLeftSeam hasRightSeam

theorem Assembled.appendCompacted
    {pieces : List Piece} (hpieces : PiecesInside text pieces) (hasLeftSeam : Bool) :
    Agree Eq Assembled (appendCompacted base assembly hasLeftSeam pieces)
      (.ok (added ++ piecesText text pieces)) := by
  induction pieces generalizing assembly added hasLeftSeam with
  | nil =>
    rw [piecesText, flatMap_nil, append_nil]
    exact .ok h
  | cons piece rest ih =>
    obtain ⟨hpiece, hrest⟩ := forall_mem_cons.mp hpieces
    rw [Rope.appendCompacted, piecesText_cons, ← append_assoc]
    exact (h.appendCompactedPiece hbase hpiece hasLeftSeam _).bind_ok fun next hnext =>
      ih hnext hrest true

end

end Compacting

end Softmaple.Rope
