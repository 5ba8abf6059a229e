import Softmaple.Rope.RopeEdits

/-!
What is read of a rope: its leaves make up its text, a place is found in the leaf that holds it,
and a slice is the slice of the text.
-/
namespace Softmaple.Rope

open List

abbrev leavesText (leaves : List LeafNode) : Text := leaves.flatMap (·.text)

section Leaves

variable {height : Nat} {node : RopeNode}

variable {leaf : LeafNode}

theorem collectLeaves_leaf (h : leaf.text ≠ []) : collectLeaves (.leaf leaf) = [leaf] := by
  rw [collectLeaves, if_pos (length_pos_iff.mpr h)]

theorem collectChildLeaves_append (pre post : List RopeNode) :
    collectChildLeaves (pre ++ post) = collectChildLeaves pre ++ collectChildLeaves post := by
  induction pre with
  | nil => rw [collectChildLeaves, nil_append, nil_append]
  | cons child pre ih =>
    rw [cons_append, collectChildLeaves, collectChildLeaves, ih, append_assoc]

theorem collectChildLeaves_spec {children : List RopeNode}
    (h : ∀ child ∈ children, GoodLeaves (collectLeaves child) ∧
      leavesText (collectLeaves child) = child.toText) :
    GoodLeaves (collectChildLeaves children) ∧
      leavesText (collectChildLeaves children) = childrenText children := by
  induction children with
  | nil =>
    rw [collectChildLeaves, childrenText_nil]
    exact ⟨fun leaf hleaf => absurd hleaf not_mem_nil, rfl⟩
  | cons child children ih =>
    rw [forall_mem_cons] at h
    obtain ⟨hgood, htext⟩ := ih h.2
    rw [collectChildLeaves, childrenText_cons]
    refine ⟨forall_mem_append.mpr ⟨h.1.1, hgood⟩, ?_⟩
    rw [leavesText, flatMap_append, ← leavesText, ← leavesText, h.1.2, htext]

theorem WellFormed.collectLeaves (h : WellFormed height node) :
    GoodLeaves (collectLeaves node) ∧ leavesText (Rope.collectLeaves node) = node.toText := by
  induction h with
  | leaf some short exact =>
    rw [collectLeaves_leaf some, toText_leaf]
    refine ⟨fun leaf hleaf => ?_, ?_⟩
    · rw [mem_singleton.mp hleaf]
      exact .leaf some short exact
    · rw [leavesText, flatMap_singleton]
  | branch some narrow each ih =>
    rw [Rope.collectLeaves, toText_branch]
    exact collectChildLeaves_spec ih

theorem IsRoot.collectLeaves (h : IsRoot node) :
    GoodLeaves (Rope.collectLeaves node) ∧ leavesText (Rope.collectLeaves node) = node.toText := by
  cases h with
  | inl heq =>
    rw [heq, toText_empty, EMPTY_LEAF, Rope.collectLeaves]
    exact ⟨fun leaf hleaf => absurd hleaf not_mem_nil, rfl⟩
  | inr hformed =>
    obtain ⟨height, hformed⟩ := hformed
    exact hformed.collectLeaves

variable {leaves : List LeafNode}

theorem GoodLeaves.some (h : GoodLeaves leaves) (hleaf : leaf ∈ leaves) : 0 < leaf.text.length := by
  cases h leaf hleaf with
  | leaf some short exact => exact length_pos_iff.mpr some

structure HoldsAt (leaves : List LeafNode) (place : Nat) (leaf : LeafNode) (start : Nat) : Prop where
  split : ∃ before after, leaves = before ++ leaf :: after ∧ (leavesText before).length = start
  low : start ≤ place
  high : place < start + leaf.text.length

theorem locateLeaf_spec {place : Nat} (h : WellFormed height node)
    (hplace : place < node.toText.length) (start : Nat) :
    ∃ leaf found, locateLeaf place start node = some (leaf, start + found) ∧
      HoldsAt (collectLeaves node) place leaf found := by
  induction h generalizing place start with
  | @leaf leaf some short exact =>
    rw [toText_leaf] at hplace
    rw [locateLeaf, collectLeaves_leaf some]
    exact ⟨leaf, 0, rfl, ⟨[], [], rfl, rfl⟩, Nat.zero_le _, by rwa [Nat.zero_add]⟩
  | @branch children height some narrow each ih =>
    rw [toText_branch] at hplace
    obtain ⟨pre, child, post, rfl, hlow, hhigh⟩ := exists_child hplace
    have hindex := @lowerBound_ends pre post child (place + 1) (by omega) (by omega)
    have hget := @getElem?_child pre post child
    have hmem : child ∈ pre ++ child :: post := by simp
    rw [locateLeaf, hindex]
    split
    · next hnone =>
        rw [hget] at hnone
        cases hnone
    · next found hfound =>
        rw [hget] at hfound
        obtain rfl := Option.some.inj hfound
        rw [childStartAt_eq]
        obtain ⟨leaf, inner, hlocate, ⟨before, after, hsplit, hlength⟩, hbelow, habove⟩ :=
          @ih child hmem (place - (childrenText pre).length) (by omega)
            (start + (childrenText pre).length)
        have hpre := @collectChildLeaves_spec pre fun other hother =>
          (each other (mem_append_left _ hother)).collectLeaves
        refine ⟨leaf, (childrenText pre).length + inner, ?_, ⟨collectChildLeaves pre ++ before,
          after ++ collectChildLeaves post, ?_, ?_⟩, by omega, by omega⟩
        · rw [hlocate, Nat.add_assoc]
        · rw [collectLeaves, collectChildLeaves_append, collectChildLeaves, hsplit]
          simp only [append_assoc, cons_append]
        · rw [leavesText, flatMap_append, ← leavesText, ← leavesText, length_append,
            hpre.2, hlength]

theorem HoldsAt.unique {place start other : Nat} {found : LeafNode}
    (h : HoldsAt leaves place leaf start) (k : HoldsAt leaves place found other) :
    leaf = found ∧ start = other := by
  obtain ⟨⟨before, after, hsplit, rfl⟩, hlow, hhigh⟩ := h
  obtain ⟨⟨front, back, hagain, rfl⟩, hbelow, habove⟩ := k
  rw [hsplit] at hagain
  have hleft : ∀ {first second : List LeafNode} {item : LeafNode} {rest : List LeafNode},
      second = first ++ item :: rest → (leavesText second).length =
        (leavesText first).length + item.text.length + (leavesText rest).length := by
    intro first second item rest hsecond
    rw [hsecond, leavesText, flatMap_append, flatMap_cons, length_append,
      length_append, Nat.add_assoc]
  cases append_eq_append_iff.mp hagain with
  | inl hafter =>
    obtain ⟨between, hfront, hrest⟩ := hafter
    cases between with
    | nil =>
      rw [append_nil] at hfront
      rw [hfront]
      exact ⟨(cons_eq_cons.mp hrest).1, rfl⟩
    | cons item rest =>
      obtain ⟨hitem, -⟩ := cons_eq_cons.mp hrest
      rw [← hitem] at hfront
      have hlength := hleft hfront
      omega
  | inr hbefore =>
    obtain ⟨between, hfront, hrest⟩ := hbefore
    cases between with
    | nil =>
      rw [append_nil] at hfront
      rw [hfront]
      exact ⟨(cons_eq_cons.mp hrest).1.symm, rfl⟩
    | cons item rest =>
      obtain ⟨hitem, -⟩ := cons_eq_cons.mp hrest
      rw [← hitem] at hfront
      have hlength := hleft hfront
      omega

theorem HoldsAt.getElem? {place start : Nat}
    (h : HoldsAt leaves place leaf start) : (leavesText leaves)[place]? = leaf.text[place - start]? := by
  obtain ⟨⟨before, after, rfl, rfl⟩, hlow, hhigh⟩ := h
  rw [leavesText, flatMap_append, flatMap_cons, getElem?_append_right hlow,
    getElem?_append_left (by omega)]

end Leaves

section Slices

variable {start stop : Nat}

theorem sliceText_append (first second : Text) : sliceText (first ++ second) start stop =
    sliceText first start stop ++ sliceText second (start - first.length) (stop - first.length) := by
  rw [sliceText, sliceText, sliceText, take_append, drop_append, length_take]
  by_cases hle : first.length ≤ stop
  · rw [Nat.min_eq_right hle]
  · have hzero : stop - first.length = 0 := by omega
    rw [hzero, take_zero, drop_nil, drop_nil]

theorem sliceText_outside {text : Text} (h : stop ≤ start ∨ text.length ≤ start) :
    sliceText text start stop = [] := by
  rw [sliceText]
  apply drop_eq_nil_of_le
  rw [length_take]
  omega

theorem sliceText_min (text : Text) (start stop : Nat) :
    sliceText text start (min text.length stop) = sliceText text start stop := by
  rw [sliceText, sliceText, Nat.min_comm, ← take_eq_take_min]

theorem sliceText_whole (text : Text) {stop : Nat} (h : text.length ≤ stop) :
    sliceText text 0 stop = text := by
  rw [sliceText, take_of_length_le h, drop_zero]

variable {height nodeStart : Nat} {node : RopeNode}

theorem collectChildSlice_eq {children : List RopeNode}
    (hlength : ∀ child ∈ children, child.length = child.toText.length)
    (h : ∀ child ∈ children, ∀ nodeStart, collectSlice start stop nodeStart child =
      sliceText child.toText (start - nodeStart) (stop - nodeStart)) (childStart : Nat) :
    collectChildSlice start stop childStart children =
      sliceText (childrenText children) (start - childStart) (stop - childStart) := by
  induction children generalizing childStart with
  | nil =>
    rw [collectChildSlice, childrenText_nil, sliceText_outside]
    exact Or.inr (Nat.zero_le _)
  | cons child children ih =>
    rw [forall_mem_cons] at h hlength
    rw [collectChildSlice, childrenText_cons, sliceText_append, h.1, hlength.1]
    congr 1
    split
    · rw [sliceText_outside]
      exact Or.inl (by omega)
    · rw [ih hlength.2 h.2, Nat.sub_add_eq, Nat.sub_add_eq]

theorem WellFormed.collectSlice (h : WellFormed height node) (nodeStart : Nat) :
    Rope.collectSlice start stop nodeStart node =
      sliceText node.toText (start - nodeStart) (stop - nodeStart) := by
  induction h generalizing nodeStart with
  | @leaf leaf some short exact =>
    rw [Rope.collectSlice, toText_leaf]
    split
    · rw [sliceText_outside]
      omega
    · exact sliceText_min _ _ _
  | @branch children height some narrow each ih =>
    rw [Rope.collectSlice, toText_branch]
    split
    · rw [sliceText_outside]
      omega
    · exact collectChildSlice_eq (fun child hchild => (each child hchild).length_eq) ih _

structure SliceLeaves (text : Text) (start stop : Nat) (leaves : List LeafNode) : Prop where
  good : GoodLeaves leaves
  text : leavesText leaves = sliceText text start stop

theorem sliceLeaves_nil {text : Text} (h : stop ≤ start ∨ text.length ≤ start) :
    SliceLeaves text start stop [] where
  good _ hleaf := absurd hleaf not_mem_nil
  text := (sliceText_outside h).symm

theorem SliceLeaves.append {first second : Text} {left right : List LeafNode}
    (h : SliceLeaves first start stop left)
    (k : SliceLeaves second (start - first.length) (stop - first.length) right) :
    SliceLeaves (first ++ second) start stop (left ++ right) where
  good := forall_mem_append.mpr ⟨h.good, k.good⟩
  text := by
    rw [leavesText, flatMap_append, ← leavesText, ← leavesText, h.text, k.text,
      sliceText_append]

theorem WellFormed.sliceWhole (h : WellFormed height node) (hstart : start = 0)
    (hstop : node.toText.length ≤ stop) :
    SliceLeaves node.toText start stop (Rope.collectLeaves node) where
  good := h.collectLeaves.1
  text := by rw [h.collectLeaves.2, hstart, sliceText_whole _ hstop]

theorem sliceLeaves_leaf {leaf : LeafNode} (hshort : leaf.text.length ≤ UTF16_ROPE_MAX_LEAF)
    (hexact : leaf.utf16 = analyzeUtf16 leaf.text) :
    SliceLeaves leaf.text start stop
      (if 0 < (sliceText leaf.text start (min leaf.text.length stop)).length then
        [⟨sliceText leaf.text start (min leaf.text.length stop),
          if leaf.utf16.hasSurrogateCodeUnits then
            analyzeUtf16 (sliceText leaf.text start (min leaf.text.length stop))
          else bmpUtf16Metadata (sliceText leaf.text start (min leaf.text.length stop))⟩]
      else []) := by
  rw [sliceText_min]
  split
  · next hsome =>
      refine ⟨?_, ?_⟩
      · intro part hpart
        rw [mem_singleton.mp hpart]
        refine .leaf (length_pos_iff.mp hsome) ?_ ?_
        · rw [sliceText, length_drop, length_take]
          omega
        · split
          · rfl
          · next hplain =>
              apply bmpUtf16Metadata_eq
              rw [hexact] at hplain
              apply containsUtf16SurrogateCodeUnit_sub _ (Bool.eq_false_iff.mpr hplain)
              exact fun unit hunit => mem_of_mem_take (mem_of_mem_drop hunit)
      · rw [leavesText, flatMap_singleton]
  · next hnone =>
      refine ⟨fun part hpart => absurd hpart not_mem_nil, ?_⟩
      exact (length_eq_zero_iff.mp (by omega)).symm

theorem collectChildSliceLeaves_spec {children : List RopeNode}
    (hlength : ∀ child ∈ children, child.length = child.toText.length)
    (h : ∀ child ∈ children, ∀ nodeStart, SliceLeaves child.toText (start - nodeStart)
      (stop - nodeStart) (collectSliceLeaves start stop nodeStart child)) (childStart : Nat) :
    SliceLeaves (childrenText children) (start - childStart) (stop - childStart)
      (collectChildSliceLeaves start stop childStart children) := by
  induction children generalizing childStart with
  | nil =>
    rw [collectChildSliceLeaves, childrenText_nil]
    exact sliceLeaves_nil (Or.inr (Nat.zero_le _))
  | cons child children ih =>
    rw [forall_mem_cons] at h hlength
    rw [collectChildSliceLeaves, childrenText_cons, hlength.1]
    apply (h.1 childStart).append
    split
    · exact sliceLeaves_nil (Or.inl (by omega))
    · have hrest := ih hlength.2 h.2 (childStart + child.toText.length)
      rwa [Nat.sub_add_eq, Nat.sub_add_eq] at hrest

theorem WellFormed.collectSliceLeaves (h : WellFormed height node) (nodeStart : Nat) :
    SliceLeaves node.toText (start - nodeStart) (stop - nodeStart)
      (collectSliceLeaves start stop nodeStart node) := by
  induction h generalizing nodeStart with
  | @leaf leaf some short exact =>
    have hleaf : WellFormed 0 (.leaf leaf) := .leaf some short exact
    rw [Rope.collectSliceLeaves]
    split
    · rw [toText_leaf]
      exact sliceLeaves_nil (by omega)
    · split
      · refine hleaf.sliceWhole (by omega) ?_
        rw [toText_leaf]
        omega
      · rw [toText_leaf]
        exact sliceLeaves_leaf short exact
  | @branch children height some narrow each ih =>
    rw [Rope.collectSliceLeaves]
    split
    · rw [toText_branch]
      exact sliceLeaves_nil (by omega)
    · split
      · refine (WellFormed.branch some narrow each).sliceWhole (by omega) ?_
        rw [toText_branch]
        omega
      · rw [toText_branch]
        exact collectChildSliceLeaves_spec (fun child hchild => (each child hchild).length_eq) ih _

end Slices

end Softmaple.Rope

namespace Softmaple.Rope

open List

section Collapsing

variable {node : RopeNode}

theorem IsRoot.collapseRoot (h : IsRoot node) :
    IsRoot (collapseRoot node) ∧ (Rope.collapseRoot node).toText = node.toText := by
  cases h with
  | inl heq =>
    have hsame : Rope.collapseRoot EMPTY_LEAF = EMPTY_LEAF := by rw [EMPTY_LEAF, Rope.collapseRoot]; rintro _ _ _ _ _ ⟨⟩
    rw [heq, hsame]
    exact ⟨isRoot_empty, rfl⟩
  | inr hformed =>
    obtain ⟨height, hformed⟩ := hformed
    obtain ⟨top, hcollapsed, htext, -⟩ := hformed.collapseRoot
    exact ⟨hcollapsed.isRoot, htext⟩

theorem Remains.isRoot {height start stop : Nat} {text : Text} {result : DeleteResult}
    (h : Remains height text start stop result) :
    IsRoot (result.node.getD EMPTY_LEAF) ∧
      (result.node.getD EMPTY_LEAF).toText = text.take start ++ text.drop stop := by
  cases hnode : result.node with
  | none =>
    have htext := h.text
    rw [hnode] at htext
    exact ⟨isRoot_empty, toText_empty.trans htext⟩
  | some left =>
    have htext := h.text
    rw [hnode] at htext
    exact ⟨(h.formed left hnode).isRoot, htext⟩

theorem Collapsed.leaves {height : Nat} (hcollapsed : Collapsed node) (h : WellFormed height node)
    (hheight : 0 < height) : 2 ≤ (collectLeaves node).length := by
  cases h with
  | leaf some short exact => exact absurd hheight (Nat.lt_irrefl 0)
  | @branch children height some narrow each =>
    have hsome : ∀ child ∈ children, 0 < (collectLeaves child).length := by
      intro child hchild
      rw [length_pos_iff]
      intro hnone
      have htext := (each child hchild).collectLeaves.2
      rw [hnone] at htext
      exact (each child hchild).toText_ne_nil htext.symm
    cases children with
    | nil => exact absurd rfl some
    | cons first rest =>
      cases rest with
      | nil => exact absurd rfl (hcollapsed first _ _ _ _)
      | cons second rest =>
        rw [collectLeaves, collectChildLeaves, collectChildLeaves, length_append,
          length_append]
        have hfirst := hsome first (by simp)
        have hsecond := hsome second (by simp)
        omega

end Collapsing

section Neighbours

variable {leaves : List LeafNode} {place start : Nat} {leaf : LeafNode}

/-- Two leaves that stand next to each other, the first one from `start` on. -/
def Neighbours (leaves : List LeafNode) (left right : LeafNode) (start : Nat) : Prop :=
  ∃ before after, leaves = before ++ left :: right :: after ∧ (leavesText before).length = start

theorem HoldsAt.right (h : HoldsAt leaves place leaf start) (hgood : GoodLeaves leaves)
    (hmore : start + leaf.text.length < (leavesText leaves).length) {right : LeafNode} {other : Nat}
    (hright : HoldsAt leaves (start + leaf.text.length) right other) :
    Neighbours leaves leaf right start ∧ other = start + leaf.text.length := by
  obtain ⟨⟨before, after, hsplit, hlength⟩, -, -⟩ := h
  cases after with
  | nil =>
    rw [hsplit, leavesText, flatMap_append, flatMap_singleton, length_append,
      ← leavesText, hlength] at hmore
    exact absurd hmore (Nat.lt_irrefl _)
  | cons next after =>
    have hnext : 0 < next.text.length := hgood.some (by simp [hsplit])
    have hholds : HoldsAt leaves (start + leaf.text.length) next (start + leaf.text.length) := by
      refine ⟨⟨before ++ [leaf], after, by simp [hsplit], ?_⟩, Nat.le_refl _, by omega⟩
      rw [leavesText, flatMap_append, flatMap_singleton, length_append,
        ← leavesText, hlength]
    obtain ⟨hsame, hstart⟩ := hright.unique hholds
    rw [hsame]
    exact ⟨⟨before, after, hsplit, hlength⟩, hstart⟩

theorem HoldsAt.left (h : HoldsAt leaves place leaf start) (hgood : GoodLeaves leaves)
    (hmany : 2 ≤ leaves.length) (hlast : (leavesText leaves).length ≤ start + leaf.text.length)
    {left : LeafNode} {other : Nat} (hleft : HoldsAt leaves (start - 1) left other) :
    Neighbours leaves left leaf other ∧ other + left.text.length = start := by
  obtain ⟨⟨before, after, hsplit, hlength⟩, -, -⟩ := h
  have hafter : after = [] := by
    cases after with
    | nil => rfl
    | cons next after =>
      have hnext : 0 < next.text.length := hgood.some (by simp [hsplit])
      rw [hsplit, leavesText, flatMap_append, flatMap_cons, flatMap_cons,
        length_append, length_append, length_append, ← leavesText, hlength] at hlast
      omega
  have hbefore : before ≠ [] := by
    intro hnone
    rw [hsplit, hnone, hafter] at hmany
    exact absurd hmany (by simp)
  obtain ⟨front, previous, hfront⟩ := (eq_nil_or_concat before).resolve_left hbefore
  rw [concat_eq_append] at hfront
  have hprevious : 0 < previous.text.length := hgood.some (by simp [hsplit, hfront])
  have hends : (leavesText front).length + previous.text.length = start := by
    rw [← hlength, hfront, leavesText, leavesText, flatMap_append, flatMap_singleton,
      length_append]
  have hholds : HoldsAt leaves (start - 1) previous (leavesText front).length :=
    ⟨⟨front, leaf :: after, by simp [hsplit, hfront], rfl⟩, by omega, by omega⟩
  obtain ⟨hsame, hstart⟩ := hleft.unique hholds
  rw [hsame, hstart]
  exact ⟨⟨front, after, by simp [hsplit, hfront], rfl⟩, hends⟩

theorem rebalancePair_spec {height : Nat} {root : RopeNode} (h : WellFormed height root)
    (hcollapsed : Collapsed root) (hheight : 0 < height) {target : LeafNode × Nat}
    (htarget : HoldsAt (collectLeaves root) place target.1 target.2) :
    ∃ left right, rebalancePair root target = some (left, right) ∧
      Neighbours (collectLeaves root) left.1 right.1 left.2 ∧
      right.2 = left.2 + left.1.text.length := by
  obtain ⟨hgood, htext⟩ := h.collectLeaves
  rw [rebalancePair, h.length_eq]
  split
  · next hmore =>
      obtain ⟨right, found, hlocate, hright⟩ := locateLeaf_spec h hmore 0
      rw [hlocate, Nat.zero_add]
      rw [← htext] at hmore
      obtain ⟨hneighbours, hstart⟩ := htarget.right hgood hmore hright
      exact ⟨target, (right, found), rfl, hneighbours, hstart⟩
  · next hlast =>
      have hinside : target.2 - 1 < root.toText.length := by
        have hlow := htarget.low
        have hhigh := htarget.high
        obtain ⟨⟨before, after, hsplit, hlength⟩, -, -⟩ := htarget
        rw [← htext, hsplit, leavesText, flatMap_append, flatMap_cons,
          length_append, length_append, ← leavesText, hlength]
        omega
      obtain ⟨left, found, hlocate, hleft⟩ := locateLeaf_spec h hinside 0
      rw [hlocate, Nat.zero_add]
      rw [← htext] at hlast
      obtain ⟨hneighbours, hends⟩ := htarget.left hgood (hcollapsed.leaves h hheight)
        (Nat.le_of_not_lt hlast) hleft
      exact ⟨(left, found), target, rfl, hneighbours, hends.symm⟩

end Neighbours

theorem splice_deletion (before own after : Text) :
    Text.splice ((before ++ (own ++ after)).take before.length ++
      (before ++ (own ++ after)).drop (before.length + own.length)) before.length own =
      before ++ (own ++ after) := by
  rw [take_left, ← append_assoc before own, ← length_append, drop_left,
    Text.splice, take_left, drop_left]

theorem WellFormed.rebalance {height : Nat} {root : RopeNode} (h : WellFormed height root)
    (hcollapsed : Collapsed root) (index : Nat) :
    ∃ top, WellFormed top (rebalanceLeafContaining root index) ∧
      (rebalanceLeafContaining root index).toText = root.toText ∧
      Collapsed (rebalanceLeafContaining root index) := by
  have hsame : ∃ top, WellFormed top root ∧ root.toText = root.toText ∧ Collapsed root :=
    ⟨height, h, rfl, hcollapsed⟩
  rw [rebalanceLeafContaining.eq_def]
  split
  · exact hsame
  · next children ends length level utf16 =>
      have hheight : 0 < height := by
        cases h with
        | branch some narrow each => exact Nat.succ_pos _
      have hlength : length = (RopeNode.branch children ends length level utf16).toText.length :=
        h.length_eq
      split
      · exact hsame
      · next hinside =>
          obtain ⟨leaf, start, hlocate, hholds⟩ := locateLeaf_spec h
            (show index < _ by rw [← hlength]; omega) 0
          rw [hlocate, Nat.zero_add]
          dsimp only
          split
          · exact hsame
          · obtain ⟨left, right, hpair, ⟨before, after, hsplit, hbefore⟩, hright⟩ :=
              @rebalancePair_spec index height _ h hcollapsed hheight (leaf, start) hholds
            obtain ⟨hgood, htext⟩ := h.collectLeaves
            have hleft : 0 < left.1.text.length := hgood.some (by simp [hsplit])
            rw [hpair]
            dsimp only
            have hwhole : (RopeNode.branch children ends length level utf16).toText =
                leavesText before ++ ((left.1.text ++ right.1.text) ++ leavesText after) := by
              rw [← htext, hsplit, leavesText, flatMap_append, flatMap_cons,
                flatMap_cons]
              simp only [append_assoc]
            have hstop : right.2 + right.1.text.length =
                left.2 + (left.1.text ++ right.1.text).length := by
              rw [hright, length_append, Nat.add_assoc]
            have hrange := @WellFormed.delete left.2 (right.2 + right.1.text.length) height _ h
              (by rw [hstop, length_append]; omega)
              (by
                rw [hwhole, hstop, ← hbefore]
                simp only [length_append]
                omega)
            obtain ⟨hroot, hremains⟩ := hrange.isRoot
            obtain ⟨hremoved, hremovedText⟩ := hroot.collapseRoot
            rw [hremains, hwhole, hstop, ← hbefore] at hremovedText
            obtain ⟨top, hinserted, hinsertedText⟩ := @IsRoot.insert left.2 _
              (left.1.text ++ right.1.text) hremoved
              (by
                rw [hstop, ← hbefore, hremovedText, take_left]
                simp only [length_append]
                omega)
              (by simp [length_pos_iff.mp hleft])
            obtain ⟨final, hbuilt, hbuiltText, hbuiltRoot⟩ := hinserted.build
            refine ⟨final, hbuilt, ?_, hbuiltRoot⟩
            rw [hbuiltText, hinsertedText, hstop, ← hbefore, hremovedText, splice_deletion, hwhole]

end Softmaple.Rope
