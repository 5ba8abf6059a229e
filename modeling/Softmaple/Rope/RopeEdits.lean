import Softmaple.Rope.RopeInvariant

/-!
What insertion and deletion make of a rope's text, and that they keep it well formed. A deletion
leaves short leaves at its seam, which are merged with a neighbour.
-/
namespace Softmaple.Rope

open EvenParts PartitionPoint List

def IsRoot (node : RopeNode) : Prop := node = EMPTY_LEAF ∨ ∃ height, WellFormed height node

theorem WellFormed.isRoot {height : Nat} {node : RopeNode} (h : WellFormed height node) :
    IsRoot node := Or.inr ⟨height, h⟩

theorem isRoot_empty : IsRoot EMPTY_LEAF := Or.inl rfl

@[simp] theorem toText_empty : EMPTY_LEAF.toText = [] := by rw [EMPTY_LEAF, toText_leaf]

theorem IsRoot.length_eq {node : RopeNode} (h : IsRoot node) : node.length = node.toText.length := by
  cases h with
  | inl heq => rw [heq, toText_empty]; rfl
  | inr hformed => obtain ⟨height, hformed⟩ := hformed; exact hformed.length_eq

theorem IsRoot.utf16_eq {node : RopeNode} (h : IsRoot node) :
    node.utf16 = analyzeUtf16 node.toText := by
  cases h with
  | inl heq => rw [heq, toText_empty]; rfl
  | inr hformed => obtain ⟨height, hformed⟩ := hformed; exact hformed.utf16_eq

structure SameHeight (height : Nat) (nodes : List RopeNode) : Prop where
  some : nodes ≠ []
  each : ∀ node ∈ nodes, WellFormed height node

section Levels

variable {height : Nat} {nodes : List RopeNode}

theorem ceilDiv_spec {length size : Nat} (hlength : 0 < length) (hsize : 0 < size) :
    0 < ceilDiv length size ∧ ceilDiv length size ≤ length ∧ length ≤ size * ceilDiv length size := by
  have hdiv := Nat.div_add_mod (length + size - 1) size
  have hmod := Nat.mod_lt (length + size - 1) hsize
  refine ⟨Nat.div_pos (by omega) hsize, ?_, ?_⟩
  · apply Nat.div_le_of_le_mul
    have hmul : length + size ≤ size * length + 1 := by
      obtain ⟨rest, rfl⟩ := Nat.exists_eq_add_of_lt hsize
      rw [Nat.zero_add, Nat.add_mul, Nat.one_mul]
      have hrest : rest ≤ rest * length := Nat.le_mul_of_pos_right rest hlength
      omega
    omega
  · rw [ceilDiv]
    omega

theorem SameHeight.group (h : SameHeight height nodes) {group : List RopeNode}
    (hgroup : group ∈ partitionLevel nodes) :
    SameHeight height group ∧ group.length ≤ UTF16_ROPE_BRANCH_FACTOR := by
  have hlength : 0 < nodes.length := length_pos_iff.mpr h.some
  have hspec := @ceilDiv_spec nodes.length UTF16_ROPE_BRANCH_FACTOR hlength (by decide)
  have hcount : max 1 (ceilDiv nodes.length UTF16_ROPE_BRANCH_FACTOR) =
      ceilDiv nodes.length UTF16_ROPE_BRANCH_FACTOR := by omega
  rw [partitionLevel, hcount] at hgroup
  obtain ⟨hsome, hwidth⟩ := evenParts_length hspec.1 hspec.2.1 hspec.2.2 hgroup
  refine ⟨⟨length_pos_iff.mp hsome, ?_⟩, hwidth⟩
  intro node hnode
  apply h.each
  have hflat := @flatten_evenParts _ (ceilDiv nodes.length UTF16_ROPE_BRANCH_FACTOR) nodes hspec.1
  rw [← hflat]
  exact mem_flatten.mpr ⟨group, hgroup, hnode⟩

theorem flatten_partitionLevel : (partitionLevel nodes).flatten = nodes :=
  flatten_evenParts (by omega)

theorem SameHeight.nextLevel (h : SameHeight height nodes) :
    SameHeight (height + 1) (nextLevel nodes) ∧
      childrenText (Rope.nextLevel nodes) = childrenText nodes := by
  have hgroups : ∀ groups : List (List RopeNode), (∀ group ∈ groups, group ∈ partitionLevel nodes) →
      childrenText (groups.map branch) = childrenText groups.flatten := by
    intro groups hsub
    induction groups with
    | nil => rw [map_nil, flatten_nil]
    | cons group groups ih =>
      rw [forall_mem_cons] at hsub
      obtain ⟨hgroup, -⟩ := h.group hsub.1
      rw [map_cons, childrenText_cons, ih hsub.2, toText_branch_of hgroup.some hgroup.each,
        flatten_cons, childrenText_append]
  refine ⟨⟨?_, ?_⟩, ?_⟩
  · rw [Rope.nextLevel, ne_eq, map_eq_nil_iff, partitionLevel, ← length_eq_zero_iff,
      length_evenParts]
    omega
  · intro node hnode
    obtain ⟨group, hgroup, rfl⟩ := mem_map.mp hnode
    obtain ⟨hsame, hwidth⟩ := h.group hgroup
    exact wellFormed_branch hsame.some hwidth hsame.each
  · rw [Rope.nextLevel, hgroups _ fun _ hgroup => hgroup, flatten_partitionLevel]

theorem SameHeight.buildLevels (h : SameHeight height nodes) :
    ∃ top node, buildLevels nodes = [node] ∧ WellFormed top node ∧
      node.toText = childrenText nodes := by
  induction nodes using Rope.buildLevels.induct generalizing height with
  | case1 nodes hmany ih =>
    obtain ⟨hnext, htext⟩ := h.nextLevel
    obtain ⟨top, node, hbuild, hformed, hnode⟩ := ih hnext
    rw [Rope.buildLevels, if_pos hmany]
    exact ⟨top, node, hbuild, hformed, hnode.trans htext⟩
  | case2 nodes hone =>
    rw [Rope.buildLevels, if_neg hone]
    cases nodes with
    | nil => exact absurd rfl h.some
    | cons node rest =>
      have hrest : rest = [] := by
        rw [length_cons] at hone
        exact length_eq_zero_iff.mp (by omega)
      rw [hrest, childrenText_cons, childrenText_nil, append_nil]
      exact ⟨height, node, rfl, h.each node mem_cons_self, rfl⟩

def Collapsed (node : RopeNode) : Prop :=
  ∀ child ends length height utf16, node ≠ .branch [child] ends length height utf16

theorem WellFormed.collapseRoot {node : RopeNode} (h : WellFormed height node) :
    ∃ top, WellFormed top (collapseRoot node) ∧ (collapseRoot node).toText = node.toText ∧
      Collapsed (collapseRoot node) := by
  induction h with
  | @leaf leaf some short exact =>
    rw [Rope.collapseRoot]
    · exact ⟨0, .leaf some short exact, rfl, nofun⟩
    · nofun
  | @branch children height some narrow each ih =>
    by_cases hone : ∃ child, children = [child]
    · obtain ⟨child, rfl⟩ := hone
      obtain ⟨top, hformed, htext, hcollapsed⟩ := ih child mem_cons_self
      rw [Rope.collapseRoot]
      refine ⟨top, hformed, ?_, hcollapsed⟩
      rw [htext, toText_branch, childrenText_cons, childrenText_nil, append_nil]
    · rw [Rope.collapseRoot]
      · refine ⟨height + 1, .branch some narrow each, rfl, ?_⟩
        intro child ends length top utf16 heq
        cases heq
        exact hone ⟨child, rfl⟩
      · intro child ends length top utf16 heq
        cases heq
        exact hone ⟨child, rfl⟩

theorem SameHeight.build (h : SameHeight height nodes) :
    ∃ top, WellFormed top (buildFromSameHeightNodes nodes) ∧
      (buildFromSameHeightNodes nodes).toText = childrenText nodes ∧
      Collapsed (buildFromSameHeightNodes nodes) := by
  obtain ⟨level, node, hbuild, hformed, htext⟩ := h.buildLevels
  obtain ⟨top, hcollapsed, hsame, hroot⟩ := hformed.collapseRoot
  rw [buildFromSameHeightNodes, hbuild]
  exact ⟨top, hcollapsed, hsame.trans htext, hroot⟩

def GoodLeaves (leaves : List LeafNode) : Prop := ∀ leaf ∈ leaves, WellFormed 0 (.leaf leaf)

theorem buildTree_spec {leaves : List LeafNode} (h : GoodLeaves leaves) :
    IsRoot (buildTree leaves) ∧ (buildTree leaves).toText = leaves.flatMap (·.text) := by
  by_cases hnone : leaves = []
  · have hempty : buildTree leaves = EMPTY_LEAF := by
      rw [hnone, buildTree, map_nil, Rope.buildLevels, if_neg (by simp)]
      rfl
    rw [hempty, hnone, toText_empty]
    exact ⟨isRoot_empty, rfl⟩
  · have hsame : SameHeight 0 (leaves.map .leaf) := by
      refine ⟨by simpa using hnone, ?_⟩
      intro node hnode
      obtain ⟨leaf, hleaf, rfl⟩ := mem_map.mp hnode
      exact h leaf hleaf
    obtain ⟨top, node, hbuild, hformed, htext⟩ := hsame.buildLevels
    rw [buildTree, hbuild, ← childrenText_leaves]
    exact ⟨hformed.isRoot, htext⟩

end Levels

section Leaves

variable {text : Text}

theorem pairsAfter_plain (h : containsUtf16SurrogateCodeUnit text = false) :
    ∀ previous, pairsAfter previous text = false := by
  induction text with
  | nil => exact fun _ => rfl
  | cons current rest ih =>
    intro previous
    rw [containsUtf16SurrogateCodeUnit, any_cons, Bool.or_eq_false_iff] at h
    have hlow : isLowSurrogate current = false := by
      have hcurrent := h.1
      rw [isSurrogate, Bool.or_eq_false_iff] at hcurrent
      exact hcurrent.2
    rw [pairsAfter, hlow, Bool.and_false, Bool.false_or]
    exact ih h.2 _

theorem bmpUtf16Metadata_eq (h : containsUtf16SurrogateCodeUnit text = false) :
    bmpUtf16Metadata text = analyzeUtf16 text := by
  rw [bmpUtf16Metadata, analyzeUtf16, h, pairsAfter_plain h]

theorem containsUtf16SurrogateCodeUnit_sub {part : Text} (hsub : ∀ unit ∈ part, unit ∈ text)
    (h : containsUtf16SurrogateCodeUnit text = false) :
    containsUtf16SurrogateCodeUnit part = false := by
  rw [containsUtf16SurrogateCodeUnit, any_eq_false] at h ⊢
  exact fun unit hunit => h unit (hsub unit hunit)

theorem chunkText_spec {knownBmp : Bool}
    (hknown : knownBmp = true → containsUtf16SurrogateCodeUnit text = false) :
    GoodLeaves (chunkText text knownBmp) ∧ (chunkText text knownBmp).flatMap (·.text) = text ∧
      (text ≠ [] → chunkText text knownBmp ≠ []) := by
  rw [chunkText]
  by_cases hempty : text = []
  · rw [if_pos hempty, hempty]
    exact ⟨fun leaf hleaf => absurd hleaf not_mem_nil, rfl, fun hne => absurd rfl hne⟩
  · rw [if_neg hempty]
    have hlength : 0 < text.length := length_pos_iff.mpr hempty
    have hspec := @ceilDiv_spec text.length UTF16_ROPE_TARGET_LEAF hlength (by decide)
    have hcount : max 1 (ceilDiv text.length UTF16_ROPE_TARGET_LEAF) =
        ceilDiv text.length UTF16_ROPE_TARGET_LEAF := by omega
    rw [hcount]
    have hflat := @flatten_evenParts _ (ceilDiv text.length UTF16_ROPE_TARGET_LEAF) text hspec.1
    refine ⟨?_, ?_, ?_⟩
    · intro leaf hleaf
      obtain ⟨chunk, hchunk, rfl⟩ := mem_map.mp hleaf
      obtain ⟨hsome, hshort⟩ := evenParts_length hspec.1 hspec.2.1 hspec.2.2 hchunk
      refine .leaf (length_pos_iff.mp hsome) (Nat.le_trans hshort (by decide)) ?_
      cases knownBmp with
      | false => rfl
      | true =>
        apply bmpUtf16Metadata_eq
        apply containsUtf16SurrogateCodeUnit_sub _ (hknown rfl)
        intro unit hunit
        rw [← hflat]
        exact mem_flatten.mpr ⟨chunk, hchunk, hunit⟩
    · rw [flatMap_map]
      simpa [flatMap_id'] using hflat
    · intro _ hnone
      have hzero := congrArg List.length hnone
      rw [length_map, length_evenParts, length_nil] at hzero
      omega

end Leaves

section Insertion

variable {height index : Nat} {node : RopeNode} {text : Text}

theorem splice_within (pre own post : Text) (hlow : pre.length ≤ index)
    (hhigh : index ≤ pre.length + own.length) :
    Text.splice (pre ++ (own ++ post)) index text =
      pre ++ (Text.splice own (index - pre.length) text ++ post) := by
  obtain ⟨offset, rfl⟩ := Nat.exists_eq_add_of_le hlow
  rw [Nat.add_sub_cancel_left]
  simp only [Text.splice]
  rw [take_append, take_of_length_le (by omega), drop_append,
    drop_eq_nil_of_le (by omega), Nat.add_sub_cancel_left,
    take_append_of_le_length (by omega), drop_append_of_le_length (by omega)]
  simp only [append_assoc, nil_append]

theorem insertIntoLeaf {leaf : LeafNode} (hexact : leaf.utf16 = analyzeUtf16 leaf.text)
    (htext : text ≠ []) : SameHeight 0 (insertIntoNode index text (.leaf leaf)) ∧
      childrenText (insertIntoNode index text (.leaf leaf)) = Text.splice leaf.text index text := by
  rw [insertIntoNode]
  have hspec := @chunkText_spec (leaf.text.take index ++ text ++ leaf.text.drop index)
    (!leaf.utf16.hasSurrogateCodeUnits && !containsUtf16SurrogateCodeUnit text) (by
      intro hknown
      rw [hexact, Bool.and_eq_true, Bool.not_eq_true', Bool.not_eq_true'] at hknown
      have hleaf : containsUtf16SurrogateCodeUnit leaf.text = false := hknown.1
      rw [containsUtf16SurrogateCodeUnit, any_append, any_append]
      have htake := containsUtf16SurrogateCodeUnit_sub
        (fun unit hunit => mem_of_mem_take (i := index) hunit) hleaf
      have hdrop := containsUtf16SurrogateCodeUnit_sub
        (fun unit hunit => mem_of_mem_drop (i := index) hunit) hleaf
      rw [containsUtf16SurrogateCodeUnit] at htake hdrop
      have hown := hknown.2
      rw [containsUtf16SurrogateCodeUnit] at hown
      rw [htake, hdrop, hown]
      rfl)
  obtain ⟨hgood, hflat, hsome⟩ := hspec
  refine ⟨⟨?_, ?_⟩, ?_⟩
  · rw [ne_eq, map_eq_nil_iff]
    apply hsome
    simp [htext]
  · intro node hnode
    obtain ⟨leaf, hleaf, rfl⟩ := mem_map.mp hnode
    exact hgood leaf hleaf
  · rw [childrenText_leaves, hflat, Text.splice]

theorem insertion_child {children : List RopeNode} (hsome : children ≠ [])
    (hindex : index ≤ (childrenText children).length) :
    ∃ pre child post, children = pre ++ child :: post ∧
      (if index = (childrenText children).length then children.length - 1
        else lowerBound (endsFrom 0 children) (index + 1)) = pre.length ∧
      (childrenText pre).length ≤ index ∧
      index ≤ (childrenText pre).length + child.toText.length := by
  by_cases hend : index = (childrenText children).length
  · obtain ⟨pre, last, rfl⟩ := (eq_nil_or_concat children).resolve_left hsome
    rw [concat_eq_append] at hend ⊢
    rw [childrenText_append, childrenText_cons, childrenText_nil, append_nil,
      length_append] at hend
    refine ⟨pre, last, [], rfl, ?_, by omega, by omega⟩
    rw [if_pos (by
      rw [childrenText_append, childrenText_cons, childrenText_nil, append_nil,
        length_append]
      exact hend), length_append]
    rfl
  · obtain ⟨pre, child, post, rfl, hlow, hhigh⟩ := @exists_child children index (by omega)
    refine ⟨pre, child, post, rfl, ?_, hlow, by omega⟩
    rw [if_neg hend]
    exact lowerBound_ends (by omega) (by omega)

theorem WellFormed.insert (h : WellFormed height node) (hindex : index ≤ node.toText.length)
    (htext : text ≠ []) : SameHeight height (insertIntoNode index text node) ∧
      childrenText (insertIntoNode index text node) = Text.splice node.toText index text := by
  induction h generalizing index with
  | leaf some short exact =>
    rw [toText_leaf]
    exact insertIntoLeaf exact htext
  | @branch children height some narrow each ih =>
    rw [toText_branch] at hindex ⊢
    obtain ⟨pre, child, post, hsplit, hplace, hlow, hhigh⟩ := insertion_child some hindex
    rw [insertIntoNode, hplace]
    subst hsplit
    have hstart := @childStartAt_eq pre post child
    have hget := @getElem?_child pre post child
    split
    · next hnone =>
        rw [hget] at hnone
        cases hnone
    · next found hfound =>
        rw [hget] at hfound
        obtain rfl := Option.some.inj hfound
        obtain ⟨hsame, hinserted⟩ := @ih child (by simp) (index - (childrenText pre).length)
          (by omega)
        simp only [hstart, spliceChildren_eq]
        have hspliced : SameHeight height
            (pre ++ insertIntoNode (index - (childrenText pre).length) text child ++ post) := by
          refine ⟨?_, ?_⟩
          · simp [hsame.some]
          · intro node hnode
            rw [mem_append, mem_append] at hnode
            rcases hnode with (hpre | hnew) | hpost
            · exact each node (mem_append_left _ hpre)
            · exact hsame.each node hnew
            · exact each node (mem_append_right _ (mem_cons_of_mem _ hpost))
        have hwhole : childrenText
            (pre ++ insertIntoNode (index - (childrenText pre).length) text child ++ post) =
            Text.splice (childrenText (pre ++ child :: post)) index text := by
          rw [childrenText_append, childrenText_append, hinserted, childrenText_append,
            childrenText_cons, splice_within _ _ _ hlow hhigh, append_assoc]
        split
        · next hwidth =>
            refine ⟨⟨cons_ne_nil _ _, ?_⟩, ?_⟩
            · intro node hnode
              rw [mem_singleton.mp hnode]
              exact wellFormed_branch hspliced.some hwidth hspliced.each
            · rw [childrenText_cons, childrenText_nil, append_nil,
                toText_branch_of hspliced.some hspliced.each, hwhole]
        · obtain ⟨hnext, hnextText⟩ := hspliced.nextLevel
          exact ⟨hnext, hnextText.trans hwhole⟩

theorem IsRoot.insert (h : IsRoot node) (hindex : index ≤ node.toText.length) (htext : text ≠ []) :
    ∃ height, SameHeight height (insertIntoNode index text node) ∧
      childrenText (insertIntoNode index text node) = Text.splice node.toText index text := by
  cases h with
  | inl heq =>
    rw [heq, EMPTY_LEAF, toText_leaf]
    exact ⟨0, insertIntoLeaf rfl htext⟩
  | inr hformed =>
    obtain ⟨height, hformed⟩ := hformed
    exact ⟨height, hformed.insert hindex htext⟩

end Insertion

end Softmaple.Rope

namespace Softmaple.Rope

open List

structure Remains (height : Nat) (text : Text) (start stop : Nat) (result : DeleteResult) : Prop where
  text : (result.node.map RopeNode.toText).getD [] = text.take start ++ text.drop stop
  formed : ∀ node, result.node = some node → WellFormed height node

section Ranges

variable {start stop : Nat}

theorem remains_whole {height : Nat} {text : Text} (hstart : start = 0) (hstop : text.length ≤ stop) :
    Remains height text start stop DELETED_WHOLE where
  text := by
    rw [hstart, take_zero, drop_eq_nil_of_le hstop]
    rfl
  formed _ hnode := nomatch hnode

theorem deletion_within (pre own post : Text) (hlow : pre.length ≤ start) (hle : start ≤ stop)
    (hhigh : stop ≤ pre.length + own.length) :
    (pre ++ (own ++ post)).take start ++ (pre ++ (own ++ post)).drop stop =
      pre ++ (own.take (start - pre.length) ++ own.drop (stop - pre.length) ++ post) := by
  rw [take_append, take_of_length_le hlow, drop_append,
    drop_eq_nil_of_le (by omega), take_append_of_le_length (by omega),
    drop_append_of_le_length (by omega)]
  simp only [append_assoc, nil_append]

theorem deletion_across (pre head mid tail post : Text) (hlow : pre.length ≤ start)
    (hhead : start ≤ pre.length + head.length)
    (htail : pre.length + head.length + mid.length ≤ stop)
    (hhigh : stop ≤ pre.length + head.length + mid.length + tail.length) :
    (pre ++ (head ++ (mid ++ (tail ++ post)))).take start ++
        (pre ++ (head ++ (mid ++ (tail ++ post)))).drop stop =
      pre ++ (head.take (start - pre.length) ++
        (tail.drop (stop - (pre.length + head.length + mid.length)) ++ post)) := by
  have hdrop : (pre ++ (head ++ (mid ++ (tail ++ post)))).drop stop =
      tail.drop (stop - (pre.length + head.length + mid.length)) ++ post := by
    have hassoc : pre ++ (head ++ (mid ++ (tail ++ post))) = (pre ++ head ++ mid) ++ (tail ++ post) := by
      simp only [append_assoc]
    have hlength : (pre ++ head ++ mid).length = pre.length + head.length + mid.length := by
      simp only [length_append]
    rw [hassoc, drop_append, drop_eq_nil_of_le (by omega), nil_append, hlength,
      drop_append_of_le_length (by omega)]
  rw [hdrop, take_append, take_of_length_le hlow, take_append_of_le_length (by omega)]
  simp only [append_assoc]

theorem deletion_children {children : List RopeNode} (hlt : start < stop)
    (hstop : stop ≤ (childrenText children).length) :
    (∃ pre child post, children = pre ++ child :: post ∧ (childrenText pre).length ≤ start ∧
      stop ≤ (childrenText pre).length + child.toText.length) ∨
    ∃ pre head mid tail post, children = pre ++ head :: (mid ++ tail :: post) ∧
      (childrenText pre).length ≤ start ∧ start < (childrenText pre).length + head.toText.length ∧
      (childrenText (pre ++ head :: mid)).length < stop ∧
      stop ≤ (childrenText (pre ++ head :: mid)).length + tail.toText.length := by
  obtain ⟨pre, head, post, hfirst, hlow, hhigh⟩ := @exists_child children start (by omega)
  obtain ⟨front, tail, rest, hlast, hbelow, habove⟩ := @exists_child children (stop - 1) (by omega)
  rw [hfirst] at hlast
  cases append_eq_append_iff.mp hlast with
  | inl hafter =>
    obtain ⟨between, hfront, hrest⟩ := hafter
    cases between with
    | nil =>
      rw [append_nil] at hfront
      rw [nil_append] at hrest
      obtain ⟨hsame, -⟩ := cons_eq_cons.mp hrest
      rw [hfront, ← hsame] at habove
      exact Or.inl ⟨pre, head, post, hfirst, hlow, by omega⟩
    | cons first mid =>
      obtain ⟨rfl, hpost⟩ := cons_eq_cons.mp hrest
      rw [hfront] at hbelow habove
      exact Or.inr ⟨pre, head, mid, tail, rest, hfirst.trans (by rw [hpost]; rfl), hlow, hhigh, by omega,
        by omega⟩
  | inr hbefore =>
    obtain ⟨between, hpre, hrest⟩ := hbefore
    cases between with
    | nil =>
      rw [append_nil] at hpre
      rw [nil_append] at hrest
      obtain ⟨hsame, -⟩ := cons_eq_cons.mp hrest
      rw [← hpre, hsame] at habove
      exact Or.inl ⟨pre, head, post, hfirst, hlow, by omega⟩
    | cons first mid =>
      -- The range would end before it starts.
      obtain ⟨rfl, -⟩ := cons_eq_cons.mp hrest
      rw [hpre, childrenText_append, childrenText_cons, length_append,
        length_append] at hlow
      omega

end Ranges

section Nodes

variable {start stop height : Nat} {node : RopeNode}

theorem remains_leaf {leaf : LeafNode} (hexact : leaf.utf16 = analyzeUtf16 leaf.text)
    (hshort : leaf.text.length ≤ UTF16_ROPE_MAX_LEAF) (hlt : start < stop)
    (hstop : stop ≤ leaf.text.length) :
    Remains 0 leaf.text start stop (leafWithout leaf start stop) := by
  rw [leafWithout]
  split
  · next hempty => exact ⟨hempty.symm, nofun⟩
  · next hsome =>
      refine ⟨toText_leaf _, ?_⟩
      intro node hnode
      rw [← Option.some.inj hnode]
      refine .leaf hsome ?_ ?_
      · rw [length_append, length_take, length_drop]
        omega
      · split
        · rfl
        · next hplain =>
            apply bmpUtf16Metadata_eq
            rw [hexact] at hplain
            have hleaf : containsUtf16SurrogateCodeUnit leaf.text = false :=
              Bool.eq_false_iff.mpr hplain
            apply containsUtf16SurrogateCodeUnit_sub _ hleaf
            intro unit hunit
            cases mem_append.mp hunit with
            | inl htake => exact mem_of_mem_take htake
            | inr hdrop => exact mem_of_mem_drop hdrop

theorem childrenText_kept {head tail : DeleteResult} : childrenText (keptChildren head tail) =
    (head.node.map RopeNode.toText).getD [] ++ (tail.node.map RopeNode.toText).getD [] := by
  rw [keptChildren, childrenText_append]
  cases head.node with
  | none => cases tail.node with
    | none => simp
    | some tail => simp
  | some head => cases tail.node with
    | none => simp
    | some tail => simp

theorem deleteFromChild_remains {pre post : List RopeNode} {child : RopeNode}
    (hchild : WellFormed height child)
    (ih : ∀ {start stop}, start < stop → stop ≤ child.toText.length →
      Remains height child.toText start stop (deleteFromNode child start stop))
    (hlow : start < (childrenText pre).length + child.toText.length)
    (hhigh : (childrenText pre).length < stop) (hlt : start < stop) :
    Remains height child.toText (start - (childrenText pre).length)
      (min child.toText.length (stop - (childrenText pre).length))
      (deleteFromChild (pre ++ child :: post) (endsFrom 0 (pre ++ child :: post)) pre.length start
        stop) := by
  have hget := @getElem?_child pre post child
  rw [deleteFromChild]
  split
  · next hnone =>
      rw [hget] at hnone
      cases hnone
  · next found hfound =>
      rw [hget] at hfound
      obtain rfl := Option.some.inj hfound
      simp only [childStartAt_eq, hchild.length_eq]
      split
      · exact remains_whole (by omega) (by omega)
      · exact ih (by omega) (by omega)

theorem remains_branch {children pre gone post kept : List RopeNode} {underfilled : Bool}
    (hsplit : children = pre ++ gone ++ post) (hnarrow : children.length ≤ UTF16_ROPE_BRANCH_FACTOR)
    (heach : ∀ child ∈ children, WellFormed height child)
    (hfewer : kept.length ≤ gone.length) (hkept : ∀ child ∈ kept, WellFormed height child)
    (htext : childrenText (pre ++ kept ++ post) =
      (childrenText children).take start ++ (childrenText children).drop stop) :
    Remains (height + 1) (childrenText children) start stop
      ⟨if spliceChildren children pre.length (pre.length + gone.length) kept = [] then none
        else some (branch (spliceChildren children pre.length (pre.length + gone.length) kept)),
        underfilled⟩ := by
  have hspliced : spliceChildren children pre.length (pre.length + gone.length) kept =
      pre ++ kept ++ post := by
    have htake : children.take pre.length = pre := by
      rw [hsplit, append_assoc, take_left]
    have hdrop : children.drop (pre.length + gone.length) = post := by
      rw [hsplit, ← length_append, drop_left]
    rw [spliceChildren, htake, hdrop]
  have hformed : ∀ child ∈ pre ++ kept ++ post, WellFormed height child := by
    intro child hchild
    rw [mem_append, mem_append] at hchild
    rw [hsplit] at heach
    rcases hchild with (hpre | hmem) | hpost
    · exact heach child (by simp [hpre])
    · exact hkept child hmem
    · exact heach child (by simp [hpost])
  rw [hspliced]
  by_cases hempty : pre ++ kept ++ post = []
  · rw [if_pos hempty]
    rw [hempty, childrenText_nil] at htext
    exact ⟨htext, (by rintro _ ⟨⟩)⟩
  · rw [if_neg hempty]
    refine ⟨(toText_branch_of hempty hformed).trans htext, ?_⟩
    intro node hnode
    rw [← Option.some.inj hnode]
    refine wellFormed_branch hempty (Nat.le_trans ?_ hnarrow) hformed
    rw [hsplit]
    simp only [length_append]
    omega

theorem mem_kept {head tail : DeleteResult} {text other : Text} {from₁ to₁ from₂ to₂ : Nat}
    (hhead : Remains height text from₁ to₁ head) (htail : Remains height other from₂ to₂ tail) :
    ∀ child ∈ keptChildren head tail, WellFormed height child := by
  intro child hchild
  cases mem_append.mp hchild with
  | inl hleft => exact hhead.formed child (Option.mem_toList.mp hleft)
  | inr hright => exact htail.formed child (Option.mem_toList.mp hright)

theorem length_kept (head tail : DeleteResult) : (keptChildren head tail).length ≤ 2 := by
  rw [keptChildren, length_append]
  have hhead : head.node.toList.length ≤ 1 := by cases head.node <;> simp
  have htail : tail.node.toList.length ≤ 1 := by cases tail.node <;> simp
  omega

theorem WellFormed.delete (h : WellFormed height node) (hlt : start < stop)
    (hstop : stop ≤ node.toText.length) :
    Remains height node.toText start stop (deleteFromNode node start stop) := by
  induction h generalizing start stop with
  | @leaf leaf some short exact =>
    rw [toText_leaf] at hstop ⊢
    rw [deleteFromNode]
    split
    · next hwhole => exact remains_whole hwhole.1 hwhole.2
    · exact remains_leaf exact short hlt hstop
  | @branch children height some narrow each ih =>
    rw [toText_branch] at hstop ⊢
    rw [deleteFromNode]
    split
    · next hwhole => exact remains_whole hwhole.1 hwhole.2
    · cases deletion_children hlt hstop with
      | inl hone =>
        obtain ⟨pre, child, post, hsplit, hlow, hhigh⟩ := hone
        have hmem : child ∈ children := by simp [hsplit]
        have hfirst := @lowerBound_ends pre post child (start + 1) (by omega) (by omega)
        have hlast := @lowerBound_ends pre post child stop (by omega) (by omega)
        have hchild := @deleteFromChild_remains start stop height pre post child
          (each child hmem) (ih child hmem) (by omega) (by omega) hlt
        have hnothing := @remains_whole 0 0 height [] rfl (Nat.le_refl _)
        rw [← hsplit] at hfirst hlast hchild
        simp only [hfirst, hlast, if_true]
        refine @remains_branch start stop height children pre [child] post _ _ (by simp [hsplit])
          narrow each ?_ (mem_kept hchild hnothing) ?_
        · rw [keptChildren, length_append]
          exact Option.length_toList_le
        · have hwhole : childrenText children =
              childrenText pre ++ (child.toText ++ childrenText post) := by
            rw [hsplit, childrenText_append, childrenText_cons]
          rw [childrenText_append, childrenText_append, childrenText_kept, hchild.text, hwhole,
            deletion_within _ _ _ hlow (by omega) hhigh, Nat.min_eq_right (by omega)]
          simp only [DELETED_WHOLE, Option.map_none, Option.getD_none, append_nil,
            append_assoc]
      | inr hmany =>
        obtain ⟨pre, head, mid, tail, post, hsplit, hlow, hhead, htail, hhigh⟩ := hmany
        have hagain : children = (pre ++ head :: mid) ++ tail :: post := by simp [hsplit]
        have hfirst := @lowerBound_ends pre (mid ++ tail :: post) head (start + 1) (by omega)
          (by omega)
        have hlast := @lowerBound_ends (pre ++ head :: mid) post tail stop htail hhigh
        have hlater : (pre ++ head :: mid).length ≠ pre.length := by simp
        have hheadMem : head ∈ children := by simp [hsplit]
        have htailMem : tail ∈ children := by simp [hsplit]
        have hlength : (childrenText (pre ++ head :: mid)).length = (childrenText pre).length +
            head.toText.length + (childrenText mid).length := by
          rw [childrenText_append, childrenText_cons, length_append, length_append]
          omega
        have hkeptHead := @deleteFromChild_remains start stop height pre (mid ++ tail :: post)
          head (each head hheadMem) (ih head hheadMem) hhead (by omega) hlt
        have hkeptTail := @deleteFromChild_remains start stop height (pre ++ head :: mid) post
          tail (each tail htailMem) (ih tail htailMem) (by omega) htail hlt
        have hcount : (pre ++ head :: mid).length + 1 =
            pre.length + (head :: (mid ++ [tail])).length := by
          simp only [length_append, length_cons, length_nil]
          omega
        rw [← hsplit] at hfirst hkeptHead
        rw [← hagain] at hlast hkeptTail
        simp only [hfirst, hlast, if_neg hlater, hcount]
        refine @remains_branch start stop height children pre (head :: (mid ++ [tail])) post _ _
          (by simp [hsplit]) narrow each ?_ (mem_kept hkeptHead hkeptTail) ?_
        · refine Nat.le_trans (length_kept _ _) ?_
          simp only [length_append, length_cons, length_nil]
          omega
        · have hwhole : childrenText children = childrenText pre ++ (head.toText ++
              (childrenText mid ++ (tail.toText ++ childrenText post))) := by
            rw [hsplit, childrenText_append, childrenText_cons, childrenText_append,
              childrenText_cons]
          -- Of the head nothing stands behind the range, of the tail nothing before it.
          have hnone : head.toText.drop (min head.toText.length
              (stop - (childrenText pre).length)) = [] := drop_eq_nil_of_le (by omega)
          have hzero : start - (childrenText (pre ++ head :: mid)).length = 0 := by omega
          rw [childrenText_append, childrenText_append, childrenText_kept, hkeptHead.text,
            hkeptTail.text, hnone, hzero, hlength, hwhole,
            deletion_across _ _ _ _ _ hlow (by omega) (by omega) (by omega),
            Nat.min_eq_right (by omega)]
          simp only [take_zero, append_nil, nil_append, append_assoc]

end Nodes

end Softmaple.Rope
