import Mathlib.Data.List.GetD
import Softmaple.Rope.PersistentRope

/-!
Well-formed rope nodes: every branch has up to 32 children of one height and knows exactly where
they end, no leaf is empty or too long, and every node knows what its text is made of.
-/
namespace Softmaple.Rope

open EvenParts PartitionPoint List

mutual

def RopeNode.toText : RopeNode → Text
  | .leaf node => node.text
  | .branch children _ _ _ _ => childrenText children

def childrenText : List RopeNode → Text
  | [] => []
  | child :: rest => child.toText ++ childrenText rest

end

/-- Where the children end, from `start` on. -/
def endsFrom (start : Nat) : List RopeNode → List Nat
  | [] => []
  | child :: rest => (start + child.toText.length) :: endsFrom (start + child.toText.length) rest

inductive WellFormed : Nat → RopeNode → Prop where
  | leaf {node : LeafNode} (some : node.text ≠ [])
      (short : node.text.length ≤ UTF16_ROPE_MAX_LEAF) (exact : node.utf16 = analyzeUtf16 node.text) :
      WellFormed 0 (.leaf node)
  | branch {children : List RopeNode} {height : Nat} (some : children ≠ [])
      (narrow : children.length ≤ UTF16_ROPE_BRANCH_FACTOR)
      (each : ∀ child ∈ children, WellFormed height child) :
      WellFormed (height + 1) (.branch children (endsFrom 0 children) (childrenText children).length
        (height + 1) (analyzeUtf16 (childrenText children)))

section Children

variable {children more : List RopeNode}

@[simp] theorem childrenText_nil : childrenText [] = [] := by rw [childrenText]

@[simp] theorem childrenText_cons (child : RopeNode) :
    childrenText (child :: children) = child.toText ++ childrenText children := by rw [childrenText]

@[simp] theorem toText_leaf (node : LeafNode) : (RopeNode.leaf node).toText = node.text := by
  rw [RopeNode.toText]

@[simp] theorem toText_branch (ends : List Nat) (length height : Nat) (utf16 : Utf16NodeMetadata) :
    (RopeNode.branch children ends length height utf16).toText = childrenText children := by
  rw [RopeNode.toText]

@[simp] theorem childrenText_append :
    childrenText (children ++ more) = childrenText children ++ childrenText more := by
  induction children with
  | nil => rw [childrenText_nil, nil_append, nil_append]
  | cons child children ih =>
    rw [cons_append, childrenText_cons, childrenText_cons, ih, append_assoc]

theorem childrenText_leaves (leaves : List LeafNode) :
    childrenText (leaves.map .leaf) = leaves.flatMap (·.text) := by
  induction leaves with
  | nil => exact childrenText_nil
  | cons leaf leaves ih =>
    rw [map_cons, childrenText_cons, ih, toText_leaf, flatMap_cons]

theorem endsFrom_append (start : Nat) : endsFrom start (children ++ more) =
    endsFrom start children ++ endsFrom (start + (childrenText children).length) more := by
  induction children generalizing start with
  | nil => simp [endsFrom]
  | cons child children ih =>
    rw [cons_append, endsFrom, ih, endsFrom, childrenText_cons, length_append,
      Nat.add_assoc, cons_append]

theorem length_endsFrom (start : Nat) : (endsFrom start children).length = children.length := by
  induction children generalizing start with
  | nil => rfl
  | cons child children ih => rw [endsFrom, length_cons, length_cons, ih]

theorem mem_endsFrom_le {start stop : Nat} (h : stop ∈ endsFrom start children) :
    start ≤ stop ∧ stop ≤ start + (childrenText children).length := by
  induction children generalizing start with
  | nil => cases h
  | cons child children ih =>
    rw [childrenText_cons, length_append]
    rw [endsFrom] at h
    cases mem_cons.mp h with
    | inl heq => omega
    | inr hrest =>
      have hlater := ih hrest
      omega

theorem exists_child {place : Nat} (h : place < (childrenText children).length) :
    ∃ pre child post, children = pre ++ child :: post ∧ (childrenText pre).length ≤ place ∧
      place < (childrenText pre).length + child.toText.length := by
  induction children generalizing place with
  | nil =>
    rw [childrenText_nil] at h
    exact absurd h (Nat.not_lt_zero _)
  | cons child children ih =>
    rw [childrenText_cons, length_append] at h
    by_cases hhere : place < child.toText.length
    · refine ⟨[], child, children, rfl, ?_, ?_⟩
      · rw [childrenText_nil]
        exact Nat.zero_le _
      · rw [childrenText_nil, length_nil, Nat.zero_add]
        exact hhere
    · obtain ⟨pre, found, post, rfl, hlow, hhigh⟩ := @ih (place - child.toText.length) (by omega)
      refine ⟨child :: pre, found, post, rfl, ?_, ?_⟩
      · rw [childrenText_cons, length_append]
        omega
      · rw [childrenText_cons, length_append]
        omega

variable {pre post : List RopeNode} {child : RopeNode}

theorem childStartAt_eq : childStartAt (endsFrom 0 (pre ++ child :: post)) pre.length =
    (childrenText pre).length := by
  rw [childStartAt]
  by_cases hempty : pre = []
  · rw [hempty, if_pos length_nil, childrenText_nil, length_nil]
  · obtain ⟨front, last, rfl⟩ := (eq_nil_or_concat pre).resolve_left hempty
    have hpositive : (front ++ [last]).length ≠ 0 := by simp
    rw [concat_eq_append, if_neg hpositive, endsFrom_append, endsFrom_append, append_assoc]
    have hplace : (front ++ [last]).length - 1 = (endsFrom 0 front).length := by
      rw [length_endsFrom, length_append]
      rfl
    rw [hplace, getD_append_right _ _ _ _ (Nat.le_refl _), Nat.sub_self]
    simp [endsFrom]

theorem lowerBound_ends {target : Nat} (hlow : (childrenText pre).length < target)
    (hhigh : target ≤ (childrenText pre).length + child.toText.length) :
    lowerBound (endsFrom 0 (pre ++ child :: post)) target = pre.length := by
  have hlength := @length_endsFrom pre 0
  rw [lowerBound, endsFrom_append, ← hlength]
  apply partitionPoint_append
  · intro stop hstop
    have hle := (mem_endsFrom_le hstop).2
    exact decide_eq_true (by omega)
  · intro stop hstop
    apply decide_eq_false
    rw [endsFrom] at hstop
    cases mem_cons.mp hstop with
    | inl heq => omega
    | inr hrest =>
      have hle := (mem_endsFrom_le hrest).1
      omega

theorem getElem?_child : (pre ++ child :: post)[pre.length]? = some child := by
  rw [getElem?_append_right (Nat.le_refl _), Nat.sub_self, getElem?_cons_zero]

theorem spliceChildren_eq (replacements : List RopeNode) :
    spliceChildren (pre ++ child :: post) pre.length (pre.length + 1) replacements =
      pre ++ replacements ++ post := by
  have hdrop : (pre ++ child :: post).drop (pre.length + 1) = post := by
    rw [drop_append, drop_eq_nil_of_le (by omega), nil_append,
      show pre.length + 1 - pre.length = 1 by omega]
    rfl
  rw [spliceChildren, take_left, hdrop]

end Children

section Metadata

variable {first second : Text}

theorem pairsAfter_eq {previous : Option CodeUnit} : pairsAfter previous second =
    ((previous.any isHighSurrogate && second.head?.any isLowSurrogate) ||
      pairsAfter none second) := by
  cases second with
  | nil => simp [pairsAfter]
  | cons current rest => simp [pairsAfter]

theorem pairsAfter_append (previous : Option CodeUnit) : pairsAfter previous (first ++ second) =
    (pairsAfter previous first || pairsAfter (first.getLast?.or previous) second) := by
  induction first generalizing previous with
  | nil => simp [pairsAfter]
  | cons current rest ih =>
    rw [cons_append, pairsAfter, pairsAfter, ih, Bool.or_assoc, getLast?_cons]
    cases hlast : rest.getLast? with
    | none => simp
    | some last => simp

/-- The summary of children that hold `text` so far. -/
def summaryOf (ends : List Nat) (text : Text) : BranchSummary where
  cumulativeEnds := ends
  length := text.length
  firstCodeUnit := text.head?
  previousLastCodeUnit := text.getLast?
  hasSurrogateCodeUnits := containsUtf16SurrogateCodeUnit text
  hasSurrogatePairs := pairsAfter none text

theorem summaryOf_add {ends : List Nat} {child : RopeNode}
    (hlength : child.length = child.toText.length)
    (hexact : child.utf16 = analyzeUtf16 child.toText) :
    (summaryOf ends first).add child =
      summaryOf (ends ++ [first.length + child.toText.length]) (first ++ child.toText) := by
  rw [BranchSummary.add, hlength, hexact]
  have hpairs : pairsAfter none (first ++ child.toText) = (pairsAfter none first ||
      (pairsAfter none child.toText ||
        (first.getLast?.any isHighSurrogate && child.toText.head?.any isLowSurrogate))) := by
    rw [pairsAfter_append, Option.or_none, @pairsAfter_eq child.toText first.getLast?,
      Bool.or_comm (_ && _)]
  simp only [summaryOf, analyzeUtf16, hpairs, containsUtf16SurrogateCodeUnit, any_append,
    length_append, head?_append, getLast?_append]

theorem foldl_summary {children : List RopeNode} {ends : List Nat}
    (h : ∀ child ∈ children, child.length = child.toText.length ∧
      child.utf16 = analyzeUtf16 child.toText) :
    children.foldl BranchSummary.add (summaryOf ends first) =
      summaryOf (ends ++ endsFrom first.length children) (first ++ childrenText children) := by
  induction children generalizing ends first with
  | nil => rw [foldl_nil, endsFrom, childrenText_nil, append_nil, append_nil]
  | cons child children ih =>
    rw [forall_mem_cons] at h
    rw [foldl_cons, summaryOf_add h.1.1 h.1.2, ih h.2, endsFrom, childrenText_cons,
      length_append, append_assoc, append_assoc]
    rfl

end Metadata

namespace WellFormed

variable {height : Nat} {node : RopeNode}

section

variable (h : WellFormed height node)
include h

theorem length_eq : node.length = node.toText.length := by
  cases h with
  | leaf some short exact => rw [toText_leaf]; rfl
  | branch some narrow each => rw [toText_branch]; rfl

theorem utf16_eq : node.utf16 = analyzeUtf16 node.toText := by
  cases h with
  | leaf some short exact => rw [toText_leaf]; exact exact
  | branch some narrow each => rw [toText_branch]; rfl

theorem height_eq : node.height = height := by
  cases h with
  | leaf some short exact => rfl
  | branch some narrow each => rfl

theorem toText_ne_nil : node.toText ≠ [] := by
  induction h with
  | leaf some short exact => rwa [toText_leaf]
  | @branch children height some narrow each ih =>
    obtain ⟨child, hchild⟩ := exists_mem_of_ne_nil _ some
    obtain ⟨pre, post, rfl⟩ := append_of_mem hchild
    rw [toText_branch, childrenText_append, childrenText_cons]
    have hne := ih child hchild
    simp [hne]

end

end WellFormed

section Branches

variable {height : Nat} {children : List RopeNode}

theorem branch_eq (hsome : children ≠ []) (h : ∀ child ∈ children, WellFormed height child) :
    branch children = .branch children (endsFrom 0 children) (childrenText children).length
      (height + 1) (analyzeUtf16 (childrenText children)) := by
  have hsummary := @foldl_summary [] children [] fun child hchild =>
    ⟨(h child hchild).length_eq, (h child hchild).utf16_eq⟩
  have hstart : summaryOf [] [] = ⟨[], 0, none, none, false, false⟩ := rfl
  have hheight : (children.head?.map (·.height)).getD 0 = height := by
    cases children with
    | nil => exact absurd rfl hsome
    | cons child rest => exact (h child mem_cons_self).height_eq
  rw [branch, ← hstart, hsummary, hheight]
  rfl

theorem wellFormed_branch (hsome : children ≠ [])
    (hnarrow : children.length ≤ UTF16_ROPE_BRANCH_FACTOR)
    (h : ∀ child ∈ children, WellFormed height child) : WellFormed (height + 1) (branch children) := by
  rw [branch_eq hsome h]
  exact .branch hsome hnarrow h

theorem toText_branch_of (hsome : children ≠ []) (h : ∀ child ∈ children, WellFormed height child) :
    (branch children).toText = childrenText children := by
  rw [branch_eq hsome h, toText_branch]

end Branches

end Softmaple.Rope
