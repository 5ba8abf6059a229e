import Softmaple.Codec.BranchOrder

/-!
The encoding order does not depend on the order events were added in: branches
are compared by measures and IDs, which insertion ranks do not enter.
-/
namespace Softmaple.Codec

open ReadyTraversal List

namespace EventIdView

variable {ids : EventIdView}

/-- The ID at an offset, in the shape event IDs are compared in. -/
def eventId (ids : EventIdView) (lv : Nat) : EventId :=
  match ids.agentAt lv with
  | some agent => .canonical agent (ids.sequenceAt lv)
  | none => .custom (ids.idAt lv)

theorem compare_eq {left right : Nat} (hne : ids.eventId left ≠ ids.eventId right) :
    ids.compare left right = compareEventIds (ids.eventId left) (ids.eventId right) := by
  have hoffsets : left ≠ right := fun heq => hne (congrArg ids.eventId heq)
  rw [compare, if_neg hoffsets, compareEventIds.eq_def, if_neg hne]
  rw [eventId, eventId] at hne ⊢
  cases hleft : ids.agentAt left with
  | some leftAgent =>
    cases hright : ids.agentAt right with
    | some rightAgent =>
      simp only
      by_cases hagent : leftAgent = rightAgent
      · by_cases hsequence : ids.sequenceAt left = ids.sequenceAt right
        · simp [hagent, hsequence]
        · simp [hagent, hsequence]
      · simp [hagent]
    | none => rfl
  | none =>
    cases hright : ids.agentAt right with
    | some rightAgent => rfl
    | none =>
      rw [hleft, hright] at hne
      have hid : ids.idAt left ≠ ids.idAt right := fun heq => hne (congrArg EventId.custom heq)
      simp only [if_neg hid]

theorem compare_le_iff {left right : Nat}
    (hdistinct : ids.eventId left = ids.eventId right → left = right) :
    ids.compare left right ≤ 0 ↔ ids.eventId left ≤ ids.eventId right := by
  by_cases hsame : ids.eventId left = ids.eventId right
  · rw [hdistinct hsame, compare, if_pos rfl]
    simp
  · rw [compare_eq hsame, compareEventIds_le_iff]

end EventIdView

section Branches

def branchKey (ids : EventIdView) (measure : Nat → Nat) (lv : Nat) : Nat ×ₗ EventId :=
  toLex (measure lv, ids.eventId lv)

variable {ids : EventIdView} {measures : Nat → BranchMeasure}

theorem compareBranches_le_iff {measure : Nat → Nat} {left right : Nat}
    (hdistinct : ids.eventId left = ids.eventId right → left = right) :
    compareBranches ids id measure left right ≤ 0 ↔
      branchKey ids measure left ≤ branchKey ids measure right := by
  rw [branchKey, branchKey, Prod.Lex.toLex_le_toLex, compareBranches]
  simp only [id]
  by_cases hsame : measure left = measure right
  · rw [hsame, Int.sub_self, if_pos rfl, EventIdView.compare_le_iff hdistinct]
    simp
  · rw [if_neg (by omega)]
    simp only [hsame, false_and, or_false]
    omega

theorem find?_congr {values : List Nat} {keep other : Nat → Bool}
    (h : ∀ value ∈ values, keep value = other value) : values.find? keep = values.find? other := by
  induction values with
  | nil => rfl
  | cons value rest ih =>
    obtain ⟨hvalue, hrest⟩ := forall_mem_cons.mp h
    rw [find?_cons, find?_cons, hvalue, ih hrest]

theorem eq_of_perm_of_short {values other : List Nat} (hshort : ¬ 1 < values.length)
    (hperm : other.Perm values) : other = values := by
  cases values with
  | nil => exact perm_nil.mp hperm
  | cons first rest =>
    cases rest with
    | nil => exact perm_singleton.mp hperm
    | cons second rest =>
      simp only [length_cons] at hshort
      omega

theorem mergeSort_congr {values : List Nat} {le other : Nat → Nat → Bool}
    (h : ∀ left ∈ values, ∀ right ∈ values, le left right = other left right) :
    values.mergeSort le = values.mergeSort other := by
  have hmap : (values.mergeSort le).map id = (values.map id).mergeSort other := map_mergeSort h
  rwa [map_id, map_id] at hmap

theorem sortBranchGroup_of_perm {group other : List Nat} (hperm : group.Perm other)
    (hdistinct : ∀ left ∈ group, ∀ right ∈ group,
      ids.eventId left = ids.eventId right → left = right) :
    sortBranchGroup ids id measures group = sortBranchGroup ids id measures other := by
  rw [sortBranchGroup, sortBranchGroup, hperm.any_eq]
  obtain ⟨measure, hmeasure⟩ : ∃ measure : Nat → Nat, measure = fun branch =>
      if other.any (fun branch => decide (maxExclusiveBranchSpan <
        (measures branch).exclusiveSpan)) = true then (measures branch).longestPath
      else (measures branch).exclusiveSpan := ⟨_, rfl⟩
  simp only [← hmeasure]
  have hsorted : ∀ values : List Nat, (∀ value ∈ values, value ∈ group) →
      values.mergeSort (fun left right => decide (compareBranches ids id measure left right ≤ 0)) =
        values.mergeSort fun left right =>
          decide (branchKey ids measure left ≤ branchKey ids measure right) := by
    intro values hvalues
    apply mergeSort_congr
    intro left hleft right hright
    rw [decide_eq_decide]
    exact compareBranches_le_iff (hdistinct left (hvalues left hleft) right (hvalues right hright))
  have hpairwise : ∀ values : List Nat, (values.mergeSort fun left right =>
      decide (branchKey ids measure left ≤ branchKey ids measure right)).Pairwise fun left right =>
        branchKey ids measure left ≤ branchKey ids measure right := by
    intro values
    have hsort : (values.mergeSort fun left right =>
        decide (branchKey ids measure left ≤ branchKey ids measure right)).Pairwise
          fun left right =>
            decide (branchKey ids measure left ≤ branchKey ids measure right) = true := by
      apply pairwise_mergeSort
      · simp only [decide_eq_true_eq]
        exact fun _ _ _ => le_trans
      · simp only [Bool.or_eq_true, decide_eq_true_eq]
        exact fun _ _ => le_total _ _
    simpa only [decide_eq_true_eq] using hsort
  rw [hsorted group fun _ hmem => hmem, hsorted other fun _ hmem => hperm.mem_iff.mpr hmem]
  apply List.Perm.eq_of_pairwise _ (hpairwise group) (hpairwise other)
  · exact (mergeSort_perm _ _).trans (hperm.trans (mergeSort_perm _ _).symm)
  · intro left right hleft hright hle hge
    have hkey := le_antisymm hle hge
    rw [branchKey, branchKey] at hkey
    apply hdistinct left ((mergeSort_perm _ _).mem_iff.mp hleft) right
      (hperm.mem_iff.mpr ((mergeSort_perm _ _).mem_iff.mp hright))
    exact congrArg (fun key => (ofLex key).2) hkey

end Branches

section Invariance

variable {eventCount : Nat} {parents parents' : Nat → List Nat} {ids ids' : EventIdView}
  {measures measures' : Nat → BranchMeasure} {f : Nat → Nat}

structure SameEvents (eventCount : Nat) (f : Nat → Nat) (parents parents' : Nat → List Nat)
    (ids ids' : EventIdView) : Prop where
  lt : ∀ lv < eventCount, f lv < eventCount
  injective : ∀ lv < eventCount, ∀ other < eventCount, f lv = f other → lv = other
  surjective : ∀ lv < eventCount, ∃ source < eventCount, f source = lv
  parents_eq : ∀ lv < eventCount, parents' (f lv) = (parents lv).map f
  agentAt : ∀ lv < eventCount, ids'.agentAt (f lv) = ids.agentAt lv
  sequenceAt : ∀ lv < eventCount, ids.agentAt lv ≠ none → ids'.sequenceAt (f lv) = ids.sequenceAt lv
  idAt : ∀ lv < eventCount, ids'.idAt (f lv) = ids.idAt lv
  distinct : ∀ lv < eventCount, ∀ other < eventCount,
    ids.eventId lv = ids.eventId other → lv = other

namespace SameEvents

variable (h : SameEvents eventCount f parents parents' ids ids')

include h

theorem eventId_eq {lv : Nat} (hlv : lv < eventCount) : ids'.eventId (f lv) = ids.eventId lv := by
  rw [EventIdView.eventId, EventIdView.eventId, h.agentAt lv hlv, h.idAt lv hlv]
  cases hagent : ids.agentAt lv with
  | none => rfl
  | some agent => simp only [h.sequenceAt lv hlv (by simp [hagent])]

theorem compare_eq {left right : Nat} (hleft : left < eventCount) (hright : right < eventCount) :
    ids'.compare (f left) (f right) = ids.compare left right := by
  rw [EventIdView.compare, EventIdView.compare]
  by_cases hsame : left = right
  · rw [if_pos hsame, if_pos (congrArg f hsame)]
  · rw [if_neg hsame, if_neg fun heq => hsame (h.injective left hleft right hright heq),
      h.agentAt left hleft, h.agentAt right hright, h.idAt left hleft, h.idAt right hright]
    cases hleftAgent : ids.agentAt left with
    | none =>
      cases ids.agentAt right with
      | none => rfl
      | some rightAgent => rfl
    | some leftAgent =>
      cases hrightAgent : ids.agentAt right with
      | none => rfl
      | some rightAgent =>
        rw [h.sequenceAt left hleft (by simp [hleftAgent]),
          h.sequenceAt right hright (by simp [hrightAgent])]

section Edges

variable (hearlier : EarlierParents eventCount parents)

include hearlier

theorem childrenAt_perm {lv : Nat} (hlv : lv < eventCount) :
    (childrenAt eventCount parents' (f lv)).Perm ((childrenAt eventCount parents lv).map f) := by
  apply (perm_ext_iff_of_nodup (EarlierParents.nodup_childrenAt _) _).mpr
  · intro child
    rw [EarlierParents.mem_childrenAt, mem_map]
    constructor
    · intro hboth
      obtain ⟨source, hsource, rfl⟩ := h.surjective child hboth.1
      refine ⟨source, ?_, rfl⟩
      have hparent := hboth.2
      rw [h.parents_eq source hsource, mem_map] at hparent
      obtain ⟨parent, hmem, heq⟩ := hparent
      have hparentLt := Nat.lt_trans (hearlier.lt source hsource parent hmem) hsource
      rw [EarlierParents.mem_childrenAt]
      exact ⟨hsource, h.injective parent hparentLt lv hlv heq ▸ hmem⟩
    · intro hex
      obtain ⟨source, hmem, rfl⟩ := hex
      rw [EarlierParents.mem_childrenAt] at hmem
      rw [h.parents_eq source hmem.1]
      exact ⟨h.lt source hmem.1, mem_map_of_mem hmem.2⟩
  · apply (EarlierParents.nodup_childrenAt lv).map_on
    intro child hchild other hother
    exact h.injective child (EarlierParents.mem_childrenAt.mp hchild).1 other
      (EarlierParents.mem_childrenAt.mp hother).1

theorem measures_eq (hmeasures : EventMeasures eventCount parents measures)
    (hmeasures' : EventMeasures eventCount parents' measures') {lv : Nat}
    (hlv : lv < eventCount) : measures' (f lv) = measures lv := by
  have hall : ∀ distance lv, lv < eventCount → eventCount - lv ≤ distance →
      measures' (f lv) = measures lv := by
    intro distance
    induction distance with
    | zero => omega
    | succ distance ih =>
      intro lv hlv hdistance
      have hchild : ∀ child ∈ childrenAt eventCount parents lv,
          child < eventCount ∧ measures' (f child) = measures child := by
        intro child hmem
        obtain ⟨hlt, hparent⟩ := EarlierParents.mem_childrenAt.mp hmem
        have hless := hearlier.lt child hlt lv hparent
        exact ⟨hlt, ih child hlt (by omega)⟩
      have hperm := h.childrenAt_perm hearlier hlv
      have hspans : (((childrenAt eventCount parents' (f lv)).filter fun child =>
          (parents' child).length = 1).map fun child => (measures' child).exclusiveSpan).sum =
          (((childrenAt eventCount parents lv).filter fun child =>
            (parents child).length = 1).map fun child => (measures child).exclusiveSpan).sum := by
        rw [((hperm.filter _).map _).sum_nat, filter_map, map_map]
        congr 1
        have hfilter : ((childrenAt eventCount parents lv).filter
            ((fun child => decide ((parents' child).length = 1)) ∘ f)) =
            (childrenAt eventCount parents lv).filter fun child =>
              decide ((parents child).length = 1) := by
          apply filter_congr
          intro child hmem
          rw [Function.comp_apply, h.parents_eq child (hchild child hmem).1, length_map]
        rw [hfilter]
        apply map_congr_left
        intro child hmem
        rw [Function.comp_apply, (hchild child (mem_filter.mp hmem).1).2]
      have hpaths : ((childrenAt eventCount parents' (f lv)).map fun child =>
          (measures' child).longestPath).foldl max 0 =
          ((childrenAt eventCount parents lv).map fun child =>
            (measures child).longestPath).foldl max 0 := by
        rw [(hperm.map fun child => (measures' child).longestPath).foldl_eq, map_map]
        congr 1
        apply map_congr_left
        intro child hmem
        rw [Function.comp_apply, (hchild child hmem).2]
      have hspan' := hmeasures'.exclusiveSpan (f lv) (h.lt lv hlv)
      have hpath' := hmeasures'.longestPath (f lv) (h.lt lv hlv)
      rw [hspans, ← hmeasures.exclusiveSpan lv hlv] at hspan'
      rw [hpaths, ← hmeasures.longestPath lv hlv] at hpath'
      cases hown : measures lv with
      | mk span path =>
        cases hother : measures' (f lv) with
        | mk span' path' =>
          rw [hown, hother] at hspan' hpath'
          simp only at hspan' hpath'
          rw [hspan', hpath']
  exact hall _ lv hlv (Nat.le_refl _)

end Edges

theorem sortBranchGroup_eq
    (hmeasure : ∀ lv < eventCount, measures' (f lv) = measures lv) {group group' : List Nat}
    (hgroup : ∀ lv ∈ group, lv < eventCount) (hperm : group'.Perm (group.map f)) :
    sortBranchGroup ids' id measures' group' = (sortBranchGroup ids id measures group).map f := by
  have hdistinct : ∀ left ∈ group', ∀ right ∈ group',
      ids'.eventId left = ids'.eventId right → left = right := by
    intro left hleft right hright heq
    obtain ⟨source, hsource, rfl⟩ := mem_map.mp (hperm.mem_iff.mp hleft)
    obtain ⟨other, hother, rfl⟩ := mem_map.mp (hperm.mem_iff.mp hright)
    rw [h.eventId_eq (hgroup source hsource), h.eventId_eq (hgroup other hother)] at heq
    rw [h.distinct source (hgroup source hsource) other (hgroup other hother) heq]
  rw [sortBranchGroup_of_perm hperm hdistinct,
    sortBranchGroup_map fun branch hbranch => hmeasure branch (hgroup branch hbranch)]
  congr 1
  apply mergeSort_congr
  intro left hleft right hright
  rw [compareBranches, compareBranches,
    h.compare_eq (hgroup left hleft) (hgroup right hright)]
  rfl

theorem moveIdRunContinuationFirst_eq {offset : Nat} (hoffset : offset < eventCount)
    {group : List Nat} (hgroup : ∀ lv ∈ group, lv < eventCount) :
    moveIdRunContinuationFirst ids' id (f offset) (group.map f) =
      (moveIdRunContinuationFirst ids id offset group).map f := by
  rw [moveIdRunContinuationFirst_map]
  · congr 1
    cases group with
    | nil => rfl
    | cons first rest =>
      obtain ⟨-, hrest⟩ := forall_mem_cons.mp hgroup
      rw [moveIdRunContinuationFirst, moveIdRunContinuationFirst, h.agentAt offset hoffset]
      cases hagent : ids.agentAt offset with
      | none => rfl
      | some agent =>
        have hsequence := h.sequenceAt offset hoffset (by simp [hagent])
        have hfind : rest.find? (fun branch => decide (ids'.agentAt (f branch) = some agent ∧
            ids'.sequenceAt (f branch) = numberAdd (ids'.sequenceAt (f offset)) 1)) =
            rest.find? fun branch => decide (ids.agentAt (id branch) = some agent ∧
              ids.sequenceAt (id branch) = numberAdd (ids.sequenceAt offset) 1) := by
          apply find?_congr
          intro branch hbranch
          rw [hsequence, decide_eq_decide, h.agentAt branch (hrest branch hbranch), id]
          apply and_congr_right
          intro hown
          rw [h.sequenceAt branch (hrest branch hbranch) (by simp [hown])]
        simp only [hfind]
  · intro branch hbranch other hother
    exact h.injective branch (hgroup branch hbranch) other (hgroup other hother)

theorem arrangeBranches_eq
    (hmeasure : ∀ lv < eventCount, measures' (f lv) = measures lv) {offset : Nat}
    (hoffset : offset < eventCount) {group group' : List Nat}
    (hgroup : ∀ lv ∈ group, lv < eventCount) (hperm : group'.Perm (group.map f)) :
    arrangeBranches ids' id measures' (f offset) group' =
      (arrangeBranches ids id measures offset group).map f := by
  rw [arrangeBranches, arrangeBranches, hperm.length_eq, length_map,
    h.sortBranchGroup_eq hmeasure hgroup hperm]
  split
  · apply h.moveIdRunContinuationFirst_eq hoffset
    intro lv hlv
    exact hgroup lv ((sortBranchGroup_perm group).mem_iff.mp hlv)
  · next hshort =>
      apply eq_of_perm_of_short _ hperm
      rwa [length_map]

theorem branchOrder_eq (hearlier : EarlierParents eventCount parents)
    (hmeasures : EventMeasures eventCount parents measures)
    (hmeasures' : EventMeasures eventCount parents' measures') :
    branchOrder eventCount parents' ids' measures' =
      (branchOrder eventCount parents ids measures).map f := by
  have hmeasure : ∀ lv < eventCount, measures' (f lv) = measures lv :=
    fun lv hlv => h.measures_eq hearlier hmeasures hmeasures' hlv
  have hrootsLt : ∀ lv ∈ (List.range eventCount).filter (fun lv => parents lv = []),
      lv < eventCount := fun lv hlv => mem_range.mp (mem_filter.mp hlv).1
  have hroots : ((List.range eventCount).filter fun lv => parents' lv = []).Perm
      (((List.range eventCount).filter fun lv => parents lv = []).map f) := by
    apply (perm_ext_iff_of_nodup (nodup_range.filter _) _).mpr
    · intro lv
      rw [mem_filter, mem_range, decide_eq_true_eq, mem_map]
      constructor
      · intro hboth
        obtain ⟨source, hsource, rfl⟩ := h.surjective lv hboth.1
        rw [h.parents_eq source hsource, map_eq_nil_iff] at hboth
        refine ⟨source, ?_, rfl⟩
        rw [mem_filter, mem_range, decide_eq_true_eq]
        exact ⟨hsource, hboth.2⟩
      · intro hex
        obtain ⟨source, hmem, rfl⟩ := hex
        rw [mem_filter, mem_range, decide_eq_true_eq] at hmem
        rw [h.parents_eq source hmem.1, map_eq_nil_iff]
        exact ⟨h.lt source hmem.1, hmem.2⟩
    · apply (nodup_range.filter _).map_on
      intro lv hlv other hother
      exact h.injective lv (hrootsLt lv hlv) other (hrootsLt other hother)
  have hrootsAt : rootsAt eventCount parents' ids' measures' =
      (rootsAt eventCount parents ids measures).map f := by
    rw [rootsAt, rootsAt, hroots.length_eq, length_map,
      h.sortBranchGroup_eq hmeasure hrootsLt hroots]
    split
    · rfl
    · next hshort =>
        apply eq_of_perm_of_short _ hroots
        rwa [length_map]
  have hrootsMem : ∀ lv ∈ rootsAt eventCount parents ids measures, lv ∈ List.range eventCount := by
    intro lv hlv
    rw [rootsAt] at hlv
    apply mem_of_mem_filter (p := fun lv => parents lv = [])
    split at hlv
    · exact (sortBranchGroup_perm _).mem_iff.mp hlv
    · exact hlv
  rw [branchOrder, branchOrder, hrootsAt]
  refine visit_map ?_ ?_ (fun lv _ => EarlierParents.nodup_childrenAt lv)
    (fun lv hlv => h.childrenAt_perm hearlier (mem_range.mp hlv)) ?_ ?_ hrootsMem ?_
  · intro lv hlv other hother
    exact h.injective lv (mem_range.mp hlv) other (mem_range.mp hother)
  · intro lv _ child hchild
    exact mem_range.mpr (EarlierParents.mem_childrenAt.mp hchild).1
  · exact fun lv group other hother => (arrangeBranches_perm lv group).mem_iff.mp hother
  · intro lv hlv group group' hgroup _ hperm
    apply h.arrangeBranches_eq hmeasure (mem_range.mp hlv) _ hperm
    exact fun other hother => mem_range.mp (hgroup other hother)
  · intro lv hlv
    rw [h.parents_eq lv (mem_range.mp hlv), length_map]

end SameEvents

end Invariance

end Softmaple.Codec
