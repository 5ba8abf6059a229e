import Softmaple.BlockModel.MetaRuns

/-!
The causal index with what its queries keep: the frontier, and the memo of ancestry answers that is
never cleared (`block-model/src/causal-index.ts`). `selectWinner` of `replica-state.ts` asks it for the
marks of a piece of text.
-/
namespace Softmaple.BlockModel

open List

/-- The frontier holds no ID twice. -/
structure QueriedIndex where
  index : CausalIndex
  ancestry : InsertionMap Text (InsertionMap Text Bool)
  frontier : List Text

namespace QueriedIndex

def empty : QueriedIndex := ⟨.empty, .empty, []⟩

/-- Whether `parents` names the frontier: as many, and each in it. -/
def extendsFrontier (state : QueriedIndex) (parents : List Text) : Bool :=
  decide (parents.length = state.frontier.length) &&
    parents.all fun parent => decide (parent ∈ state.frontier)

def add (state : QueriedIndex) (eventId : Text) (parents : List Text) :
    Except ReplicaError QueriedIndex := do
  let index ← state.index.add eventId parents
  return { state with index, frontier := (state.frontier.diff parents).insert eventId }

/-- `none` is the throw for an event that is not integrated. -/
def order (state : QueriedIndex) (eventId : Text) : Option Nat :=
  (state.index.nodes.get? eventId).map (·.lv)

def cached (state : QueriedIndex) (ancestorId descendantId : Text) : Option Bool :=
  (state.ancestry.get? ancestorId).bind (·.get? descendantId)

def remember (state : QueriedIndex) (ancestorId descendantId : Text) (result : Bool) :
    QueriedIndex :=
  let byDescendant := (state.ancestry.get? ancestorId).getD .empty
  { state with ancestry := state.ancestry.set ancestorId (byDescendant.set descendantId result) }

def isAncestor (state : QueriedIndex) (ancestorId descendantId : Text) : Bool × QueriedIndex :=
  if ancestorId = descendantId then (false, state)
  else
    match state.index.nodes.get? ancestorId, state.index.nodes.get? descendantId with
    | some ancestor, some descendant =>
      if descendant.lv ≤ ancestor.lv then (false, state)
      else if ancestor.chain = descendant.chain then (true, state)
      else
        match state.cached ancestorId descendantId with
        | some answer => (answer, state)
        | none =>
          let result := state.index.searchAncestor ancestor descendant
          (result, state.remember ancestorId descendantId result)
    | _, _ => (false, state)

variable {α : Type}

/-- `maximal.some`, which stops at the first that the candidate precedes. -/
def precedesSome (state : QueriedIndex) (eventId : Text) :
    List (FieldCandidate α) → Bool × QueriedIndex
  | [] => (false, state)
  | other :: rest =>
    let (answer, state) := state.isAncestor eventId other.eventId
    if answer then (true, state) else state.precedesSome eventId rest

/-- The loop over the candidates, newest first. -/
def keepMaximal (state : QueriedIndex) (maximal : List (FieldCandidate α)) :
    List (FieldCandidate α) → List (FieldCandidate α) × QueriedIndex
  | [] => (maximal, state)
  | candidate :: rest =>
    let (dominated, state) := state.precedesSome candidate.eventId maximal
    state.keepMaximal (if dominated then maximal else maximal ++ [candidate]) rest

def NewerThan (state : QueriedIndex) (left right : FieldCandidate α) : Prop :=
  (state.order right.eventId).getD 0 ≤ (state.order left.eventId).getD 0

instance (state : QueriedIndex) : DecidableRel (NewerThan (α := α) state) :=
  fun _ _ => inferInstanceAs (Decidable (_ ≤ _))

/-- A candidate is a mark with its event ID. `none` is a throw: of the sort, which asks for the order
of every candidate if there are two, or for no candidates. -/
def selectWinner (state : QueriedIndex) (candidates : List (FieldCandidate α)) :
    Option (FieldCandidate α) × QueriedIndex :=
  if 2 ≤ candidates.length ∧ candidates.any fun candidate => (state.order candidate.eventId).isNone then
    (none, state)
  else
    let newestFirst := candidates.insertionSort state.NewerThan
    let (maximal, state) := state.keepMaximal [] newestFirst
    (BlockMetas.largest maximal, state)

end QueriedIndex

/-- An event of the history that no event has as a parent. -/
def History.Childless (history : History) (eventId : Text) : Prop :=
  eventId ∈ history.map Prod.fst ∧ ∀ child, ¬ history.ParentOf eventId child

/-- What `add` calls make of an empty index, with queries between them. -/
inductive Queried : QueriedIndex → History → Prop where
  | empty : Queried .empty []
  | added {state next : QueriedIndex} {history : History} {eventId : Text} {parents : List Text}
      (earlier : Queried state history) (adds : state.add eventId parents = .ok next) :
      Queried next (history ++ [(eventId, parents)])
  | asked {state : QueriedIndex} {history : History} (ancestorId descendantId : Text)
      (earlier : Queried state history) :
      Queried (state.isAncestor ancestorId descendantId).2 history

/-- A candidate that precedes none of the others. -/
def History.Maximal {α : Type} (history : History) (candidates : List (FieldCandidate α))
    (candidate : FieldCandidate α) : Prop :=
  candidate ∈ candidates ∧ ∀ other ∈ candidates, ¬ history.Ancestor candidate.eventId other.eventId

structure QueriedIndex.Answers (state : QueriedIndex) (history : History) : Prop where
  causal : history.Causal
  represents : state.index.Represents history
  nodup : state.frontier.Nodup
  frontier : ∀ eventId, eventId ∈ state.frontier ↔ history.Childless eventId
  cached : ∀ {ancestorId descendantId answer}, state.cached ancestorId descendantId = some answer →
    descendantId ∈ history.map Prod.fst ∧ (answer = true ↔ history.Ancestor ancestorId descendantId)

theorem History.childless_concat {history : History} {eventId other : Text} {parents : List Text}
    (h : history.Causal) (hnew : eventId ∉ history.map Prod.fst)
    (hparents : ∀ parent ∈ parents, parent ∈ history.map Prod.fst) :
    (history ++ [(eventId, parents)]).Childless other ↔
      other = eventId ∨ history.Childless other ∧ other ∉ parents := by
  have hids : other ∈ (history ++ [(eventId, parents)]).map Prod.fst ↔
      other ∈ history.map Prod.fst ∨ other = eventId := by
    rw [map_append, mem_append, map_singleton, mem_singleton]
  by_cases hsame : other = eventId
  · subst hsame
    refine ⟨fun _ => .inl rfl, fun _ => ⟨hids.mpr (.inr rfl), fun child hparent => ?_⟩⟩
    exact h.not_ancestor_new hnew hparents (.single hparent)
  · rw [Childless, hids, or_iff_left hsame, or_iff_right hsame, Childless, and_assoc]
    refine and_congr_right fun _ => ?_
    constructor
    · intro hnone
      refine ⟨fun child ⟨given, hmem, hgiven⟩ => ?_, fun hparent => ?_⟩
      · exact hnone child ⟨given, mem_append_left _ hmem, hgiven⟩
      · exact hnone eventId ⟨parents, mem_append_right _ (mem_singleton.mpr rfl), hparent⟩
    · rintro ⟨hnone, hparent⟩ child ⟨given, hmem, hgiven⟩
      rcases mem_append.mp hmem with hold | hhere
      · exact hnone child ⟨given, hold, hgiven⟩
      · obtain ⟨-, rfl⟩ := Prod.mk.inj (mem_singleton.mp hhere)
        exact hparent hgiven

namespace QueriedIndex

variable {state next : QueriedIndex} {history : History} {eventId ancestorId descendantId : Text}
  {parents : List Text}

theorem answers_empty : Answers .empty [] where
  causal := ⟨nodup_nil, fun h => by cases h⟩
  represents := CausalIndex.represents_empty
  nodup := nodup_nil
  frontier _ := ⟨(fun h => by cases h), fun h => by cases h.1⟩
  cached h := by cases h

section

variable (h : state.Answers history)
include h

theorem Answers.added (hadd : state.add eventId parents = .ok next) :
    next.Answers (history ++ [(eventId, parents)]) := by
  obtain ⟨index, hindex, hnext⟩ := StateMethod.except_bind_eq_ok.mp hadd
  cases hnext
  obtain ⟨hhas, hall, rfl⟩ := BlockMetas.add_eq_ok hindex
  have hnew : eventId ∉ history.map Prod.fst := by
    rw [← h.represents.has_iff, hhas]
    exact Bool.false_ne_true
  have hparents : ∀ parent ∈ parents, parent ∈ history.map Prod.fst :=
    fun parent hparent => (h.represents.has_iff parent).mp (hall parent hparent)
  refine ⟨h.causal.concat hnew hparents, h.represents.append hhas, (h.nodup.diff).insert, ?_, ?_⟩
  · intro other
    rw [mem_insert_iff, h.nodup.mem_sdiff_iff, h.frontier,
      History.childless_concat h.causal hnew hparents]
  · intro first second answer hcached
    obtain ⟨hmem, hanswer⟩ := h.cached hcached
    rw [h.causal.ancestor_concat hnew fun hsame => hnew (hsame ▸ hmem), map_append]
    exact ⟨mem_append_left _ hmem, hanswer⟩

omit h in
theorem cached_remember (result : Bool) (first second : Text) :
    (state.remember ancestorId descendantId result).cached first second =
      if first = ancestorId ∧ second = descendantId then some result
      else state.cached first second := by
  rw [cached, remember]
  by_cases hfirst : first = ancestorId
  · subst hfirst
    rw [InsertionMap.get?_set_self, Option.bind_some, InsertionMap.get?_set]
    by_cases hsecond : second = descendantId
    · rw [if_pos hsecond, if_pos ⟨rfl, hsecond⟩]
    · rw [if_neg hsecond, if_neg fun h => hsecond h.2, cached]
      cases state.ancestry.get? first with
      | none => rfl
      | some answers => rfl
  · rw [InsertionMap.get?_set_of_ne hfirst, if_neg fun h => hfirst h.1, cached]

theorem Answers.remember {result : Bool} (hmem : descendantId ∈ history.map Prod.fst)
    (hresult : result = true ↔ history.Ancestor ancestorId descendantId) :
    (state.remember ancestorId descendantId result).Answers history where
  causal := h.causal
  represents := h.represents
  nodup := h.nodup
  frontier := h.frontier
  cached hcached := by
    rw [cached_remember] at hcached
    split at hcached
    · next hsame =>
        obtain ⟨rfl, rfl⟩ := hsame
        cases hcached
        exact ⟨hmem, hresult⟩
    · exact h.cached hcached

theorem Answers.isAncestor : ((state.isAncestor ancestorId descendantId).1 = true ↔
      history.Ancestor ancestorId descendantId) ∧
      (state.isAncestor ancestorId descendantId).2.Answers history := by
  have hindex := @CausalIndex.Represents.isAncestor_iff state.index history ancestorId
    descendantId h.represents h.causal
  rw [CausalIndex.isAncestor] at hindex
  rw [QueriedIndex.isAncestor]
  split
  · next hsame =>
      rw [if_pos hsame] at hindex
      exact ⟨hindex, h⟩
  next hsame =>
  rw [if_neg hsame] at hindex
  split
  · next ancestor descendant hancestor hdescendant =>
      simp only [hancestor, hdescendant] at hindex
      split
      · next hle =>
          rw [if_pos hle] at hindex
          exact ⟨hindex, h⟩
      next hle =>
      rw [if_neg hle] at hindex
      split
      · next hchain =>
          rw [if_pos hchain] at hindex
          exact ⟨hindex, h⟩
      next hchain =>
      rw [if_neg hchain] at hindex
      split
      · next answer hcached => exact ⟨(h.cached hcached).2, h⟩
      · refine ⟨hindex, h.remember ?_ hindex⟩
        rw [← h.represents.has_iff]
        exact InsertionMap.has_iff.mpr ⟨descendant, hdescendant⟩
  · next hmissing =>
      refine ⟨?_, h⟩
      split at hindex
      · next hancestor hdescendant => exact absurd hdescendant (hmissing _ _ hancestor)
      · exact hindex

omit h in
theorem Answers.of_queried (h : Queried state history) : state.Answers history := by
  induction h with
  | empty => exact answers_empty
  | added earlier adds ih => exact ih.added adds
  | asked ancestorId descendantId earlier ih => exact ih.isAncestor.2

theorem Answers.extendsFrontier_iff (hparents : parents.Nodup) :
    state.extendsFrontier parents = true ↔
      ∀ eventId, eventId ∈ parents ↔ history.Childless eventId := by
  simp only [← h.frontier]
  rw [extendsFrontier, Bool.and_eq_true, decide_eq_true_eq, all_eq_true]
  simp only [decide_eq_true_eq]
  rw [← perm_ext_iff_of_nodup hparents h.nodup]
  constructor
  · intro ⟨hlength, hsubset⟩
    exact (subperm_of_subset hparents hsubset).perm_of_length_le (Nat.le_of_eq hlength.symm)
  · exact fun hperm => ⟨hperm.length_eq, fun parent hparent => hperm.mem_iff.mp hparent⟩

theorem Answers.order_lt (hancestor : history.Ancestor ancestorId descendantId) : ∃ before after,
      state.order ancestorId = some before ∧ state.order descendantId = some after ∧
        before < after := by
  obtain ⟨ancestor, descendant, hfirst, hsecond, hlt⟩ :=
    h.represents.lv_lt_of_ancestor h.causal hancestor
  refine ⟨ancestor.lv, descendant.lv, ?_, ?_, hlt⟩
  · rw [order, hfirst, Option.map_some]
  · rw [order, hsecond, Option.map_some]

end

section Winner

variable {α : Type} {candidate : FieldCandidate α} {maximal rest processed : List (FieldCandidate α)}

theorem Answers.precedesSome (h : state.Answers history) :
    ((state.precedesSome eventId maximal).1 = true ↔
      ∃ other ∈ maximal, history.Ancestor eventId other.eventId) ∧
      (state.precedesSome eventId maximal).2.Answers history := by
  induction maximal generalizing state with
  | nil => exact ⟨⟨(fun h => by cases h), fun ⟨_, h, _⟩ => by cases h⟩, h⟩
  | cons other rest ih =>
    obtain ⟨hanswer, hnext⟩ := @Answers.isAncestor state history eventId other.eventId h
    obtain ⟨hrest, hlast⟩ := ih hnext
    rw [QueriedIndex.precedesSome, exists_mem_cons_iff]
    simp only
    split
    · next hfirst => exact ⟨⟨fun _ => .inl (hanswer.mp hfirst), fun _ => rfl⟩, hnext⟩
    · next hfirst => exact ⟨hrest.trans (or_iff_right fun hthis => hfirst (hanswer.mpr hthis)).symm, hlast⟩

structure KeptMaximal (history : History) (processed maximal : List (FieldCandidate α)) : Prop where
  mem : ∀ candidate, candidate ∈ maximal ↔ history.Maximal processed candidate
  precedes : ∀ candidate ∈ processed, candidate ∈ maximal ∨
    ∃ other ∈ maximal, history.Ancestor candidate.eventId other.eventId

theorem KeptMaximal.step (h : KeptMaximal history processed maximal)
    (holder : ∀ other ∈ processed, ¬ history.Ancestor other.eventId candidate.eventId)
    (hself : ¬ history.Ancestor candidate.eventId candidate.eventId) (dominated : Bool)
    (hdominated : dominated = true ↔ ∃ other ∈ maximal, history.Ancestor candidate.eventId other.eventId) :
    KeptMaximal history (processed ++ [candidate])
      (if dominated then maximal else maximal ++ [candidate]) := by
  have hbelow : (∃ other ∈ processed, history.Ancestor candidate.eventId other.eventId) →
      dominated = true := by
    intro ⟨other, hother, hancestor⟩
    refine hdominated.mpr ?_
    rcases h.precedes other hother with hmem | ⟨last, hlast, habove⟩
    · exact ⟨other, hmem, hancestor⟩
    · exact ⟨last, hlast, hancestor.trans habove⟩
  have hmaximal : ∀ other, history.Maximal (processed ++ [candidate]) other ↔
      history.Maximal processed other ∨ dominated = false ∧ other = candidate := by
    intro other
    rw [History.Maximal, mem_append, mem_singleton, forall_mem_append,
      forall_mem_singleton]
    constructor
    · rintro ⟨hold | rfl, hnone, -⟩
      · exact .inl ⟨hold, hnone⟩
      · refine .inr ⟨Bool.eq_false_iff.mpr fun hthis => ?_, rfl⟩
        obtain ⟨last, hlast, hancestor⟩ := hdominated.mp hthis
        exact hnone last ((h.mem last).mp hlast).1 hancestor
    · rintro (⟨hold, hnone⟩ | ⟨hfree, rfl⟩)
      · exact ⟨.inl hold, hnone, holder other hold⟩
      · refine ⟨.inr rfl, fun last hlast hancestor => ?_, hself⟩
        exact Bool.eq_false_iff.mp hfree (hbelow ⟨last, hlast, hancestor⟩)
  cases dominated with
  | true =>
    refine ⟨fun other => ?_, ?_⟩
    · rw [hmaximal, if_pos rfl, h.mem, or_iff_left fun hfalse => Bool.noConfusion hfalse.1]
    · rw [forall_mem_append, forall_mem_singleton]
      exact ⟨h.precedes, .inr (hdominated.mp rfl)⟩
  | false =>
    rw [if_neg Bool.false_ne_true]
    refine ⟨fun other => ?_, ?_⟩
    · rw [hmaximal, mem_append, mem_singleton, h.mem, and_iff_right rfl]
    · rw [forall_mem_append, forall_mem_singleton]
      refine ⟨fun other hother => ?_, .inl (mem_append_right _ (mem_singleton.mpr rfl))⟩
      rcases h.precedes other hother with hmem | ⟨last, hlast, habove⟩
      · exact .inl (mem_append_left _ hmem)
      · exact .inr ⟨last, mem_append_left _ hlast, habove⟩

theorem Answers.keepMaximal (h : state.Answers history) (hkept : KeptMaximal history processed maximal)
    (hnewest : (processed ++ rest).Pairwise fun newer older =>
      ¬ history.Ancestor newer.eventId older.eventId) :
    KeptMaximal history (processed ++ rest) (state.keepMaximal maximal rest).1 := by
  induction rest generalizing state processed maximal with
  | nil =>
    rw [append_nil]
    exact hkept
  | cons candidate rest ih =>
    obtain ⟨hdominated, hnext⟩ := @Answers.precedesSome state history candidate.eventId α maximal h
    have hstep := hkept.step
      (fun other hother => (pairwise_append.mp hnewest).2.2 other hother candidate
        mem_cons_self)
      h.causal.irrefl _ hdominated
    rw [QueriedIndex.keepMaximal, ← singleton_append, ← append_assoc]
    apply ih hnext hstep
    rwa [append_assoc]

instance : Std.Total (NewerThan (α := α) state) := ⟨fun _ _ => Nat.le_total _ _⟩

instance : IsTrans (FieldCandidate α) state.NewerThan := ⟨fun _ _ _ h k => Nat.le_trans k h⟩

theorem Answers.selectWinner (h : state.Answers history) {candidates : List (FieldCandidate α)}
    (hcandidates : candidates ≠ [])
    (hknown : ∀ candidate ∈ candidates, candidate.eventId ∈ history.map Prod.fst) :
    ∃ winner, (state.selectWinner candidates).1 = some winner ∧ history.Maximal candidates winner ∧
      ∀ other, history.Maximal candidates other → other.eventId ≤ winner.eventId := by
  have hperm := perm_insertionSort state.NewerThan candidates
  have hsorted := pairwise_insertionSort state.NewerThan candidates
  have hnewest : (candidates.insertionSort state.NewerThan).Pairwise fun newer older =>
      ¬ history.Ancestor newer.eventId older.eventId := by
    refine hsorted.imp fun {newer older} hle hancestor => ?_
    obtain ⟨before, after, hbefore, hafter, hlt⟩ := h.order_lt hancestor
    rw [NewerThan, hbefore, hafter] at hle
    exact absurd hlt (Nat.not_lt.mpr hle)
  have hintegrated : ¬ (2 ≤ candidates.length ∧
      candidates.any (fun candidate => (state.order candidate.eventId).isNone) = true) := by
    rintro ⟨-, hany⟩
    obtain ⟨candidate, hmem, hnone⟩ := any_eq_true.mp hany
    obtain ⟨node, hnode⟩ := InsertionMap.has_iff.mp
      ((h.represents.has_iff _).mpr (hknown candidate hmem))
    rw [order, hnode] at hnone
    cases hnone
  have hstart : KeptMaximal history ([] : List (FieldCandidate α)) [] :=
    ⟨fun _ => ⟨(fun h => by cases h), fun h => by cases h.1⟩, fun _ h => by cases h⟩
  have hkept : KeptMaximal history (candidates.insertionSort state.NewerThan)
      (state.keepMaximal [] (candidates.insertionSort state.NewerThan)).1 :=
    h.keepMaximal hstart hnewest
  have hmaximal : ∀ candidate, candidate ∈ (state.keepMaximal []
      (candidates.insertionSort state.NewerThan)).1 ↔ history.Maximal candidates candidate := by
    intro candidate
    rw [hkept.mem, History.Maximal, History.Maximal]
    simp only [hperm.mem_iff]
  rw [QueriedIndex.selectWinner, if_neg hintegrated]
  simp only
  cases hlargest : BlockMetas.largest (state.keepMaximal []
      (candidates.insertionSort state.NewerThan)).1 with
  | some winner =>
    obtain ⟨hmem, hall⟩ := largest_spec hlargest
    exact ⟨winner, rfl, (hmaximal winner).mp hmem,
      fun other hother => hall other ((hmaximal other).mpr hother)⟩
  | none =>
    obtain ⟨candidate, hcandidate⟩ := exists_mem_of_ne_nil candidates hcandidates
    have hempty := largest_eq_none.mp hlargest
    rcases hkept.precedes candidate (hperm.mem_iff.mpr hcandidate) with hmem | ⟨last, hlast, -⟩
    · rw [hempty] at hmem
      cases hmem
    · rw [hempty] at hlast
      cases hlast

end Winner

/-- Ancestry, order, frontier and winners are those of the history, whatever was asked before. -/
theorem queries_exact {α : Type} (h : Queried state history) :
    (∀ ancestorId descendantId, (state.isAncestor ancestorId descendantId).1 = true ↔
      history.Ancestor ancestorId descendantId) ∧
    (∀ ancestorId descendantId, history.Ancestor ancestorId descendantId → ∃ before after,
      state.order ancestorId = some before ∧ state.order descendantId = some after ∧
        before < after) ∧
    (∀ parents : List Text, parents.Nodup → (state.extendsFrontier parents = true ↔
      ∀ eventId, eventId ∈ parents ↔ history.Childless eventId)) ∧
    ∀ candidates : List (FieldCandidate α), candidates ≠ [] →
      (∀ candidate ∈ candidates, candidate.eventId ∈ history.map Prod.fst) →
        ∃ winner, (state.selectWinner candidates).1 = some winner ∧
          history.Maximal candidates winner ∧
          ∀ other, history.Maximal candidates other → other.eventId ≤ winner.eventId := by
  have hanswers := Answers.of_queried h
  exact ⟨fun _ _ => hanswers.isAncestor.1, fun _ _ => hanswers.order_lt,
    fun _ => hanswers.extendsFrontier_iff, fun _ => hanswers.selectWinner⟩

section Branched

/-- Two events after a root. -/
def branchedHistory : History := [([0], []), ([1], [[0]]), ([2], [[0]])]

def branched : QueriedIndex where
  index := ((CausalIndex.empty.append [0] []).append [1] [[0]]).append [2] [[0]]
  ancestry := .empty
  frontier := [[2], [1]]

theorem branched_queried : Queried branched branchedHistory :=
  .added (.added (.added .empty rfl) rfl) rfl

/-- As many IDs as the frontier has, all of them in it, and the frontier is not named. -/
theorem extendsFrontier_repeated : ¬ ∀ (state : QueriedIndex) (history : History),
    Queried state history → ∀ parents, state.extendsFrontier parents = true ↔
      ∀ eventId, eventId ∈ parents ↔ history.Childless eventId := by
  intro hall
  have hnamed := (hall branched branchedHistory branched_queried [[1], [1]]).mp (by decide)
  have hchildless := ((Answers.of_queried branched_queried).frontier [2]).mp (by decide)
  exact absurd ((hnamed [2]).mpr hchildless) (by decide)

theorem branched_exact : (branched.isAncestor [0] [2]).1 = true ∧
    branched.extendsFrontier [[1], [2]] = true ∧
    ∃ winner, (branched.selectWinner [⟨[1], 0⟩, ⟨[0], 1⟩, ⟨[2], 2⟩]).1 = some winner ∧
      branchedHistory.Maximal [⟨[1], 0⟩, ⟨[0], 1⟩, ⟨[2], 2⟩] winner := by
  obtain ⟨hancestor, -, hfrontier, hwinner⟩ := @queries_exact branched branchedHistory Nat branched_queried
  have hparent : branchedHistory.ParentOf [0] [2] := ⟨[[0]], by decide, by decide⟩
  refine ⟨(hancestor [0] [2]).mpr (.single hparent), ?_, ?_⟩
  · refine (hfrontier [[1], [2]] (by decide)).mpr fun eventId => ?_
    rw [← (Answers.of_queried branched_queried).frontier eventId, branched, mem_cons,
      mem_cons, mem_cons, mem_cons, or_left_comm]
  · obtain ⟨winner, hselected, hmaximal, -⟩ := hwinner [⟨[1], 0⟩, ⟨[0], 1⟩, ⟨[2], 2⟩]
      (cons_ne_nil _ _) (by decide)
    exact ⟨winner, hselected, hmaximal⟩

end Branched

end QueriedIndex

end Softmaple.BlockModel
