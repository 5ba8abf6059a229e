import Softmaple.BlockModel.TrackedMetas

/-!
Runs of the block metadata: events in any topological order, with field lookups between them. What a
run knows of the blocks is what its events say.
-/
namespace Softmaple.BlockModel

open List

namespace History

variable {history : History} {first second eventId : Text} {lv : Nat}

theorem Causal.before_of_ancestor (h : history.Causal) (hancestor : history.Ancestor first second)
    {parents : List Text} (hlv : history[lv]? = some (second, parents)) :
    ∃ (before : Nat) (grandparents : List Text), before < lv ∧
      history[before]? = some (first, grandparents) := by
  have hparent : ∀ {parent child lv parents}, history.ParentOf parent child →
      history[lv]? = some (child, parents) → ∃ (before : Nat) (grandparents : List Text), before < lv ∧
        history[before]? = some (parent, grandparents) := by
    intro parent child lv parents ⟨given, hmem, hgiven⟩ hlv
    obtain ⟨place, hplace⟩ := getElem?_of_mem hmem
    obtain rfl := h.lv_unique hplace hlv
    exact h.earlier hplace hgiven
  induction hancestor generalizing lv parents with
  | single hstep => exact hparent hstep hlv
  | tail _ hstep ih =>
    obtain ⟨middle, grandparents, hmiddle, hget⟩ := hparent hstep hlv
    obtain ⟨before, earlier, hbefore, hfirst⟩ := ih hget
    exact ⟨before, earlier, Nat.lt_trans hbefore hmiddle, hfirst⟩

theorem Causal.irrefl (h : history.Causal) : ¬ history.Ancestor eventId eventId := by
  intro hancestor
  obtain ⟨entry, hentry, rfl⟩ := mem_map.mp (h.ancestor_ids hancestor).2
  obtain ⟨lv, hlv⟩ := getElem?_of_mem hentry
  obtain ⟨before, grandparents, hbefore, hget⟩ := h.before_of_ancestor hancestor hlv
  exact Nat.ne_of_lt hbefore (h.lv_unique hget hlv)

end History

section Winners

variable {events : List RichTextEvent} {blockId : BlockId} {field : FieldName}

theorem exists_maximal (h : (historyOf events).Causal) {eventId : Text} {value : field.Value}
    (hassigns : Assigns events blockId field eventId value) :
    ∃ last given, MaximalAssignment events blockId field last given := by
  obtain ⟨entry, hentry, rfl⟩ := mem_map.mp hassigns.mem_ids
  obtain ⟨lv, hlv⟩ := getElem?_of_mem hentry
  -- the assignments that have seen this one come later, so there is a last one
  induction hleft : (historyOf events).length - lv using Nat.strong_induction_on
    generalizing lv entry value with
  | _ left ih =>
    by_cases hmaximal : ∃ other given, Assigns events blockId field other given ∧
        (historyOf events).Ancestor entry.1 other
    · obtain ⟨other, given, hother, hancestor⟩ := hmaximal
      obtain ⟨later, hlater, rfl⟩ := mem_map.mp hother.mem_ids
      obtain ⟨place, hplace⟩ := getElem?_of_mem hlater
      obtain ⟨before, parents, hbefore, hget⟩ := h.before_of_ancestor hancestor hplace
      obtain rfl := h.lv_unique hget hlv
      have hlt := (List.getElem?_eq_some_iff.mp hplace).1
      exact ih _ (by omega) later hlater hother place hplace rfl
    · refine ⟨entry.1, value, hassigns, fun other given hother hancestor => ?_⟩
      exact hmaximal ⟨other, given, hother, hancestor⟩

theorem largest_spec {α : Type} {candidates : List (FieldCandidate α)} {best : FieldCandidate α}
    (h : BlockMetas.largest candidates = some best) :
    best ∈ candidates ∧ ∀ candidate ∈ candidates, candidate.eventId ≤ best.eventId := by
  have hfold : ∀ (rest : List (FieldCandidate α)) (first : FieldCandidate α) (last),
      rest.foldl (fun best candidate => if best.eventId < candidate.eventId then candidate else best) first =
        last → last ∈ first :: rest ∧ ∀ candidate ∈ first :: rest, candidate.eventId ≤ last.eventId := by
    intro rest
    induction rest with
    | nil =>
      rintro first last rfl
      exact ⟨mem_singleton_self _, fun candidate h => mem_singleton.mp h ▸ le_refl _⟩
    | cons second rest ih =>
      intro first last hlast
      rw [foldl_cons] at hlast
      obtain ⟨hmem, hall⟩ := ih _ last hlast
      rw [forall_mem_cons] at hall
      split at hmem
      · next hlt =>
          rw [if_pos hlt] at hall
          refine ⟨mem_cons_of_mem first hmem, forall_mem_cons.mpr ⟨?_, ?_⟩⟩
          · exact le_trans (le_of_lt hlt) hall.1
          · exact forall_mem_cons.mpr hall
      · next hle =>
          rw [if_neg hle] at hall
          refine ⟨?_, forall_mem_cons.mpr ⟨hall.1, forall_mem_cons.mpr ⟨?_, hall.2⟩⟩⟩
          · exact (mem_cons.mp hmem).elim (fun h => h ▸ mem_cons_self)
              fun h => mem_cons_of_mem _ (mem_cons_of_mem _ h)
          · exact le_trans (le_of_not_gt hle) hall.1
  cases candidates with
  | nil => cases h
  | cons first rest => exact hfold rest first best (Option.some.inj h)

theorem largest_eq_none {α : Type} {candidates : List (FieldCandidate α)} :
    BlockMetas.largest candidates = none ↔ candidates = [] := by
  cases candidates with
  | nil => exact ⟨fun _ => rfl, fun _ => rfl⟩
  | cons first rest => exact ⟨nofun, nofun⟩

theorem Assigns.value_unique (h : (historyOf events).Causal) {eventId : Text} {first second : field.Value}
    (hfirst : Assigns events blockId field eventId first)
    (hsecond : Assigns events blockId field eventId second) : first = second := by
  obtain ⟨event, hevent, rfl, patch, hpatch, hvalue⟩ := hfirst
  obtain ⟨other, hother, hid, given, hgiven, hsame⟩ := hsecond
  have hnodup := h.nodup
  rw [ids_historyOf] at hnodup
  obtain rfl := inj_on_of_nodup_map hnodup hother hevent hid
  obtain ⟨-, rfl⟩ := Prod.mk.inj (Option.some.inj (hpatch.symm.trans hgiven))
  exact Option.some.inj (hvalue.symm.trans hsame)

theorem IsWinner.unique (h : (historyOf events).Causal) {first second : field.Value}
    (hfirst : IsWinner events blockId field first) (hsecond : IsWinner events blockId field second) :
    first = second := by
  rcases hfirst with ⟨eventId, hmax, hlargest⟩ | ⟨hnone, rfl⟩
  · rcases hsecond with ⟨other, hother, hall⟩ | ⟨hnone, -⟩
    · obtain rfl := le_antisymm (hlargest other second hother) (hall eventId first hmax)
      exact hmax.1.value_unique h hother.1
    · exact absurd hmax.1 (hnone _ _)
  · rcases hsecond with ⟨other, hother, -⟩ | ⟨-, rfl⟩
    · exact absurd hother.1 (hnone _ _)
    · rfl

theorem isWinner_largest (h : (historyOf events).Causal) {candidates : List (FieldCandidate field.Value)}
    (hcandidates : ∀ candidate, candidate ∈ candidates ↔
      MaximalAssignment events blockId field candidate.eventId candidate.value) :
    IsWinner events blockId field
      (((BlockMetas.largest candidates).map (·.value)).getD (DEFAULT_BLOCK_FIELDS.get field)) := by
  cases hlargest : BlockMetas.largest candidates with
  | none =>
    obtain rfl := largest_eq_none.mp hlargest
    refine .inr ⟨fun eventId given hassigns => ?_, rfl⟩
    obtain ⟨last, value, hmaximal⟩ := exists_maximal h hassigns
    exact not_mem_nil ((hcandidates ⟨last, value⟩).mpr hmaximal)
  | some best =>
    obtain ⟨hmem, hall⟩ := largest_spec hlargest
    refine .inl ⟨best.eventId, (hcandidates best).mp hmem, fun other given hother => ?_⟩
    exact hall ⟨other, given⟩ ((hcandidates ⟨other, given⟩).mpr hother)

theorem CompleteBlockFields.get_ofWinners (winners : (field : FieldName) → field.Value) (field : FieldName) :
    (CompleteBlockFields.ofWinners winners).get field = winners field := by
  cases field with
  | type | parentId | language | theme | start | value | checked => rfl

theorem CompleteBlockFields.ext_get {first second : CompleteBlockFields}
    (h : ∀ field, first.get field = second.get field) : first = second := by
  obtain ⟨⟨parentId, language, theme, start, value, checked⟩, type⟩ := first
  obtain ⟨⟨parentId', language', theme', start', value', checked'⟩, type'⟩ := second
  obtain rfl : type = type' := h .type
  obtain rfl : parentId = parentId' := h .parentId
  obtain rfl : language = language' := h .language
  obtain rfl : theme = theme' := h .theme
  obtain rfl : start = start' := h .start
  obtain rfl : value = value' := h .value
  obtain rfl : checked = checked' := h .checked
  rfl

end Winners

namespace BlockMetas

/-- A state that knows what the events say. -/
structure Follows (state : BlockMetas) (events : List RichTextEvent) : Prop where
  ordered : (historyOf events).Causal
  causal : state.causal.Represents (historyOf events)
  describes : Describes state events

/-- Events integrated one after the other, and fields looked up in between. -/
inductive MetaRun : List RichTextEvent → BlockMetas → Prop where
  | empty : MetaRun [] empty
  | integrate {events : List RichTextEvent} {event : RichTextEvent} {state next : BlockMetas}
      (run : MetaRun events state) (result : state.integrateEvent event = .ok next) :
      MetaRun (events ++ [event]) next
  | resolve {events : List RichTextEvent} {state : BlockMetas} (run : MetaRun events state)
      (blockId : BlockId) : MetaRun events (state.resolveFields blockId).2

variable {state next : BlockMetas} {events : List RichTextEvent} {event : RichTextEvent}
  {blockId : BlockId}

theorem follows_empty : Follows empty [] where
  ordered := ⟨nodup_nil, fun h => by cases h⟩
  causal := CausalIndex.represents_empty
  describes :=
    { marker := ⟨fun ⟨h, _⟩ => (by cases h), fun ⟨_, h, _⟩ => (by cases h)⟩
      children := ⟨fun h => (by cases h), fun ⟨_, _, h, _⟩ => (by cases h)⟩
      fields := ⟨fun h => (by cases h), fun ⟨⟨_, h, _⟩, _⟩ => (by cases h)⟩
      causes := ⟨fun h => (by cases h), fun ⟨_, _, ⟨_, h, _⟩, _⟩ => (by cases h)⟩
      resolved := fun h => (by cases h) }

theorem add_eq_ok {causal last : CausalIndex} {eventId : Text} {parents : List Text}
    (h : causal.add eventId parents = .ok last) : causal.has eventId = false ∧
      (∀ parent ∈ parents, causal.has parent = true) ∧ last = causal.append eventId parents := by
  rw [CausalIndex.add] at h
  split at h
  · cases h
  next hnew =>
  split at h
  · cases h
  next hparents =>
  refine ⟨Bool.eq_false_iff.mpr hnew, fun parent hparent => ?_, (Except.ok.inj h).symm⟩
  have hhas := find?_eq_none.mp hparents parent hparent
  rwa [Bool.not_eq_true', Bool.not_eq_false] at hhas

theorem Follows.arrives (h : Follows state events) {causal : CausalIndex}
    (hadd : state.causal.add event.id event.parentVersion = .ok causal) :
    Arrives { state with causal } events event := by
  obtain ⟨hnew, hparents, rfl⟩ := add_eq_ok hadd
  have hfresh : event.id ∉ (historyOf events).map Prod.fst := by
    rw [← h.causal.has_iff, hnew]
    exact Bool.false_ne_true
  refine ⟨⟨h.ordered, hfresh, fun parent hparent => ?_⟩, ?_, ?_⟩
  · exact (h.causal.has_iff parent).mp (hparents parent hparent)
  · rw [historyOf_concat]
    exact h.causal.append hnew
  · exact ⟨h.describes.marker, h.describes.children, h.describes.fields, h.describes.causes,
      h.describes.resolved⟩

theorem Arrives.applyEffect (h : Arrives state events event)
    (hresult : state.applyEffect event.id event.effect = .ok next) :
    Describes next (events ++ [event]) ∧ next.causal = state.causal := by
  rw [BlockMetas.applyEffect.eq_def] at hresult
  split at hresult
  · next blockId fields heffect =>
      refine h.describes_create ?_ ?_ ?_ hresult
      · rw [heffect]; rfl
      · rw [heffect]; rfl
      · rw [heffect]; exact nofun
  · next blockId source fields heffect =>
      refine h.describes_create ?_ ?_ ?_ hresult
      · rw [heffect]; rfl
      · rw [heffect]; rfl
      · rw [heffect]; exact nofun
  · next blockId fields heffect =>
      cases hresult
      exact ⟨h.describes_set heffect, rfl⟩
  · next blockId heffect =>
      split at hresult
      · cases hresult
      · cases hresult
        exact ⟨h.describes_delete heffect, rfl⟩
  · next blockId heffect =>
      split at hresult
      · cases hresult
      cases hresult
      have hsame : ∀ other, SameFields (metaOf state.blocks other) (metaOf (state.update blockId
          fun record => { record with joins := record.joins ++ [event.id] }).blocks other) ∧
          (metaOf (state.update blockId
            fun record => { record with joins := record.joins ++ [event.id] }).blocks other).causes =
            (metaOf state.blocks other).causes := by
        intro other
        rw [metaOf_update]
        split
        · next hsame =>
            subst hsame
            exact ⟨⟨rfl, rfl, rfl, rfl⟩, rfl⟩
        · exact ⟨⟨rfl, rfl, rfl, rfl⟩, rfl⟩
      refine ⟨h.describes_quiet ?_ ?_ ?_ (fun other => (hsame other).1) (fun other => (hsame other).2)
        fun _ => rfl, rfl⟩
      · rw [heffect]; rfl
      · rw [heffect]; rfl
      · rw [heffect]; exact nofun
  all_goals
    next heffect =>
      cases hresult
      refine ⟨h.describes_quiet ?_ ?_ ?_ (fun _ => ⟨rfl, rfl, rfl, rfl⟩) (fun _ => rfl) fun _ => rfl, rfl⟩
      · rw [heffect]; rfl
      · rw [heffect]; rfl
      · rw [heffect]; exact nofun

theorem Follows.integrate (h : Follows state events) (hresult : state.integrateEvent event = .ok next) :
    Follows next (events ++ [event]) := by
  obtain ⟨causal, hadd, hresult⟩ := StateMethod.except_bind_eq_ok.mp hresult
  have harrives := h.arrives hadd
  obtain ⟨hdescribes, hcausal⟩ := harrives.applyEffect hresult
  refine ⟨harrives.fresh.next, ?_, hdescribes⟩
  rw [hcausal]
  exact harrives.causal

theorem resolveFields_fst (h : Describes state events) (blockId : BlockId) :
    (state.resolveFields blockId).1 = CompleteBlockFields.ofWinners (winner (metaOf state.blocks blockId)) := by
  rw [resolveFields]
  dsimp only
  split
  · next fields hresolved => exact h.resolved hresolved
  · rfl

theorem Follows.resolve (h : Follows state events) (blockId : BlockId) :
    Follows (state.resolveFields blockId).2 events := by
  rw [resolveFields]
  dsimp only
  split
  · exact h
  · refine ⟨h.ordered, h.causal, ?_, h.describes.children, ?_, ?_, ?_⟩
    · intro other eventId source
      rw [← h.describes.marker, metaOf_update]
      split
      · next hsame => subst hsame; rfl
      · rfl
    · intro other field candidate
      rw [← h.describes.fields, metaOf_update]
      split
      · next hsame => subst hsame; rfl
      · rfl
    · intro other delete
      rw [← h.describes.causes, metaOf_update]
      split
      · next hsame => subst hsame; rfl
      · rfl
    · intro other fields hresolved
      rw [metaOf_update] at hresolved ⊢
      split at hresolved
      · next hsame =>
          subst hsame
          rw [if_pos rfl, ← Option.some.inj hresolved]
          rfl
      · next hother =>
          rw [if_neg hother]
          exact h.describes.resolved hresolved

theorem MetaRun.follows (h : MetaRun events state) : Follows state events := by
  induction h with
  | empty => exact follows_empty
  | integrate _ hresult ih => exact ih.integrate hresult
  | resolve _ blockId ih => exact ih.resolve blockId

theorem Follows.winner (h : Follows state events) (blockId : BlockId) (field : FieldName) :
    IsWinner events blockId field (winner (metaOf state.blocks blockId) field) := by
  have hwinner := isWinner_largest h.ordered fun candidate =>
    @Describes.fields state events h.describes blockId field candidate
  rw [BlockMetas.winner]
  split
  · next hnone => rwa [hnone] at hwinner
  · next candidate hsome => rwa [hsome] at hwinner

theorem Follows.hidden_iff (h : Follows state events) (blockId : BlockId) :
    (metaOf state.blocks blockId).causes ≠ [] ↔ Hidden events blockId := by
  have hcauses : ∀ delete, delete ∈ (metaOf state.blocks blockId).causes ↔ RemovedBy events delete blockId :=
    fun delete => h.describes.causes
  constructor
  · intro hcause
    obtain ⟨delete, hdelete⟩ := exists_mem_of_ne_nil _ hcause
    exact ⟨delete, (hcauses delete).mp hdelete⟩
  · intro ⟨delete, hremoved⟩
    exact ne_nil_of_mem ((hcauses delete).mpr hremoved)

end BlockMetas
end Softmaple.BlockModel
