import Softmaple.BlockModel.MarkOwners

/-!
What a replica state has found to own a mark is what the materializer finds, as long as no new block
hands a removal on into the mark's past. Both read the blocks visible in that past, in document order.
-/
namespace Softmaple.BlockModel

open List

section Groups

variable {visible joined : BlockId → Bool} {own blockId : BlockId} {segments blocks : List BlockId}

/-- The group of a block among the visible ones; `led` says whether one came before. -/
def ownedIn (joined : BlockId → Bool) (own : BlockId) : Bool → List BlockId → List BlockId
  | _, [] => [own]
  | led, blockId :: rest =>
    if blockId = own then if joined own && led then [own] else own :: rest.takeWhile joined
    else ownedIn joined own true rest

theorem ownedIn_of_not_mem {led : Bool} (h : own ∉ blocks) : ownedIn joined own led blocks = [own] := by
  induction blocks generalizing led with
  | nil => rfl
  | cons blockId rest ih =>
    obtain ⟨hhere, hrest⟩ := ne_and_not_mem_of_not_mem_cons h
    rw [ownedIn, if_neg (Ne.symm hhere)]
    exact ih hrest

theorem joinedAfter_eq : joinedAfter visible joined segments = (segments.filter visible).takeWhile joined := by
  induction segments with
  | nil => rfl
  | cons blockId rest ih =>
    rw [joinedAfter, ih]
    by_cases hvisible : visible blockId = true
    · rw [filter_cons_of_pos hvisible, takeWhile_cons, hvisible]
      cases joined blockId with
      | true => rfl
      | false => rfl
    · rw [filter_cons_of_neg hvisible, Bool.eq_false_iff.mpr hvisible]
      rfl

theorem groupOf_eq : groupOf visible joined segments own = ownedIn joined own false (segments.filter visible) := by
  have hall : ∀ led : Bool, ((segments.idxOf? own).elim [own] fun index =>
      if !visible own then [own]
      else if joined own && (led || (segments.take index).any visible) then [own]
      else own :: joinedAfter visible joined (segments.drop (index + 1))) =
      ownedIn joined own led (segments.filter visible) := by
    induction segments with
    | nil => exact fun led => rfl
    | cons blockId rest ih =>
      intro led
      rw [idxOf?_cons]
      by_cases hsame : blockId = own
      · subst hsame
        rw [if_pos (beq_self_eq_true blockId)]
        by_cases hvisible : visible blockId = true
        · rw [filter_cons_of_pos hvisible, ownedIn, if_pos rfl, hvisible, ← joinedAfter_eq]
          simp
        · rw [ownedIn_of_not_mem fun hmem => hvisible (mem_filter.mp hmem).2,
            Bool.eq_false_iff.mpr hvisible]
          rfl
      · rw [if_neg (by simpa using hsame)]
        have hnext : ownedIn joined own led ((blockId :: rest).filter visible) =
            ownedIn joined own (led || visible blockId) (rest.filter visible) := by
          cases hvisible : visible blockId with
          | true => rw [filter_cons_of_pos hvisible, ownedIn, if_neg hsame, Bool.or_true]
          | false => rw [filter_cons_of_neg (Bool.eq_false_iff.mp hvisible), Bool.or_false]
        rw [hnext, ← ih]
        cases rest.idxOf? own with
        | none => rfl
        | some index => simp [Bool.or_assoc]
  rw [← hall, groupOf]
  cases segments.idxOf? own with
  | none => rfl
  | some index => rfl

variable {owner : Option BlockId} {owned : List BlockId}

/-- One visible marker in the loop of `resolveMarkOwnership`. -/
def visibleStep (joined : BlockId → Bool) (own : BlockId) (walk : Option BlockId × List BlockId)
    (blockId : BlockId) : Option BlockId × List BlockId :=
  let owner := if !joined blockId || walk.1.isNone then some blockId else walk.1
  (owner, if owner = some own then walk.2 ++ [blockId] else walk.2)

theorem visibleWalk_past (howner : owner ≠ some own) (hnot : own ∉ blocks) :
    (blocks.foldl (visibleStep joined own) (owner, owned)).2 = owned := by
  induction blocks generalizing owner with
  | nil => rfl
  | cons blockId rest ih =>
    obtain ⟨hhere, hrest⟩ := ne_and_not_mem_of_not_mem_cons hnot
    have hnext : (if !joined blockId || owner.isNone then some blockId else owner) ≠ some own := by
      split
      · exact fun hsame => hhere (Option.some.inj hsame).symm
      · exact howner
    rw [foldl_cons, visibleStep]
    dsimp only
    rw [if_neg hnext]
    exact ih hnext hrest

theorem visibleWalk_own (hnot : own ∉ blocks) :
    (blocks.foldl (visibleStep joined own) (some own, owned)).2 = owned ++ blocks.takeWhile joined := by
  induction blocks generalizing owned with
  | nil => exact (append_nil owned).symm
  | cons blockId rest ih =>
    obtain ⟨hhere, hrest⟩ := ne_and_not_mem_of_not_mem_cons hnot
    rw [foldl_cons, visibleStep, takeWhile_cons]
    cases joined blockId with
    | true =>
      rw [Bool.not_true, Bool.false_or, Option.isNone_some, if_neg Bool.false_ne_true]
      dsimp only
      rw [if_pos rfl, ih hrest, append_assoc]
      rfl
    | false =>
      rw [Bool.not_false, Bool.true_or, if_pos rfl]
      dsimp only
      have hnext : some blockId ≠ some own := fun hsame => hhere (Option.some.inj hsame).symm
      rw [if_neg hnext, visibleWalk_past hnext hrest]
      exact (append_nil owned).symm

theorem visibleWalk_eq (hnodup : blocks.Nodup) (howner : owner ≠ some own) :
    (let owned := (blocks.foldl (visibleStep joined own) (owner, [])).2
     if owned.isEmpty then [own] else owned) = ownedIn joined own owner.isSome blocks := by
  induction blocks generalizing owner with
  | nil => rfl
  | cons blockId rest ih =>
    obtain ⟨hnot, hrest⟩ := nodup_cons.mp hnodup
    rw [foldl_cons, visibleStep, ownedIn]
    by_cases hsame : blockId = own
    · subst hsame
      have hguard : (joined blockId && owner.isSome) = !(!joined blockId || owner.isNone) := by
        cases joined blockId <;> cases owner <;> rfl
      rw [if_pos rfl, hguard]
      cases !joined blockId || owner.isNone with
      | true =>
        rw [if_pos rfl]
        dsimp only
        rw [if_pos rfl, visibleWalk_own hnot]
        rfl
      | false =>
        rw [if_neg Bool.false_ne_true]
        dsimp only
        rw [if_neg howner, visibleWalk_past howner hnot]
        rfl
    · rw [if_neg hsame]
      have hnext : (if !joined blockId || owner.isNone then some blockId else owner) ≠ some own := by
        split
        · exact fun heq => hsame (Option.some.inj heq)
        · exact howner
      have hsome : (if !joined blockId || owner.isNone then some blockId else owner).isSome = true := by
        cases owner with
        | none => simp
        | some other => split <;> rfl
      dsimp only
      rw [if_neg hnext]
      exact (ih hrest hnext).trans (by rw [hsome])

end Groups

section Pasts

variable {events : List RichTextEvent} {event : RichTextEvent} {eventId delete : Text} {blockId : BlockId}

def Joins (events : List RichTextEvent) (eventId : Text) (blockId : BlockId) : Prop :=
  ∃ event ∈ events, event.id = eventId ∧ event.effect = .blockJoin blockId

def VisibleIn (events : List RichTextEvent) (eventId : Text) (blockId : BlockId) : Prop :=
  (∃ marker source, Creates events marker blockId source ∧ (historyOf events).Ancestor marker eventId) ∧
    ∀ delete, RemovedBy events delete blockId → ¬ (historyOf events).Ancestor delete eventId

def JoinedIn (events : List RichTextEvent) (eventId : Text) (blockId : BlockId) : Prop :=
  ∃ join, Joins events join blockId ∧ (historyOf events).Ancestor join eventId

theorem joins_concat : Joins (events ++ [event]) eventId blockId ↔ Joins events eventId blockId ∨
    event.id = eventId ∧ event.effect = .blockJoin blockId :=
  exists_concat

theorem Fresh.removedBy_concat (h : Fresh events event) (hdelete : delete ≠ event.id)
    (hremoved : RemovedBy (events ++ [event]) delete blockId) : RemovedBy events delete blockId ∨
      ∃ created source markers, event.effect.marker = some (created, some source) ∧
        RemovedBy events delete source ∧ SplitPath events created markers blockId ∧
        ∀ marker ∈ markers, ¬ (historyOf events).Ancestor marker delete := by
  refine hremoved.induction (motive := fun target => RemovedBy events delete target ∨
      ∃ created source markers, event.effect.marker = some (created, some source) ∧
        RemovedBy events delete source ∧ SplitPath events created markers target ∧
        ∀ marker ∈ markers, ¬ (historyOf events).Ancestor marker delete)
    (fun target hdeletes => ?_) fun source child marker hcreates hunseen ih => ?_
  · rcases deletes_concat.mp hdeletes with hold | ⟨hsame, -⟩
    · exact .inl (removedBy_iff.mpr (.inl hold))
    · exact absurd hsame.symm hdelete
  · have hknown : delete ∈ (historyOf events).map Prod.fst := by
      rcases ih with hold | ⟨_, _, _, -, hold, -⟩
      · exact hold.mem_ids
      · exact hold.mem_ids
    rw [h.ancestor_iff hknown] at hunseen
    rcases creates_concat.mp hcreates with hold | ⟨-, hmarker⟩
    · rcases ih with hsource | ⟨created, top, markers, hmarker, htop, hpath, hmarkers⟩
      · exact .inl (removedBy_iff.mpr (.inr ⟨source, marker, hold, hsource, hunseen⟩))
      · refine .inr ⟨created, top, markers ++ [marker], hmarker, htop, .split hpath hold, ?_⟩
        exact forall_mem_append.mpr ⟨hmarkers, forall_mem_singleton.mpr hunseen⟩
    · rcases ih with hsource | ⟨created, top, markers, hother, htop, -, -⟩
      · exact .inr ⟨child, source, [], hmarker, hsource, .top, nofun⟩
      · cases hmarker.symm.trans hother
        exact .inr ⟨child, source, [], hmarker, htop, .top, nofun⟩

variable {state : MarkState} {mark : MarkRecord}

theorem Fresh.visibleIn_iff (h : Fresh events event) (hharmless : state.Harmless events event)
    (hindexed : state.Indexed mark) (hmark : mark.eventId ∈ (historyOf events).map Prod.fst)
    (hunique : ∀ {first second blockId given other}, Creates (events ++ [event]) first blockId given →
      Creates (events ++ [event]) second blockId other → first = second) :
    VisibleIn (events ++ [event]) mark.eventId blockId ↔ VisibleIn events mark.eventId blockId := by
  constructor
  · rintro ⟨⟨marker, source, hcreates, hancestor⟩, hunremoved⟩
    refine ⟨?_, fun delete hremoved hbefore => ?_⟩
    · rcases creates_concat.mp hcreates with hold | ⟨rfl, -⟩
      · exact ⟨marker, source, hold, (h.ancestor_iff hmark).mp hancestor⟩
      · exact absurd hancestor (h.not_ancestor _)
    · exact hunremoved delete (h.removedBy hremoved) ((h.ancestor_iff hmark).mpr hbefore)
  · rintro ⟨⟨marker, source, hcreates, hancestor⟩, hunremoved⟩
    have hnew : Creates (events ++ [event]) marker blockId source := creates_concat.mpr (.inl hcreates)
    refine ⟨⟨marker, source, hnew, (h.ancestor_iff hmark).mpr hancestor⟩, fun delete hremoved hbefore => ?_⟩
    have hdelete : delete ≠ event.id := by
      rintro rfl
      exact h.not_ancestor _ hbefore
    rw [h.ancestor_iff hmark] at hbefore
    rcases h.removedBy_concat hdelete hremoved with hold | ⟨created, top, markers, hmarker, htop, hpath, hmarkers⟩
    · exact hunremoved delete hold hbefore
    · cases hpath with
      | top =>
        have hother : Creates (events ++ [event]) event.id blockId (some top) :=
          creates_concat.mpr (.inr ⟨rfl, hmarker⟩)
        obtain rfl := hunique hnew hother
        exact h.not_ancestor _ ((h.ancestor_iff hmark).mpr hancestor)
      | @split markers parent child last path hlast =>
        have hsame := hunique hnew (creates_concat.mpr (.inl hlast))
        refine hharmless hmarker hindexed htop hbefore (.split path hlast) hmarkers last ?_ (hsame ▸ hancestor)
        exact mem_append_right _ (mem_singleton_self last)

theorem Fresh.joinedIn_iff (h : Fresh events event) (heventId : eventId ∈ (historyOf events).map Prod.fst) :
    JoinedIn (events ++ [event]) eventId blockId ↔ JoinedIn events eventId blockId := by
  constructor
  · rintro ⟨join, hjoins, hancestor⟩
    rcases joins_concat.mp hjoins with hold | ⟨rfl, -⟩
    · exact ⟨join, hold, (h.ancestor_iff heventId).mp hancestor⟩
    · exact absurd hancestor (h.not_ancestor _)
  · rintro ⟨join, hjoins, hancestor⟩
    exact ⟨join, joins_concat.mpr (.inl hjoins), (h.ancestor_iff heventId).mpr hancestor⟩

end Pasts

namespace BlockMetas

variable {state next : BlockMetas} {events : List RichTextEvent} {eventId join : Text}
  {blockId other : BlockId} {effect : RichTextEffect}

theorem joins_inheritCauses {causes : List Text} :
    (metaOf (state.inheritCauses eventId blockId causes).blocks other).joins =
      (metaOf state.blocks other).joins := by
  induction causes generalizing state with
  | nil => rfl
  | cons cause causes ih =>
    refine ih.trans ?_
    dsimp only
    split
    · rfl
    · exact (addCause_same state blockId other cause).joins

theorem joins_createBlock {source : Option BlockId} {fields : CompleteBlockFields}
    (h : state.createBlock eventId blockId source fields = .ok next) :
    (metaOf next.blocks other).joins = (metaOf state.blocks other).joins := by
  have hcreated : (metaOf (state.update blockId fun record => assignFields state.causal eventId fields.patch
      { record with markerEventId := some eventId, sourceBlockId := source }).blocks other).joins =
      (metaOf state.blocks other).joins := by
    rw [metaOf_update]
    split
    · next hsame =>
        subst hsame
        rfl
    · rfl
  rw [createBlock] at h
  split at h
  · cases h
  · dsimp only at h
    split at h
    · cases h
      exact hcreated
    · split at h
      · cases h
      · cases h
        exact joins_inheritCauses.trans hcreated

theorem joins_applyEffect (h : state.applyEffect eventId effect = .ok next) :
    join ∈ (metaOf next.blocks other).joins ↔
      join ∈ (metaOf state.blocks other).joins ∨ eventId = join ∧ effect = .blockJoin other := by
  cases effect with
  | bootstrap | blockCreate =>
    rw [applyEffect] at h
    rw [joins_createBlock h]
    exact (or_iff_left (by rintro ⟨-, ⟨⟩⟩)).symm
  | blockSet blockId fields =>
    cases h
    rw [metaOf_update]
    split
    · next hsame =>
        subst hsame
        exact (or_iff_left (by rintro ⟨-, ⟨⟩⟩)).symm
    · exact (or_iff_left (by rintro ⟨-, ⟨⟩⟩)).symm
  | blockDelete blockId =>
    rw [applyEffect] at h
    split at h
    · cases h
    · cases h
      rw [(addCause_same _ blockId other eventId).joins, metaOf_update]
      split
      · next hsame =>
          subst hsame
          exact (or_iff_left (by rintro ⟨-, ⟨⟩⟩)).symm
      · exact (or_iff_left (by rintro ⟨-, ⟨⟩⟩)).symm
  | blockJoin blockId =>
    rw [applyEffect] at h
    split at h
    · cases h
    · cases h
      rw [metaOf_update]
      split
      · next hsame =>
          subst hsame
          rw [mem_append, mem_singleton]
          exact or_congr_right ⟨fun h => ⟨h.symm, rfl⟩, fun h => h.1.symm⟩
      · next hother =>
          refine (or_iff_left ?_).symm
          rintro ⟨-, heffect⟩
          cases heffect
          exact hother rfl
  | markSet | textInsert | textDelete =>
    cases h
    exact (or_iff_left (by rintro ⟨-, ⟨⟩⟩)).symm

theorem MetaRun.joins (h : MetaRun events state) :
    join ∈ (metaOf state.blocks other).joins ↔ Joins events join other := by
  induction h with
  | empty => exact ⟨nofun, fun ⟨_, hmem, _⟩ => absurd hmem not_mem_nil⟩
  | @integrate events event state next _ hresult ih =>
    obtain ⟨causal, -, hresult⟩ := StateMethod.except_bind_eq_ok.mp hresult
    rw [joins_applyEffect hresult, joins_concat]
    exact or_congr_left ih
  | @resolve events state _ blockId ih =>
    rw [← ih, resolveFields]
    dsimp only
    split
    · rfl
    · rw [metaOf_update]
      split
      · next hsame =>
          subst hsame
          rfl
      · rfl

end BlockMetas

namespace MarkState

variable {state next : MarkState} {events : List RichTextEvent} {event : RichTextEvent} {eventId : Text}
  {blockId : BlockId}

theorem visibleAt_iff (h : BlockMetas.MetaRun events state.metas) {marker : Text} {source : Option BlockId}
    (hcreated : Creates events marker blockId source) :
    state.visibleAt eventId blockId = true ↔ VisibleIn events eventId blockId := by
  have hfollows := h.follows
  have hmarker := (hfollows.describes.marker.mpr hcreated).1
  have hancestor : ∀ {first : Text}, state.metas.causal.isAncestor first eventId = true ↔
      (historyOf events).Ancestor first eventId := hfollows.causal.isAncestor_iff hfollows.ordered
  rw [visibleAt, Bool.and_eq_true, hmarker, Option.getD_some, hancestor, Bool.not_eq_true', any_eq_false,
    VisibleIn]
  refine and_congr ⟨fun h => ⟨marker, source, hcreated, h⟩, ?_⟩ (forall_congr' fun delete => ?_)
  · rintro ⟨other, given, hother, hbefore⟩
    exact (hfollows.describes.creates_unique hother hcreated).1 ▸ hbefore
  · rw [hfollows.describes.causes, hancestor]

theorem joinedAt_iff (h : BlockMetas.MetaRun events state.metas) :
    state.joinedAt eventId blockId = true ↔ JoinedIn events eventId blockId := by
  have hfollows := h.follows
  rw [joinedAt, any_eq_true, JoinedIn]
  refine exists_congr fun join => and_congr h.joins ?_
  exact hfollows.causal.isAncestor_iff hfollows.ordered

theorem mem_ownedBy_index {mark other : MarkRecord} {owners : List BlockId} {owner : BlockId} :
    other ∈ ownedBy { state with marksByOwner := owners.foldl (addOwned mark) state.marksByOwner } owner ↔
      other ∈ state.ownedBy owner ∨ other = mark ∧ owner ∈ owners := by
  induction owners generalizing state with
  | nil => exact (or_iff_left fun h => not_mem_nil h.2).symm
  | cons first owners ih =>
    refine (@ih { state with marksByOwner := addOwned mark state.marksByOwner first }).trans ?_
    rw [ownedBy, addOwned, InsertionMap.get?_set, mem_cons]
    split
    · next hsame =>
        subst hsame
        rw [Option.getD_some, mem_append, mem_singleton]
        simp only [ownedBy, true_or, and_true]
        tauto
    · next hother =>
        rw [or_iff_right hother]
        rfl

structure Owns (events : List RichTextEvent) (state : MarkState) : Prop where
  run : BlockMetas.MetaRun events state.metas
  nodup : state.segments.Nodup
  segments : ∀ blockId, blockId ∈ state.segments ↔ ∃ marker source, Creates events marker blockId source
  known : ∀ mark, mark ∈ state.unindexedMarks ∨ state.Indexed mark →
    mark.eventId ∈ (historyOf events).map Prod.fst
  waiting : state.unindexedMarks.Nodup
  fresh : ∀ mark ∈ state.unindexedMarks, ¬ state.Indexed mark
  owned : ∀ mark, state.Indexed mark → ∀ owner, mark ∈ state.ownedBy owner ↔ owner ∈ state.markOwners mark

theorem owns_empty : Owns [] empty where
  run := .empty
  nodup := nodup_nil
  segments blockId := ⟨fun h => absurd h not_mem_nil, fun ⟨_, _, _, h, _⟩ => absurd h not_mem_nil⟩
  known mark h := by
    rcases h with h | ⟨owner, h⟩
    · exact absurd h not_mem_nil
    · exact absurd h not_mem_nil
  waiting := nodup_nil
  fresh mark h := absurd h not_mem_nil
  owned mark h := h.elim fun owner h => absurd h not_mem_nil

theorem mem_ownedIn {joined : BlockId → Bool} {own : BlockId} {led : Bool} {blocks : List BlockId} :
    ∃ owner, owner ∈ ownedIn joined own led blocks := by
  induction blocks generalizing led with
  | nil => exact ⟨own, mem_singleton_self own⟩
  | cons blockId rest ih =>
    rw [ownedIn]
    split
    · split
      · exact ⟨own, mem_singleton_self own⟩
      · exact ⟨own, mem_cons_self⟩
    · exact ih

theorem Owns.index (h : Owns events state) : Owns events state.indexMark := by
  rw [indexMark]
  cases hmarks : state.unindexedMarks with
  | nil => exact h
  | cons mark rest =>
    have hmem {other : MarkRecord} {owner : BlockId} := @mem_ownedBy_index state mark other
      (state.markOwners mark) owner
    have hwaiting := h.waiting
    have hfresh := h.fresh
    have hknown := h.known
    rw [hmarks] at hwaiting hfresh hknown
    obtain ⟨hnot, hrest⟩ := nodup_cons.mp hwaiting
    have hindexed : ∀ other, (∃ owner, other ∈ ownedBy { state with
        marksByOwner := (state.markOwners mark).foldl (addOwned mark) state.marksByOwner } owner) ↔
        state.Indexed other ∨ other = mark := by
      intro other
      simp only [hmem, exists_or, exists_and_left]
      refine or_congr Iff.rfl (and_iff_left ?_)
      rw [markOwners, groupOf_eq]
      exact mem_ownedIn
    refine ⟨h.run, h.nodup, h.segments, fun other hother => ?_, hrest, fun other hother hnow => ?_,
      fun other hother owner => ?_⟩
    · rcases hother with hother | hother
      · exact hknown other (.inl (mem_cons_of_mem mark hother))
      · rcases (hindexed other).mp hother with hold | rfl
        · exact hknown other (.inr hold)
        · exact hknown other (.inl mem_cons_self)
    · rcases (hindexed other).mp hnow with hold | rfl
      · exact hfresh other (mem_cons_of_mem mark hother) hold
      · exact hnot hother
    · refine hmem.trans ?_
      rcases (hindexed other).mp hother with hold | rfl
      · rw [h.owned other hold owner]
        refine or_iff_left ?_
        rintro ⟨rfl, -⟩
        exact hfresh other mem_cons_self hold
      · rw [or_iff_right, and_iff_right rfl]
        · rfl
        · exact fun hmem => hfresh other mem_cons_self ⟨owner, hmem⟩

theorem markOwners_congr {last : MarkState} {mark : MarkRecord}
    (hjoined : last.joinedAt mark.eventId = state.joinedAt mark.eventId)
    (hvisible : last.segments.filter (last.visibleAt mark.eventId) =
      state.segments.filter (state.visibleAt mark.eventId)) :
    last.markOwners mark = state.markOwners mark := by
  rw [markOwners, markOwners, groupOf_eq, groupOf_eq, hjoined, hvisible]

theorem filter_insertIdx {visible : BlockId → Bool} {segments : List BlockId} (place : Nat)
    (h : visible blockId = false) : (segments.insertIdx place blockId).filter visible = segments.filter visible := by
  induction segments generalizing place with
  | nil =>
    cases place with
    | zero => exact filter_cons_of_neg (Bool.eq_false_iff.mp h)
    | succ place => rfl
  | cons first rest ih =>
    cases place with
    | zero => exact filter_cons_of_neg (Bool.eq_false_iff.mp h)
    | succ place =>
      rw [insertIdx_succ_cons, filter_cons, filter_cons, ih]

theorem Owns.resolve (h : Owns events state) (blockId : BlockId) :
    Owns events { state with metas := (state.metas.resolveFields blockId).2 } := by
  have hrun := h.run.resolve blockId
  refine { h with run := hrun, owned := fun mark hindexed owner => (h.owned mark hindexed owner).trans ?_ }
  rw [← @markOwners_congr state]
  · funext other
    rw [Bool.eq_iff_iff, joinedAt_iff hrun, joinedAt_iff h.run]
  · refine filter_congr fun other hother => ?_
    obtain ⟨marker, source, hcreated⟩ := (h.segments other).mp hother
    rw [Bool.eq_iff_iff, visibleAt_iff hrun hcreated, visibleAt_iff h.run hcreated]

theorem integrateEvent_ok {place : Nat} (h : state.integrateEvent place event = .ok next) :
    state.metas.integrateEvent event = .ok next.metas ∧ next.marksByOwner = state.marksByOwner ∧
      next.segments = (match event.effect.marker with
        | some (blockId, _) => state.segments.insertIdx place blockId
        | none => state.segments) ∧
      ∃ marks, next.unindexedMarks = state.unindexedMarks ++ marks ∧ marks.Nodup ∧
        ∀ mark ∈ marks, mark.eventId = event.id := by
  rw [integrateEvent] at h
  cases hmetas : state.metas.integrateEvent event with
  | error error => rw [hmetas] at h; cases h
  | ok metas =>
    rw [hmetas] at h
    cases h
    refine ⟨rfl, rfl, rfl, ?_⟩
    cases event.effect with
    | markSet blockId kind value first last =>
      exact ⟨[⟨event.id, blockId⟩], rfl, nodup_singleton _, forall_mem_singleton.mpr rfl⟩
    | _ => exact ⟨[], (append_nil _).symm, nodup_nil, nofun⟩

theorem fresh_of_integrate {metas last : BlockMetas} (h : BlockMetas.MetaRun events metas)
    (hresult : metas.integrateEvent event = .ok last) : Fresh events event := by
  rw [BlockMetas.integrateEvent] at hresult
  cases hadd : metas.causal.add event.id event.parentVersion with
  | error error => rw [hadd] at hresult; cases hresult
  | ok causal => exact (h.follows.arrives hadd).fresh

theorem Owns.integrate (h : Owns events state) (hharmless : state.Harmless events event) {place : Nat}
    (hplaced : place ≤ state.segments.length) (hresult : state.integrateEvent place event = .ok next) :
    Owns (events ++ [event]) next := by
  obtain ⟨hmetas, hmarks, hsegments, added, hwaiting, hadded, hids⟩ := integrateEvent_ok hresult
  have hfresh := fresh_of_integrate h.run hmetas
  have hrun := h.run.integrate hmetas
  have hunique {first second : Text} {blockId : BlockId} {given other : Option BlockId}
      (hfirst : Creates (events ++ [event]) first blockId given)
      (hsecond : Creates (events ++ [event]) second blockId other) : first = second :=
    (hrun.follows.describes.creates_unique hfirst hsecond).1
  have hnone {blockId : BlockId} {source : Option BlockId} (hmarker : event.effect.marker = some (blockId, source))
      (other : Text) (given : Option BlockId) : ¬ Creates events other blockId given := by
    intro hother
    have hsame := hunique (creates_concat.mpr (.inl hother)) (creates_concat.mpr (.inr ⟨rfl, hmarker⟩))
    subst hsame
    obtain ⟨earlier, hearlier, hid, -⟩ := hother
    exact hfresh.fresh (ids_historyOf ▸ hid ▸ mem_map_of_mem hearlier)
  have howned (owner : BlockId) : next.ownedBy owner = state.ownedBy owner := by
    rw [ownedBy, ownedBy, hmarks]
  have hindexed (mark : MarkRecord) : next.Indexed mark ↔ state.Indexed mark :=
    exists_congr fun owner => by rw [howned]
  have hnew : ∀ mark ∈ added, mark ∉ state.unindexedMarks ∧ ¬ state.Indexed mark := by
    intro mark hmark
    have hid := hids mark hmark
    refine ⟨fun hold => hfresh.fresh (hid ▸ h.known mark (.inl hold)), fun hold => ?_⟩
    exact hfresh.fresh (hid ▸ h.known mark (.inr hold))
  refine ⟨hrun, ?_, ?_, fun mark hmark => ?_, ?_, fun mark hmark => ?_, fun mark hmark owner => ?_⟩
  · rw [hsegments]
    split
    · next blockId source hmarker =>
        refine (perm_insertIdx blockId _ hplaced).nodup_iff.mpr (nodup_cons.mpr ⟨?_, h.nodup⟩)
        rw [h.segments]
        rintro ⟨other, given, hother⟩
        exact hnone hmarker other given hother
    · exact h.nodup
  · intro blockId
    simp only [creates_concat, exists_or, exists_and_left, exists_eq_left']
    rw [← h.segments, hsegments]
    split
    · next other source hmarker =>
        rw [(perm_insertIdx other _ hplaced).mem_iff, mem_cons, hmarker, or_comm]
        refine or_congr_right ⟨?_, ?_⟩
        · rintro rfl
          exact ⟨source, rfl⟩
        · rintro ⟨given, hgiven⟩
          cases hgiven
          rfl
    · next hmarker =>
        rw [hmarker]
        exact (or_iff_left nofun).symm
  · rw [hindexed, hwaiting, mem_append] at hmark
    rw [historyOf_concat, map_append, mem_append]
    rcases hmark with (hold | hmark) | hold
    · exact .inl (h.known mark (.inl hold))
    · exact .inr (mem_singleton.mpr (hids mark hmark))
    · exact .inl (h.known mark (.inr hold))
  · rw [hwaiting]
    exact nodup_append'.mpr ⟨h.waiting, hadded, fun mark hold hmark => (hnew mark hmark).1 hold⟩
  · rw [hindexed]
    rw [hwaiting] at hmark
    exact (mem_append.mp hmark).elim (h.fresh mark) fun hmark => (hnew mark hmark).2
  · rw [hindexed] at hmark
    have hknown := h.known mark (.inr hmark)
    rw [howned, h.owned mark hmark owner, @markOwners_congr state next]
    · funext blockId
      rw [Bool.eq_iff_iff, joinedAt_iff hrun, joinedAt_iff h.run, hfresh.joinedIn_iff hknown]
    · have hvisible (blockId : BlockId) (hmem : blockId ∈ state.segments) :
          next.visibleAt mark.eventId blockId = state.visibleAt mark.eventId blockId := by
        obtain ⟨marker, source, hcreated⟩ := (h.segments blockId).mp hmem
        rw [Bool.eq_iff_iff, visibleAt_iff hrun (creates_concat.mpr (.inl hcreated)),
          visibleAt_iff h.run hcreated, hfresh.visibleIn_iff hharmless hmark hknown hunique]
      rw [hsegments]
      split
      · next blockId source hmarker =>
          rw [filter_insertIdx place]
          · exact filter_congr hvisible
          · rw [Bool.eq_false_iff, Ne, visibleAt_iff hrun (creates_concat.mpr (.inr ⟨rfl, hmarker⟩)),
              hfresh.visibleIn_iff hharmless hmark hknown hunique]
            rintro ⟨⟨other, given, hother, -⟩, -⟩
            exact hnone hmarker other given hother
      · exact filter_congr hvisible

theorem MarkRun.owns (h : MarkRun Harmless events state) : Owns events state := by
  induction h with
  | empty => exact owns_empty
  | integrate place _ admitted placed result ih => exact ih.integrate admitted placed result
  | index _ ih => exact ih.index
  | resolve _ blockId ih => exact ih.resolve blockId

end MarkState

namespace Materializer

open MarkingSearch Relation

variable {events listed : List RichTextEvent} {event : RichTextEvent} {eventId join : Text} {blockId : BlockId}
  {collected next : Collected}

section Collection

def markerRecord (event : RichTextEvent) : Option MarkerEventRecord :=
  event.effect.marker.map fun marker => ⟨marker.1, event.id, marker.2⟩

structure Lists (collected : Collected) (done : List RichTextEvent) : Prop where
  markers : collected.markerEvents = done.filterMap markerRecord
  joins : ∀ blockId join, join ∈ (collected.joinEvents.get? blockId).getD [] ↔ Joins done join blockId

theorem Lists.collect {done : List RichTextEvent} (h : Lists collected done)
    (hresult : collect collected event = .ok next) : Lists next (done ++ [event]) := by
  have hquiet {last : Collected} (hmarkers : last.markerEvents = collected.markerEvents)
      (hjoins : last.joinEvents = collected.joinEvents) (hmarker : event.effect.marker = none)
      (hjoin : ∀ target, event.effect ≠ .blockJoin target) : Lists last (done ++ [event]) := by
    refine ⟨?_, fun blockId join => ?_⟩
    · rw [hmarkers, h.markers, filterMap_append, filterMap_cons_none, filterMap_nil,
        append_nil]
      rw [markerRecord, hmarker]
      rfl
    · rw [hjoins, h.joins, joins_concat, or_iff_left]
      exact fun hhere => hjoin blockId hhere.2
  have hcreated {blockId : BlockId} {source : Option BlockId} (hmarker : event.effect.marker = some (blockId, source))
      (hjoin : ∀ target, event.effect ≠ .blockJoin target)
      (hmarked : collectMarker collected event.id blockId source = .ok next) : Lists next (done ++ [event]) := by
    rw [collectMarker] at hmarked
    split at hmarked
    · cases hmarked
    · cases hmarked
      refine ⟨?_, fun blockId join => ?_⟩
      · rw [filterMap_append, ← h.markers, filterMap_cons_some (b := ⟨blockId, event.id, source⟩)]
        · rfl
        · rw [markerRecord, hmarker]
          rfl
      · rw [h.joins, joins_concat, or_iff_left]
        exact fun hhere => hjoin blockId hhere.2
  rw [Materializer.collect] at hresult
  cases heffect : event.effect with
  | bootstrap | blockCreate =>
    rw [heffect] at hresult
    exact hcreated (by rw [heffect]; rfl) (by rw [heffect]; rintro _ ⟨⟩) hresult
  | blockDelete blockId =>
    rw [heffect] at hresult
    dsimp only at hresult
    split at hresult
    · cases hresult
    · cases hresult
      exact hquiet rfl rfl (by rw [heffect]; rfl) (by rw [heffect]; rintro _ ⟨⟩)
  | blockJoin target =>
    rw [heffect] at hresult
    dsimp only at hresult
    split at hresult
    · cases hresult
    · cases hresult
      refine ⟨?_, fun blockId join => ?_⟩
      · rw [h.markers, filterMap_append, filterMap_cons_none, filterMap_nil, append_nil]
        rw [markerRecord, heffect]
        rfl
      · rw [joins_concat, heffect, ← h.joins, InsertionMap.get?_set]
        by_cases hsame : blockId = target
        · subst hsame
          rw [if_pos rfl, Option.getD_some, mem_append, mem_singleton]
          exact or_congr_right ⟨fun h => ⟨h.symm, rfl⟩, fun h => h.1.symm⟩
        · rw [if_neg hsame, or_iff_left]
          rintro ⟨-, hother⟩
          cases hother
          exact hsame rfl
  | blockSet | markSet | textInsert | textDelete =>
    rw [heffect] at hresult
    cases hresult
    exact hquiet rfl rfl (by rw [heffect]; rfl) (by rw [heffect]; rintro _ ⟨⟩)

theorem collectAll_lists (h : collectAll listed = .ok collected) : Lists collected listed := by
  have hfold : ∀ (rest done : List RichTextEvent) (start : Collected), Lists start done →
      rest.foldlM Materializer.collect start = .ok collected → Lists collected (done ++ rest) := by
    intro rest
    induction rest with
    | nil =>
      intro done start hlists hresult
      cases hresult
      rw [append_nil]
      exact hlists
    | cons event rest ih =>
      intro done start hlists hresult
      rw [foldlM_cons] at hresult
      obtain ⟨next, hnext, hresult⟩ := StateMethod.except_bind_eq_ok.mp hresult
      have hrest := ih (done ++ [event]) next (hlists.collect hnext) hresult
      rwa [append_assoc] at hrest
  refine hfold listed [] ⟨[], [], .empty, .empty⟩ ⟨rfl, fun blockId join => ⟨nofun, ?_⟩⟩ h
  rintro ⟨other, hother, -⟩
  exact absurd hother not_mem_nil

end Collection

theorem mem_collectAncestors (hnodup : (listed.map (·.id)).Nodup) {first second : Text} :
    first ∈ collectAncestors second (parentsOf listed) ↔ (historyOf listed).Ancestor first second := by
  have hlawful : Lawful (visitSearch (parentsOf listed)) (parentsOf listed).keys :=
    ⟨(lawful_ancestorSearch (parentsOf listed) []).marked_mark,
      (lawful_ancestorSearch (parentsOf listed) []).nodup, (lawful_ancestorSearch (parentsOf listed) []).leads⟩
  rw [collectAncestors]
  cases hrun : run (visitSearch (parentsOf listed)) _ [] (parentsAt (parentsOf listed) second).reverse with
  | none =>
    obtain ⟨node, -, hfinds⟩ := finds_of_run hrun
    have hnever : ∀ {node}, Finds (visitSearch (parentsOf listed)) node → False := by
      intro node hfinds
      induction hfinds with
      | here _ hfound => cases hfound
      | later _ _ _ ih => exact ih
    exact (hnever hfinds).elim
  | some visited =>
    obtain ⟨-, hstack, hsettled, hreaches⟩ := hlawful.run_some
      (Nat.add_le_add_left ((filter_sublist.map _).sum_le_sum fun _ _ => Nat.zero_le _) _) hrun
      (fun _ hkey => by cases hkey)
    have hmarked {key : Text} : Passed (visitSearch (parentsOf listed)) visited key → key ∈ visited := by
      rintro (hskip | ⟨-, hmarked⟩)
      · cases hskip
      · exact of_decide_eq_true hmarked
    rw [Option.getD_some, History.Ancestor, TransGen.tail'_iff]
    constructor
    · intro hmem
      rcases hreaches first (decide_eq_true hmem) with hnone | ⟨node, hnode, hreaches⟩
      · cases hnone
      · refine ⟨node, ?_, (mem_parentsAt hnodup).mp (mem_reverse.mp hnode)⟩
        clear hmem hnode
        induction hreaches with
        | here _ => exact .refl
        | later _ hstep _ ih => exact ih.tail ((mem_parentsAt hnodup).mp hstep)
    · rintro ⟨parent, hrest, hparent⟩
      have hlast := hmarked (hstack parent (mem_reverse.mpr ((mem_parentsAt hnodup).mpr hparent)))
      clear hparent
      induction hrest with
      | refl => exact hlast
      | tail _ hstep ih =>
        refine ih ?_
        rcases hsettled _ (decide_eq_true hlast) _ ((mem_parentsAt hnodup).mpr hstep) with hnone | hpassed
        · cases hnone
        · exact hmarked hpassed

section Orders

variable {position : Text → Nat}

theorem precedes_total (left right : MarkerEventRecord) :
    Precedes position left right ∨ Precedes position right left := by
  rcases Nat.lt_trichotomy (position left.eventId) (position right.eventId) with hlt | heq | hgt
  · exact .inl (.inl hlt)
  · rcases le_total left.eventId right.eventId with hle | hge
    · exact .inl (.inr ⟨heq, hle⟩)
    · exact .inr (.inr ⟨heq.symm, hge⟩)
  · exact .inr (.inl hgt)

theorem precedes_trans {first second third : MarkerEventRecord} (h : Precedes position first second)
    (hnext : Precedes position second third) : Precedes position first third := by
  rcases h with hlt | ⟨heq, hle⟩
  · rcases hnext with hnext | ⟨hnext, -⟩
    · exact .inl (Nat.lt_trans hlt hnext)
    · exact .inl (hnext ▸ hlt)
  · rcases hnext with hnext | ⟨hnext, hlast⟩
    · exact .inl (heq ▸ hnext)
    · exact .inr ⟨heq.trans hnext, le_trans hle hlast⟩

theorem insertionSort_eq {markers ordered : List MarkerEventRecord} (hperm : markers.Perm ordered)
    (hids : (ordered.map (·.eventId)).Nodup)
    (hordered : ordered.Pairwise fun left right => position left.eventId < position right.eventId) :
    markers.insertionSort (Precedes position) = ordered := by
  have htotal : Std.Total (Precedes position) := ⟨precedes_total⟩
  have htrans : IsTrans MarkerEventRecord (Precedes position) := ⟨fun _ _ _ => precedes_trans⟩
  have hsorted := perm_insertionSort (Precedes position) markers
  refine @List.Perm.eq_of_pairwise _ (Precedes position) _ _ (fun left right hleft hright hle hge => ?_)
    (pairwise_insertionSort (Precedes position) markers) (hordered.imp .inl) (hsorted.trans hperm)
  have heq : left.eventId = right.eventId := by
    rcases hle with hlt | ⟨heq, hle⟩
    · rcases hge with hgt | ⟨hsame, -⟩ <;> omega
    · rcases hge with hgt | ⟨-, hge⟩
      · omega
      · exact le_antisymm hle hge
  exact inj_on_of_nodup_map hids ((hsorted.trans hperm).mem_iff.mp hleft) hright heq

end Orders

theorem ownedIn_of_not_joined {joined : BlockId → Bool} {own : BlockId} {led : Bool} {blocks : List BlockId}
    (h : ∀ blockId, joined blockId = false) : ownedIn joined own led blocks = [own] := by
  induction blocks generalizing led with
  | nil => rfl
  | cons blockId rest ih =>
    rw [ownedIn, h, Bool.false_and, if_neg Bool.false_ne_true, ih]
    split
    · cases rest with
      | nil => rfl
      | cons first rest => rw [takeWhile_cons, h]; rfl
    · rfl

variable {state : MarkState} {mark : MarkRecord} {position : Text → Nat}

def recordOf (metas : BlockMetas) (blockId : BlockId) : MarkerEventRecord :=
  let record := BlockMetas.metaOf metas.blocks blockId
  ⟨blockId, record.markerEventId.getD [], record.sourceBlockId⟩

/-- The markers stand in the text as the segments do. -/
def Positioned (position : Text → Nat) (state : MarkState) : Prop :=
  (state.segments.map (recordOf state.metas)).Pairwise fun left right =>
    position left.eventId < position right.eventId

theorem markers_sorted (h : MarkState.Owns events state) (hlisted : listed.Perm events)
    (hgathers : Gathers collected listed) (hlists : Lists collected listed)
    (hposition : Positioned position state) :
    collected.markerEvents.insertionSort (Precedes position) = state.segments.map (recordOf state.metas) := by
  have hdescribes := h.run.follows.describes
  have hids : ((state.segments.map (recordOf state.metas)).map (·.eventId)).Nodup :=
    pairwise_map.mpr (hposition.imp fun hlt heq => Nat.ne_of_lt hlt (congrArg position heq))
  refine insertionSort_eq ((perm_ext_iff_of_nodup ?_ (List.Nodup.of_map _ hids)).mpr fun record => ?_)
    hids hposition
  · rw [hlists.markers]
    have hnodup := ids_perm hlisted h.run.follows.ordered
    refine List.Pairwise.filterMap markerRecord ?_ (pairwise_map.mp hnodup)
    intro left right hne first hfirst second hsecond heq
    refine hne ?_
    obtain ⟨_, _, rfl⟩ := Option.map_eq_some_iff.mp hfirst
    obtain ⟨_, _, rfl⟩ := Option.map_eq_some_iff.mp hsecond
    exact congrArg MarkerEventRecord.eventId heq
  · rw [hgathers.markers, creates_perm hlisted, ← hdescribes.marker, mem_map]
    constructor
    · intro hrecord
      refine ⟨record.blockId, (h.segments _).mpr ⟨_, _, hdescribes.marker.mp hrecord⟩, ?_⟩
      rw [recordOf, hrecord.1, hrecord.2]
      rfl
    · rintro ⟨blockId, hmem, rfl⟩
      obtain ⟨marker, source, hcreates⟩ := (h.segments blockId).mp hmem
      refine ⟨?_, rfl⟩
      show _ = some (Option.getD _ _)
      rw [recordOf, (hdescribes.marker.mpr hcreates).1]
      rfl

theorem markOwnership_eq (h : MarkState.Owns events state) (hlisted : listed.Perm events)
    (hposition : Positioned position state) :
    markOwnership listed position mark = .ok (state.markOwners mark) := by
  have hfollows := h.run.follows
  have hnodup := ids_perm hlisted hfollows.ordered
  obtain ⟨collected, hcollected, hgathers⟩ := collectAll_spec hnodup
    (fun event hevent => h.run.accepted event (hlisted.mem_iff.mp hevent)) (fun hfirst hsecond =>
      (hfollows.describes.creates_unique ((creates_perm hlisted).mp hfirst)
        ((creates_perm hlisted).mp hsecond)).1)
  have hlists := collectAll_lists hcollected
  obtain ⟨hcauses, -⟩ := propagate_spec hnodup hgathers
  have hancestor (first : Text) : first ∈ collectAncestors mark.eventId (parentsOf listed) ↔
      (historyOf events).Ancestor first mark.eventId := by
    rw [mem_collectAncestors hnodup, ancestor_perm hlisted]
  have hjoined (blockId : BlockId) : (((collected.joinEvents.get? blockId).getD []).any fun join =>
      decide (join ∈ collectAncestors mark.eventId (parentsOf listed))) =
        state.joinedAt mark.eventId blockId := by
    rw [Bool.eq_iff_iff, MarkState.joinedAt_iff h.run, any_eq_true]
    refine exists_congr fun join => and_congr ?_ (decide_eq_true_iff.trans (hancestor join))
    rw [hlists.joins]
    exact exists_congr fun _ => and_congr_left fun _ => hlisted.mem_iff
  rw [markOwnership, hcollected]
  refine congrArg Except.ok ?_
  rw [MarkState.markOwners, groupOf_eq]
  split
  · next hnone =>
      refine (ownedIn_of_not_joined fun blockId => ?_).symm
      rw [← hjoined]
      cases hget : collected.joinEvents.get? blockId with
      | none => rfl
      | some joins =>
        have hmem := InsertionMap.mem_entries.mpr hget
        rw [isEmpty_iff.mp hnone] at hmem
        exact absurd hmem not_mem_nil
  · rw [resolveMarkOwnership, markers_sorted h hlisted hgathers hlists hposition, foldl_map]
    have hwalk : state.segments.foldl (fun walk blockId => ownershipStep mark.blockId
        (collectAncestors mark.eventId (parentsOf listed)) (propagate (parentsOf listed) collected.markerEvents
          (collected.markerEvents.length * listed.length + 1) collected.removalCauses) collected.joinEvents walk
        (recordOf state.metas blockId)) (none, []) =
        (state.segments.filter (state.visibleAt mark.eventId)).foldl
          (visibleStep (state.joinedAt mark.eventId) mark.blockId) (none, []) := by
      rw [foldl_filter]
      refine foldl_ext _ _ _ fun walk blockId hmem => ?_
      obtain ⟨marker, source, hcreates⟩ := (h.segments blockId).mp hmem
      have hobserved : (recordOf state.metas blockId).eventId ∈ collectAncestors mark.eventId (parentsOf listed) ↔
          ∃ marker source, Creates events marker blockId source ∧
            (historyOf events).Ancestor marker mark.eventId := by
        rw [hancestor, recordOf, (hfollows.describes.marker.mpr hcreates).1]
        refine ⟨fun hbefore => ⟨marker, source, hcreates, hbefore⟩, ?_⟩
        rintro ⟨other, given, hother, hbefore⟩
        exact (hfollows.describes.creates_unique hother hcreates).1 ▸ hbefore
      have hremoved : (((propagate (parentsOf listed) collected.markerEvents
            (collected.markerEvents.length * listed.length + 1) collected.removalCauses).get?
              blockId).getD []).any (fun cause =>
            decide (cause ∈ collectAncestors mark.eventId (parentsOf listed))) = true ↔
          ∃ delete, RemovedBy events delete blockId ∧ (historyOf events).Ancestor delete mark.eventId := by
        rw [any_eq_true]
        refine exists_congr fun delete => and_congr ((hcauses blockId delete).trans ?_)
          (decide_eq_true_iff.trans (hancestor delete))
        exact ⟨removedBy_of_perm hlisted, removedBy_of_perm hlisted.symm⟩
      have hvisible := @MarkState.visibleAt_iff state events mark.eventId blockId h.run marker source hcreates
      rw [VisibleIn, ← hobserved] at hvisible
      rw [ownershipStep]
      split
      · next hunseen => rw [if_neg fun h => hunseen (hvisible.mp h).1]
      · next hseen =>
          split
          · next hhidden =>
              obtain ⟨delete, hdelete, hbefore⟩ := hremoved.mp hhidden
              rw [if_neg fun h => (hvisible.mp h).2 delete hdelete hbefore]
          · next hshown =>
              rw [if_pos (hvisible.mpr ⟨not_not.mp hseen, fun delete hdelete hbefore =>
                hshown (hremoved.mpr ⟨delete, hdelete, hbefore⟩)⟩), visibleStep, ← hjoined]
              rfl
    rw [hwalk]
    exact visibleWalk_eq (h.nodup.filter _) (by rintro ⟨⟩)

end Materializer

namespace MarkState

variable {events listed : List RichTextEvent} {state : MarkState} {mark : MarkRecord} {position : Text → Nat}

def numbered (id : Nat) (parents : List Nat) (index : Nat) (effect : RichTextEffect) : RichTextEvent :=
  { id := [Utf8.unit id], parentVersion := parents.map fun parent => [Utf8.unit parent], timestamp := 0
    operation := .insert index (if effect.marker.isSome then BLOCK_MARKER else METADATA_MARKER), effect }

/-- A mark on a block that names a source nobody has created yet, and a delete it has seen. -/
def markedEvents : List RichTextEvent :=
  [numbered 0 [] 0 (.bootstrap BOOTSTRAP_BLOCK_ID DEFAULT_BLOCK_FIELDS),
    numbered 1 [0] 1 (.blockCreate (text "top") (some BOOTSTRAP_BLOCK_ID) DEFAULT_BLOCK_FIELDS),
    numbered 2 [1] 2 (.blockDelete (text "top")),
    numbered 3 [1] 2 (.blockCreate (text "child") (some (text "source")) DEFAULT_BLOCK_FIELDS),
    numbered 4 [3] 3 (.blockCreate (text "last") (some BOOTSTRAP_BLOCK_ID) DEFAULT_BLOCK_FIELDS),
    numbered 5 [4] 4 (.blockJoin (text "last")),
    numbered 6 [2, 5] 6 (.markSet (text "child") .bold (some .on) .startBoundary .endBoundary)]

def lateSource : RichTextEvent :=
  numbered 7 [1] 2 (.blockCreate (text "source") (some (text "top")) DEFAULT_BLOCK_FIELDS)

def joinedMark : MarkRecord := ⟨[Utf8.unit 6], text "child"⟩

/-- The markers of these events stand in the order of their IDs. -/
def numberOf (eventId : Text) : Nat := (eventId.map (·.val)).sum

theorem markRun_marked {admits : List RichTextEvent → MarkState → RichTextEvent → Prop}
    (h : ∀ events state event, (∀ owner, state.ownedBy owner = []) → admits events state event) :
    ∃ state next, MarkRun admits markedEvents state ∧ joinedMark ∈ state.indexMark.ownedBy (text "last") ∧
      Materializer.Positioned numberOf state.indexMark ∧
      state.indexMark.integrateEvent 4 lateSource = .ok next ∧ 4 ≤ state.indexMark.segments.length ∧
      joinedMark ∈ next.ownedBy (text "last") ∧ Materializer.Positioned numberOf next :=
  ⟨_, _, .integrate 0 (.integrate 0 (.integrate 3 (.integrate 2 (.integrate 0 (.integrate 1 (.integrate 0 .empty
    (h _ _ _ fun _ => rfl) (by decide) rfl) (h _ _ _ fun _ => rfl) (by decide) rfl)
    (h _ _ _ fun _ => rfl) (by decide) rfl) (h _ _ _ fun _ => rfl) (by decide) rfl)
    (h _ _ _ fun _ => rfl) (by decide) rfl) (h _ _ _ fun _ => rfl) (by decide) rfl)
    (h _ _ _ fun _ => rfl) (by decide) rfl, by decide, by unfold Materializer.Positioned; decide, rfl,
    by decide, by decide, by unfold Materializer.Positioned; decide⟩

end MarkState

end Softmaple.BlockModel
