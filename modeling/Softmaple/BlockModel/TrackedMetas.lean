import Softmaple.BlockModel.BlockEffects

/-!
A removal cause is pushed to a block and to all blocks split from it unseen. It changes nothing else.
-/
namespace Softmaple.BlockModel

open MarkingSearch List

namespace BlockMetas

variable {state : BlockMetas} {blocks : InsertionMap BlockId BlockMeta} {blockId other : BlockId}
  {cause : Text}

theorem metaOf_set {record : BlockMeta} : metaOf (blocks.set blockId record) other =
    if other = blockId then record else metaOf blocks other := by
  rw [metaOf, InsertionMap.get?_set]
  split
  · rfl
  · rfl

theorem metaOf_update {change : BlockMeta → BlockMeta} :
    metaOf (state.update blockId change).blocks other =
      if other = blockId then change (metaOf state.blocks blockId) else metaOf state.blocks other :=
  metaOf_set

/-- Records that differ in their removal causes and joins at most. -/
structure SameFields (first last : BlockMeta) : Prop where
  marker : last.markerEventId = first.markerEventId
  source : last.sourceBlockId = first.sourceBlockId
  fields : last.fields = first.fields
  resolved : last.resolved = first.resolved

/-- Records that differ in their removal causes at most. -/
structure SameRest (first last : BlockMeta) : Prop extends SameFields first last where
  joins : last.joins = first.joins

theorem SameRest.refl (record : BlockMeta) : SameRest record record := ⟨⟨rfl, rfl, rfl, rfl⟩, rfl⟩

theorem SameRest.trans {first second third : BlockMeta} (h : SameRest first second)
    (hnext : SameRest second third) : SameRest first third where
  marker := hnext.marker.trans h.marker
  source := hnext.source.trans h.source
  fields := hnext.fields.trans h.fields
  resolved := hnext.resolved.trans h.resolved
  joins := hnext.joins.trans h.joins

structure SameBut (cause : Text) (first last : BlockMeta) : Prop extends SameRest first last where
  others : ∀ removal, removal ≠ cause → (removal ∈ last.causes ↔ removal ∈ first.causes)

theorem SameBut.refl (record : BlockMeta) : SameBut cause record record :=
  ⟨.refl record, fun _ _ => Iff.rfl⟩

theorem SameBut.trans {first second third : BlockMeta} (h : SameBut cause first second)
    (hnext : SameBut cause second third) : SameBut cause first third :=
  ⟨h.toSameRest.trans hnext.toSameRest,
    fun removal hremoval => (hnext.others removal hremoval).trans (h.others removal hremoval)⟩

theorem metaOf_mark (key : BlockId) :
    SameBut cause (metaOf blocks other) (metaOf ((state.causeSearch cause).mark blocks key) other) := by
  show SameBut cause _ (metaOf (blocks.set key _) other)
  rw [metaOf_set]
  split
  · next hsame =>
      subst hsame
      refine ⟨⟨⟨rfl, rfl, rfl, rfl⟩, rfl⟩, fun removal hremoval => ?_⟩
      rw [mem_append, mem_singleton, or_iff_left hremoval]
  · exact .refl _

theorem lawful_causeSearch (state : BlockMetas) (cause : Text) :
    Lawful (state.causeSearch cause) state.children.keys where
  marked_mark blocks key other := by
    show decide (cause ∈ (metaOf (blocks.set key _) other).causes) = _
    rw [metaOf_set]
    by_cases hsame : other = key
    · rw [if_pos hsame, decide_eq_true hsame, Bool.true_or]
      exact decide_eq_true (mem_append_right _ (mem_singleton_self cause))
    · rw [if_neg hsame, decide_eq_false hsame, Bool.false_or]
      rfl
  nodup := state.children.nodup
  leads key hleads := by
    rw [InsertionMap.mem_keys]
    by_contra hnone
    rw [Bool.not_eq_true, InsertionMap.has_eq_false] at hnone
    refine hleads ?_
    show (state.childrenOf key).filter _ = []
    rw [childrenOf, hnone]
    rfl

theorem work_causeSearch (state : BlockMetas) (cause : Text) (stack : List BlockId) :
    work (state.causeSearch cause) state.children.keys blocks stack ≤
      stack.length + (state.children.keys.map fun source => (state.childrenOf source).length).sum := by
  refine Nat.add_le_add_left ?_ _
  refine Nat.le_trans ((filter_sublist.map _).sum_le_sum fun _ _ => Nat.zero_le _) ?_
  exact sum_le_sum fun source _ => length_filter_le _ _

/-- The search finds nothing, so it ends with all it can get to marked. -/
theorem run_causeSearch (state : BlockMetas) (blockId : BlockId) (cause : Text) :
    run (state.causeSearch cause)
      (1 + (state.children.keys.map fun source => (state.childrenOf source).length).sum) state.blocks
        [blockId] = some (state.addCause blockId cause).blocks := by
  rw [addCause]
  dsimp only
  cases hrun : run (state.causeSearch cause)
      (1 + (state.children.keys.map fun source => (state.childrenOf source).length).sum) state.blocks
      [blockId] with
  | some last => rfl
  | none =>
    obtain ⟨node, -, hfinds⟩ := finds_of_run hrun
    have hnever : ∀ {node}, Finds (state.causeSearch cause) node → False := by
      intro node hfinds
      induction hfinds with
      | here _ hfound => cases hfound
      | later _ _ _ ih => exact ih
    exact (hnever hfinds).elim

theorem addCause_same (state : BlockMetas) (blockId other : BlockId) (cause : Text) :
    SameBut cause (metaOf state.blocks other) (metaOf (state.addCause blockId cause).blocks other) :=
  run_keeps (motive := fun blocks => SameBut cause (metaOf state.blocks other) (metaOf blocks other))
    (run_causeSearch state blockId cause) (fun _ key h => h.trans (metaOf_mark key)) (.refl _)

def Unseen (state : BlockMetas) (cause : Text) (source child : BlockId) : Prop :=
  child ∈ state.childrenOf source ∧
    state.causal.isAncestor ((metaOf state.blocks child).markerEventId.getD []) cause = false

theorem mem_next {source child : BlockId} :
    child ∈ (state.causeSearch cause).next source ↔ Unseen state cause source child := by
  show child ∈ (state.childrenOf source).filter _ ↔ _
  rw [mem_filter, Bool.not_eq_true']
  rfl

def Inherits (state : BlockMetas) (cause : Text) : BlockId → BlockId → Prop :=
  Relation.ReflTransGen (Unseen state cause)

theorem inherits_of_reaches {key : BlockId} (h : Reaches (state.causeSearch cause) blockId key) :
    Inherits state cause blockId key := by
  induction h with
  | here => exact .refl
  | later _ step _ ih => exact .head (mem_next.mp step) ih

theorem mem_causes_addCause (hclosed : ∀ source child, cause ∈ (metaOf state.blocks source).causes →
    Unseen state cause source child → child = blockId ∨ cause ∈ (metaOf state.blocks child).causes) :
    cause ∈ (metaOf (state.addCause blockId cause).blocks other).causes ↔
      cause ∈ (metaOf state.blocks other).causes ∨ Inherits state cause blockId other := by
  have hsettled : Settled (state.causeSearch cause) state.blocks [blockId] := by
    intro source hsource child hchild
    rcases hclosed source child (of_decide_eq_true hsource) (mem_next.mp hchild) with rfl | hmarked
    · exact .inl (mem_singleton_self _)
    · exact .inr (.inr ⟨rfl, decide_eq_true hmarked⟩)
  obtain ⟨hmono, hall, hdone, hreach⟩ := (lawful_causeSearch state cause).run_some
    (work_causeSearch state cause [blockId]) (run_causeSearch state blockId cause) hsettled
  constructor
  · intro hmem
    rcases hreach other (decide_eq_true hmem) with hbefore | ⟨node, hnode, hreaches⟩
    · exact .inl (of_decide_eq_true hbefore)
    · obtain rfl := mem_singleton.mp hnode
      exact .inr (inherits_of_reaches hreaches)
  · have hmarked : ∀ {block}, Passed (state.causeSearch cause) (state.addCause blockId cause).blocks block →
        cause ∈ (metaOf (state.addCause blockId cause).blocks block).causes :=
      fun hpassed => of_decide_eq_true (hpassed.resolve_left Bool.false_ne_true).2
    rintro (hbefore | hinherits)
    · exact of_decide_eq_true (hmono other (decide_eq_true hbefore))
    · induction hinherits with
      | refl => exact hmarked (hall blockId (mem_singleton_self _))
      | tail _ hunseen ih =>
        exact hmarked ((hdone _ (decide_eq_true ih) _ (mem_next.mpr hunseen)).resolve_left
          not_mem_nil)

theorem unseen_addCause {removal : Text} {source child : BlockId} :
    Unseen (state.addCause blockId cause) removal source child ↔ Unseen state removal source child := by
  rw [Unseen, Unseen, (addCause_same state blockId child cause).marker]
  rfl

theorem inheritCauses_spec {eventId : Text} {causes : List Text}
    (hnew : ∀ cause, state.causal.isAncestor eventId cause = false)
    (hclosed : ∀ cause source child, cause ∈ (metaOf state.blocks source).causes →
      Unseen state cause source child → child = blockId ∨ cause ∈ (metaOf state.blocks child).causes) :
    (state.inheritCauses eventId blockId causes).causal = state.causal ∧
      (state.inheritCauses eventId blockId causes).children = state.children ∧
      ∀ other, SameRest (metaOf state.blocks other)
          (metaOf (state.inheritCauses eventId blockId causes).blocks other) ∧
        ∀ removal, removal ∈ (metaOf (state.inheritCauses eventId blockId causes).blocks other).causes ↔
          removal ∈ (metaOf state.blocks other).causes ∨
            removal ∈ causes ∧ Inherits state removal blockId other := by
  induction causes generalizing state with
  | nil =>
    refine ⟨rfl, rfl, fun other => ⟨.refl _, fun removal => ?_⟩⟩
    rw [inheritCauses, foldl_nil]
    simp
  | cons cause causes ih =>
    have hstep : state.inheritCauses eventId blockId (cause :: causes) =
        (state.addCause blockId cause).inheritCauses eventId blockId causes := by
      rw [inheritCauses, foldl_cons, hnew, if_neg Bool.false_ne_true]
      rfl
    have hadded : ∀ removal other, removal ∈ (metaOf (state.addCause blockId cause).blocks other).causes ↔
        removal ∈ (metaOf state.blocks other).causes ∨ removal = cause ∧ Inherits state removal blockId other := by
      intro removal other
      by_cases hsame : removal = cause
      · subst hsame
        rw [mem_causes_addCause (hclosed removal), and_iff_right rfl]
      · rw [(addCause_same state blockId other cause).others removal hsame]
        exact (or_iff_left fun h => hsame h.1).symm
    have hinherits : ∀ removal other, Inherits (state.addCause blockId cause) removal blockId other ↔
        Inherits state removal blockId other := by
      intro removal other
      rw [Inherits, Inherits, show Unseen (state.addCause blockId cause) removal = Unseen state removal from
        funext fun source => funext fun child => propext unseen_addCause]
    have hnext := @ih (state.addCause blockId cause) hnew ?_
    · rw [hstep]
      refine ⟨hnext.1, hnext.2.1, fun other => ⟨?_, fun removal => ?_⟩⟩
      · exact (addCause_same state blockId other cause).toSameRest.trans (hnext.2.2 other).1
      · rw [(hnext.2.2 other).2 removal, hadded, hinherits, mem_cons, or_and_right, or_assoc]
    · intro removal source child hremoval hunseen
      rw [unseen_addCause] at hunseen
      rw [hadded] at hremoval ⊢
      rcases hremoval with hbefore | ⟨hsame, hinherits⟩
      · exact (hclosed removal source child hbefore hunseen).imp_right Or.inl
      · exact .inr (.inr ⟨hsame, hinherits.tail hunseen⟩)

end BlockMetas
end Softmaple.BlockModel

namespace Softmaple.BlockModel

open List

variable {events : List RichTextEvent} {event : RichTextEvent} {eventId : Text} {blockId : BlockId}

section Growth

theorem historyOf_concat : historyOf (events ++ [event]) =
    historyOf events ++ [(event.id, event.parentVersion)] := map_append

theorem ids_historyOf : (historyOf events).map Prod.fst = events.map (·.id) := by
  rw [historyOf, map_map]
  rfl

theorem exists_concat {motive : RichTextEvent → Prop} :
    (∃ other ∈ events ++ [event], motive other) ↔ (∃ other ∈ events, motive other) ∨ motive event := by
  simp only [mem_append, mem_singleton, or_and_right, exists_or, exists_eq_left]

theorem assigns_concat {field : FieldName} {value : field.Value} :
    Assigns (events ++ [event]) blockId field eventId value ↔ Assigns events blockId field eventId value ∨
      event.id = eventId ∧ ∃ patch, event.effect.patch = some (blockId, patch) ∧
        patch.get field = some value := exists_concat

theorem creates_concat {source : Option BlockId} :
    Creates (events ++ [event]) eventId blockId source ↔ Creates events eventId blockId source ∨
      event.id = eventId ∧ event.effect.marker = some (blockId, source) := exists_concat

theorem deletes_concat : Deletes (events ++ [event]) eventId blockId ↔ Deletes events eventId blockId ∨
    event.id = eventId ∧ event.effect = .blockDelete blockId := exists_concat

theorem Deletes.mem_ids (h : Deletes events eventId blockId) :
    eventId ∈ (historyOf events).map Prod.fst := by
  obtain ⟨other, hmem, rfl, -⟩ := h
  rw [ids_historyOf]
  exact mem_map_of_mem hmem

theorem Assigns.mem_ids {field : FieldName} {value : field.Value}
    (h : Assigns events blockId field eventId value) : eventId ∈ (historyOf events).map Prod.fst := by
  obtain ⟨other, hmem, rfl, -⟩ := h
  rw [ids_historyOf]
  exact mem_map_of_mem hmem

theorem RemovedBy.mem_ids (h : RemovedBy events eventId blockId) :
    eventId ∈ (historyOf events).map Prod.fst := by
  obtain ⟨_, _, hdeletes, -⟩ := h
  exact hdeletes.mem_ids

structure Fresh (events : List RichTextEvent) (event : RichTextEvent) : Prop where
  causal : (historyOf events).Causal
  fresh : event.id ∉ (historyOf events).map Prod.fst
  parents : ∀ parent ∈ event.parentVersion, parent ∈ (historyOf events).map Prod.fst

namespace Fresh

section

variable (h : Fresh events event)
include h

theorem next : (historyOf (events ++ [event])).Causal := by
  rw [historyOf_concat]
  exact h.causal.concat h.fresh h.parents

theorem ancestor_iff {first second : Text} (hsecond : second ∈ (historyOf events).map Prod.fst) :
    (historyOf (events ++ [event])).Ancestor first second ↔ (historyOf events).Ancestor first second := by
  rw [historyOf_concat]
  refine h.causal.ancestor_concat h.fresh ?_
  rintro rfl
  exact h.fresh hsecond

theorem not_ancestor (other : Text) :
    ¬ (historyOf (events ++ [event])).Ancestor event.id other := by
  rw [historyOf_concat]
  exact h.causal.not_ancestor_new h.fresh h.parents

/-- Removals stay. -/
theorem removedBy (hremoved : RemovedBy events eventId blockId) :
    RemovedBy (events ++ [event]) eventId blockId := by
  have hid := hremoved.mem_ids
  refine hremoved.induction (fun target hdeletes => ?_) fun source child marker hcreates hunseen ih => ?_
  · exact removedBy_iff.mpr (.inl (deletes_concat.mpr (.inl hdeletes)))
  · refine removedBy_iff.mpr (.inr ⟨source, marker, creates_concat.mpr (.inl hcreates), ih, ?_⟩)
    rwa [h.ancestor_iff hid]

theorem maximal_other {field : FieldName} {value : field.Value}
    (hother : ∀ patch given, event.effect.patch = some (blockId, patch) → patch.get field ≠ some given) :
    MaximalAssignment (events ++ [event]) blockId field eventId value ↔
      MaximalAssignment events blockId field eventId value := by
  have hassigns : ∀ {other given}, Assigns (events ++ [event]) blockId field other given ↔
      Assigns events blockId field other given := by
    intro other given
    rw [assigns_concat, or_iff_left_iff_imp]
    rintro ⟨_, patch, hpatch, hvalue⟩
    exact absurd hvalue (hother patch given hpatch)
  rw [MaximalAssignment, MaximalAssignment, hassigns]
  refine and_congr_right fun _ => forall_congr' fun other => forall_congr' fun given => ?_
  rw [hassigns]
  refine imp_congr_right fun hold => not_congr (h.ancestor_iff hold.mem_ids)

theorem maximal_assigned {field : FieldName} {value given : field.Value}
    {patch : BlockFieldPatch} (hpatch : event.effect.patch = some (blockId, patch))
    (hgiven : patch.get field = some given) :
    MaximalAssignment (events ++ [event]) blockId field eventId value ↔
      MaximalAssignment events blockId field eventId value ∧
        ¬ (historyOf (events ++ [event])).Ancestor eventId event.id ∨
      eventId = event.id ∧ value = given := by
  have hnew : Assigns (events ++ [event]) blockId field event.id given :=
    assigns_concat.mpr (.inr ⟨rfl, patch, hpatch, hgiven⟩)
  constructor
  · intro ⟨hassigns, hmaximal⟩
    rcases assigns_concat.mp hassigns with hold | ⟨rfl, other, hother, hvalue⟩
    · refine .inl ⟨⟨hold, fun other value hassigned => ?_⟩, hmaximal event.id given hnew⟩
      rw [← h.ancestor_iff hassigned.mem_ids]
      exact hmaximal other value (assigns_concat.mpr (.inl hassigned))
    · obtain ⟨-, rfl⟩ := Prod.mk.inj (Option.some.inj (hpatch.symm.trans hother))
      exact .inr ⟨rfl, Option.some.inj (hvalue.symm.trans hgiven)⟩
  · rintro (⟨⟨hold, hmaximal⟩, hunseen⟩ | ⟨rfl, rfl⟩)
    · refine ⟨assigns_concat.mpr (.inl hold), fun other value hassigned => ?_⟩
      rcases assigns_concat.mp hassigned with hother | ⟨rfl, -⟩
      · rw [h.ancestor_iff hother.mem_ids]
        exact hmaximal other value hother
      · exact hunseen
    · exact ⟨hnew, fun other _ _ => h.not_ancestor other⟩

end

end Fresh

end Growth

namespace BlockMetas

structure Describes (state : BlockMetas) (events : List RichTextEvent) : Prop where
  marker : ∀ {blockId eventId source},
    ((metaOf state.blocks blockId).markerEventId = some eventId ∧
      (metaOf state.blocks blockId).sourceBlockId = source) ↔ Creates events eventId blockId source
  children : ∀ {source child}, child ∈ state.childrenOf source ↔
    ∃ eventId, Creates events eventId child (some source)
  fields : ∀ {blockId field candidate}, candidate ∈ (metaOf state.blocks blockId).fields field ↔
    MaximalAssignment events blockId field candidate.eventId candidate.value
  causes : ∀ {blockId delete}, delete ∈ (metaOf state.blocks blockId).causes ↔
    RemovedBy events delete blockId
  resolved : ∀ {blockId fields}, (metaOf state.blocks blockId).resolved = some fields →
    fields = CompleteBlockFields.ofWinners (winner (metaOf state.blocks blockId))

structure Arrives (state : BlockMetas) (events : List RichTextEvent) (event : RichTextEvent) : Prop where
  fresh : Fresh events event
  causal : state.causal.Represents (historyOf (events ++ [event]))
  describes : Describes state events

variable {state next : BlockMetas} {source child : BlockId} {delete : Text}

namespace Describes

theorem creates_unique (h : Describes state events) {first second : Text} {given other : Option BlockId}
    (hfirst : Creates events first blockId given) (hsecond : Creates events second blockId other) :
    first = second ∧ given = other := by
  have hone := h.marker.mpr hfirst
  have htwo := h.marker.mpr hsecond
  exact ⟨Option.some.inj (hone.1.symm.trans htwo.1), hone.2.symm.trans htwo.2⟩

theorem closed (h : Describes state events) {marker : Text}
    (hdelete : delete ∈ (metaOf state.blocks source).causes)
    (hcreates : Creates events marker child (some source))
    (hunseen : ¬ (historyOf events).Ancestor marker delete) :
    delete ∈ (metaOf state.blocks child).causes :=
  h.causes.mpr (removedBy_iff.mpr (.inr ⟨source, marker, hcreates, h.causes.mp hdelete, hunseen⟩))

end Describes

theorem winner_congr {first last : BlockMeta} (h : last.fields = first.fields) :
    winner last = winner first := by
  funext field
  rw [winner, winner, h]

namespace Arrives

section

variable (h : Arrives state events event)
include h

theorem isAncestor_iff {first second : Text} : state.causal.isAncestor first second = true ↔
      (historyOf (events ++ [event])).Ancestor first second :=
  h.causal.isAncestor_iff h.fresh.next

theorem isAncestor_event (other : Text) : state.causal.isAncestor event.id other = false := by
  rw [Bool.eq_false_iff, Ne, h.isAncestor_iff]
  exact h.fresh.not_ancestor other

theorem unseen_iff : Unseen state delete source child ↔
    ∃ marker, Creates events marker child (some source) ∧
      ¬ (historyOf (events ++ [event])).Ancestor marker delete := by
  rw [Unseen, h.describes.children, Bool.eq_false_iff, Ne, h.isAncestor_iff]
  constructor
  · intro ⟨⟨marker, hcreates⟩, hunseen⟩
    rw [(h.describes.marker.mpr hcreates).1] at hunseen
    exact ⟨marker, hcreates, hunseen⟩
  · intro ⟨marker, hcreates, hunseen⟩
    refine ⟨⟨marker, hcreates⟩, ?_⟩
    rw [(h.describes.marker.mpr hcreates).1]
    exact hunseen

/-- Removals have been passed on before the event comes. -/
theorem closed
    (hdelete : delete ∈ (metaOf state.blocks source).causes) (hunseen : Unseen state delete source child) :
    delete ∈ (metaOf state.blocks child).causes := by
  obtain ⟨marker, hcreates, hunseen⟩ := h.unseen_iff.mp hunseen
  rw [h.fresh.ancestor_iff (h.describes.causes.mp hdelete).mem_ids] at hunseen
  exact h.describes.closed hdelete hcreates hunseen

theorem removedBy_other
    (hmarker : ∀ child source : BlockId, event.effect.marker ≠ some (child, some source))
    (hdelete : ∀ target, event.effect ≠ .blockDelete target) :
    RemovedBy (events ++ [event]) delete blockId ↔ RemovedBy events delete blockId := by
  refine ⟨fun hremoved => ?_, h.fresh.removedBy⟩
  refine hremoved.induction (fun target hdeletes => ?_) fun source child marker hcreates hunseen ih => ?_
  · rcases deletes_concat.mp hdeletes with hold | ⟨-, heffect⟩
    · exact removedBy_iff.mpr (.inl hold)
    · exact absurd heffect (hdelete target)
  · rcases creates_concat.mp hcreates with hold | ⟨-, heffect⟩
    · rw [h.fresh.ancestor_iff ih.mem_ids] at hunseen
      exact removedBy_iff.mpr (.inr ⟨source, marker, hold, ih, hunseen⟩)
    · exact absurd heffect (hmarker _ _)

theorem mem_assignFields {record : BlockMeta} {patch : BlockFieldPatch}
    (hpatch : event.effect.patch = some (blockId, patch))
    (hrecord : record.fields = (metaOf state.blocks blockId).fields) {field : FieldName}
    {candidate : FieldCandidate field.Value} :
    candidate ∈ (assignFields state.causal event.id patch record).fields field ↔
      MaximalAssignment (events ++ [event]) blockId field candidate.eventId candidate.value := by
  rw [assignFields]
  dsimp only
  rw [hrecord]
  cases hvalue : patch.get field with
  | none =>
    rw [h.fresh.maximal_other fun other given hother hgiven => ?_]
    · exact h.describes.fields
    · obtain ⟨-, rfl⟩ := Prod.mk.inj (Option.some.inj (hpatch.symm.trans hother))
      rw [hvalue] at hgiven
      cases hgiven
  | some value =>
    rw [h.fresh.maximal_assigned hpatch hvalue, ← h.isAncestor_iff, ← h.describes.fields,
      mem_append, mem_filter, mem_singleton, Bool.not_eq_true', Bool.not_eq_true]
    refine or_congr_right ⟨?_, fun ⟨hid, hgiven⟩ => ?_⟩
    · rintro rfl
      exact ⟨rfl, rfl⟩
    · rw [← hid, ← hgiven]

theorem mem_fields_other
    (hpatch : ∀ patch, event.effect.patch ≠ some (blockId, patch)) {field : FieldName}
    {candidate : FieldCandidate field.Value} :
    candidate ∈ (metaOf state.blocks blockId).fields field ↔
      MaximalAssignment (events ++ [event]) blockId field candidate.eventId candidate.value := by
  rw [h.fresh.maximal_other fun patch _ hother => absurd hother (hpatch patch)]
  exact h.describes.fields

omit h in
theorem creates_other (hmarker : event.effect.marker = none) {given : Option BlockId} :
    Creates (events ++ [event]) eventId blockId given ↔ Creates events eventId blockId given := by
  rw [creates_concat, hmarker]
  exact or_iff_left nofun

theorem describes_quiet (hpatch : event.effect.patch = none)
    (hmarker : event.effect.marker = none) (hdelete : ∀ target, event.effect ≠ .blockDelete target)
    (hrecords : ∀ other, SameFields (metaOf state.blocks other) (metaOf next.blocks other))
    (hcauses : ∀ other, (metaOf next.blocks other).causes = (metaOf state.blocks other).causes)
    (hchildren : ∀ source, next.childrenOf source = state.childrenOf source) :
    Describes next (events ++ [event]) where
  marker := by
    intro blockId eventId source
    rw [creates_other hmarker, ← h.describes.marker, (hrecords blockId).marker, (hrecords blockId).source]
  children := by
    intro source child
    rw [hchildren, h.describes.children]
    exact exists_congr fun _ => (creates_other hmarker).symm
  fields := by
    intro blockId field candidate
    rw [(hrecords blockId).fields]
    refine h.mem_fields_other fun patch hother => ?_
    rw [hpatch] at hother
    cases hother
  causes := by
    intro blockId delete
    rw [hcauses, h.removedBy_other (by simp [hmarker]) hdelete]
    exact h.describes.causes
  resolved := by
    intro blockId fields hresolved
    rw [(hrecords blockId).resolved] at hresolved
    rw [h.describes.resolved hresolved, winner_congr (hrecords blockId).fields]

theorem describes_set {patch : BlockFieldPatch} (heffect : event.effect = .blockSet blockId patch) :
    Describes (state.update blockId (assignFields state.causal event.id patch)) (events ++ [event]) := by
  have hmarker : event.effect.marker = none := by rw [heffect]; rfl
  have hpatch : event.effect.patch = some (blockId, patch) := by rw [heffect]; rfl
  have hdelete : ∀ target, event.effect ≠ .blockDelete target := by rw [heffect]; exact nofun
  refine ⟨?_, ?_, ?_, ?_, ?_⟩
  · intro other eventId source
    rw [creates_other hmarker, ← h.describes.marker, metaOf_update]
    split
    · next hsame =>
        subst hsame
        rfl
    · rfl
  · intro source child
    refine h.describes.children.trans ?_
    exact exists_congr fun _ => (creates_other hmarker).symm
  · intro other field candidate
    rw [metaOf_update]
    split
    · next hsame =>
        subst hsame
        exact h.mem_assignFields hpatch rfl
    · next hother =>
        refine h.mem_fields_other fun given hgiven => hother ?_
        exact (Prod.mk.inj (Option.some.inj (hpatch.symm.trans hgiven))).1.symm
  · intro other delete
    rw [h.removedBy_other (by simp [hmarker]) hdelete, ← h.describes.causes, metaOf_update]
    split
    · next hsame =>
        subst hsame
        rfl
    · rfl
  · intro other fields hresolved
    rw [metaOf_update] at hresolved ⊢
    split at hresolved
    · cases hresolved
    · next hother =>
        rw [if_neg hother]
        exact h.describes.resolved hresolved

theorem removedBy_before (hmarker : event.effect.marker = none) (hdelete : delete ≠ event.id) :
    RemovedBy (events ++ [event]) delete blockId ↔ RemovedBy events delete blockId := by
  refine ⟨fun hremoved => ?_, h.fresh.removedBy⟩
  refine hremoved.induction (fun target hdeletes => ?_) fun source child marker hcreates hunseen ih => ?_
  · rcases deletes_concat.mp hdeletes with hold | ⟨hsame, -⟩
    · exact removedBy_iff.mpr (.inl hold)
    · exact absurd hsame.symm hdelete
  · rw [creates_other hmarker] at hcreates
    rw [h.fresh.ancestor_iff ih.mem_ids] at hunseen
    exact removedBy_iff.mpr (.inr ⟨source, marker, hcreates, ih, hunseen⟩)

theorem removedBy_event {target : BlockId} (heffect : event.effect = .blockDelete target) :
    RemovedBy (events ++ [event]) event.id blockId ↔ Inherits state event.id target blockId := by
  have hmarker : event.effect.marker = none := by rw [heffect]; rfl
  constructor
  · intro hremoved
    refine hremoved.induction (fun other hdeletes => ?_) fun source child marker hcreates hunseen ih => ?_
    · rcases deletes_concat.mp hdeletes with hold | ⟨-, hother⟩
      · exact absurd hold.mem_ids h.fresh.fresh
      · rw [heffect] at hother
        cases hother
        exact .refl
    · rw [creates_other hmarker] at hcreates
      exact ih.tail (h.unseen_iff.mpr ⟨marker, hcreates, hunseen⟩)
  · intro hinherits
    induction hinherits with
    | refl => exact removedBy_iff.mpr (.inl (deletes_concat.mpr (.inr ⟨rfl, heffect⟩)))
    | tail _ hunseen ih =>
      obtain ⟨marker, hcreates, hunseen⟩ := h.unseen_iff.mp hunseen
      exact removedBy_iff.mpr (.inr ⟨_, marker, (creates_other hmarker).mpr hcreates, ih, hunseen⟩)

theorem describes_delete (heffect : event.effect = .blockDelete blockId) :
    Describes ((state.update blockId id).addCause blockId event.id) (events ++ [event]) := by
  have hmarker : event.effect.marker = none := by rw [heffect]; rfl
  have hpatch : event.effect.patch = none := by rw [heffect]; rfl
  have hkept : ∀ other, metaOf (state.update blockId id).blocks other = metaOf state.blocks other := by
    intro other
    rw [metaOf_update]
    split
    · next hsame => rw [hsame, id]
    · rfl
  have hsame : ∀ other, SameBut event.id (metaOf state.blocks other)
      (metaOf ((state.update blockId id).addCause blockId event.id).blocks other) := by
    intro other
    have hadded := addCause_same (state.update blockId id) blockId other event.id
    rwa [hkept] at hadded
  have hunseen : Unseen (state.update blockId id) event.id = Unseen state event.id := by
    funext source child
    rw [Unseen, Unseen, hkept]
    rfl
  refine ⟨?_, ?_, ?_, ?_, ?_⟩
  · intro other eventId source
    rw [creates_other hmarker, ← h.describes.marker, (hsame other).marker, (hsame other).source]
  · intro source child
    refine h.describes.children.trans ?_
    exact exists_congr fun _ => (creates_other hmarker).symm
  · intro other field candidate
    rw [(hsame other).fields]
    refine h.mem_fields_other fun patch hother => ?_
    rw [hpatch] at hother
    cases hother
  · intro other delete
    by_cases hdelete : delete = event.id
    · subst hdelete
      have hnone : ∀ source, event.id ∉ (metaOf state.blocks source).causes :=
        fun source hmem => h.fresh.fresh (h.describes.causes.mp hmem).mem_ids
      rw [mem_causes_addCause (fun source _ hsource => absurd (hkept source ▸ hsource) (hnone source)),
        hkept, or_iff_right (hnone other), Inherits, hunseen, h.removedBy_event heffect]
      rfl
    · rw [(hsame other).others delete hdelete, h.removedBy_before hmarker hdelete]
      exact h.describes.causes
  · intro other fields hresolved
    rw [(hsame other).resolved] at hresolved
    rw [h.describes.resolved hresolved, winner_congr (hsame other).fields]

end

section Creation

variable {given : Option BlockId} {fields : CompleteBlockFields}

def created (state : BlockMetas) (event : RichTextEvent) (blockId : BlockId) (given : Option BlockId)
    (fields : CompleteBlockFields) : BlockMetas :=
  state.update blockId fun record => assignFields state.causal event.id fields.patch
    { record with markerEventId := some event.id, sourceBlockId := given }

theorem causes_created : (metaOf (created state event blockId given fields).blocks child).causes =
    (metaOf state.blocks child).causes := by
  rw [created, metaOf_update]
  split
  · next hsame =>
      subst hsame
      rfl
  · rfl

section

variable (h : Arrives state events event)
include h

theorem not_creates
    (hnone : (metaOf state.blocks blockId).markerEventId.isSome = false) (source : Option BlockId) :
    ¬ Creates events eventId blockId source := by
  intro hcreates
  rw [(h.describes.marker.mpr hcreates).1] at hnone
  cases hnone

/-- The records after a creation, whatever has been inherited. -/
theorem describes_created (hmarker : event.effect.marker = some (blockId, given))
    (hpatch : event.effect.patch = some (blockId, fields.patch))
    (hnone : (metaOf state.blocks blockId).markerEventId.isSome = false)
    (hrecords : ∀ other, SameFields (metaOf (created state event blockId given fields).blocks other)
      (metaOf next.blocks other)) (hchildren : ∀ source child, child ∈ next.childrenOf source ↔
      child ∈ state.childrenOf source ∨ given = some source ∧ child = blockId)
    (hcauses : ∀ other delete, delete ∈ (metaOf next.blocks other).causes ↔
      RemovedBy (events ++ [event]) delete other) : Describes next (events ++ [event]) where
  marker := by
    intro other eventId source
    rw [creates_concat, hmarker, (hrecords other).marker, (hrecords other).source, created, metaOf_update]
    split
    · next hsame =>
        subst hsame
        rw [or_iff_right (h.not_creates hnone source)]
        show some event.id = some eventId ∧ given = source ↔ _
        rw [Option.some.injEq, Option.some.injEq, Prod.mk.injEq, and_iff_right rfl]
    · next hother =>
        rw [h.describes.marker]
        refine (or_iff_left fun hnew => hother ?_).symm
        exact (Prod.mk.inj (Option.some.inj hnew.2)).1.symm
  children := by
    intro source child
    rw [hchildren, h.describes.children]
    constructor
    · rintro (⟨eventId, hcreates⟩ | ⟨rfl, rfl⟩)
      · exact ⟨eventId, creates_concat.mpr (.inl hcreates)⟩
      · exact ⟨event.id, creates_concat.mpr (.inr ⟨rfl, hmarker⟩)⟩
    · intro ⟨eventId, hcreates⟩
      rcases creates_concat.mp hcreates with hold | ⟨-, hnew⟩
      · exact .inl ⟨eventId, hold⟩
      · obtain ⟨rfl, rfl⟩ := Prod.mk.inj (Option.some.inj (hmarker.symm.trans hnew))
        exact .inr ⟨rfl, rfl⟩
  fields := by
    intro other field candidate
    rw [(hrecords other).fields, created, metaOf_update]
    split
    · next hsame =>
        subst hsame
        exact h.mem_assignFields hpatch rfl
    · next hother =>
        refine h.mem_fields_other fun patch hgiven => hother ?_
        exact (Prod.mk.inj (Option.some.inj (hpatch.symm.trans hgiven))).1.symm
  causes := by
    intro other delete
    exact hcauses other delete
  resolved := by
    intro other found hresolved
    rw [(hrecords other).resolved, created, metaOf_update] at hresolved
    split at hresolved
    · cases hresolved
    · next hother =>
        rw [h.describes.resolved hresolved, winner_congr (hrecords other).fields, created, metaOf_update,
          if_neg hother]

/-- The state in which a child with a source inherits. -/
def joined (state : BlockMetas) (event : RichTextEvent) (blockId source : BlockId)
    (fields : CompleteBlockFields) : BlockMetas :=
  { created state event blockId (some source) fields with
    children := state.children.set source (state.childrenOf source ++ [blockId]) }

omit h in
theorem childrenOf_joined {target : BlockId} :
    child ∈ (joined state event blockId source fields).childrenOf target ↔
      child ∈ state.childrenOf target ∨ some source = some target ∧ child = blockId := by
  rw [childrenOf, joined, InsertionMap.get?_set]
  by_cases hsame : target = source
  · subst hsame
    rw [if_pos rfl, Option.getD_some, mem_append, mem_singleton, and_iff_right rfl]
  · rw [if_neg hsame]
    exact (or_iff_left fun h => hsame (Option.some.inj h.1).symm).symm

theorem unseen_joined
    (hnone : (metaOf state.blocks blockId).markerEventId.isSome = false) {target : BlockId} :
    Unseen (joined state event blockId source fields) delete target child ↔
      Unseen state delete target child ∨ target = source ∧ child = blockId := by
  have hmarker : (metaOf (joined state event blockId source fields).blocks child).markerEventId =
      if child = blockId then some event.id else (metaOf state.blocks child).markerEventId := by
    show (metaOf (created state event blockId (some source) fields).blocks child).markerEventId = _
    rw [created, metaOf_update]
    split
    · rfl
    · rfl
  have hold : child ∈ state.childrenOf target → child ≠ blockId := by
    rintro hmem rfl
    obtain ⟨marker, hcreates⟩ := h.describes.children.mp hmem
    exact h.not_creates hnone (some target) hcreates
  rw [Unseen, Unseen, childrenOf_joined, hmarker]
  show _ ∧ state.causal.isAncestor _ delete = false ↔ _
  constructor
  · rintro ⟨hmem | ⟨hsame, rfl⟩, hunseen⟩
    · rw [if_neg (hold hmem)] at hunseen
      exact .inl ⟨hmem, hunseen⟩
    · exact .inr ⟨(Option.some.inj hsame).symm, rfl⟩
  · rintro (⟨hmem, hunseen⟩ | ⟨rfl, rfl⟩)
    · rw [if_neg (hold hmem)]
      exact ⟨.inl hmem, hunseen⟩
    · rw [if_pos rfl]
      exact ⟨.inr ⟨rfl, rfl⟩, h.isAncestor_event delete⟩

theorem removedBy_child (hmarker : event.effect.marker = some (blockId, some source))
    (hdelete : ∀ target, event.effect ≠ .blockDelete target)
    (hnone : (metaOf state.blocks blockId).markerEventId.isSome = false) :
    RemovedBy (events ++ [event]) delete child ↔ RemovedBy events delete child ∨
      RemovedBy events delete source ∧
        Inherits (joined state event blockId source fields) delete blockId child := by
  have hnew : Creates (events ++ [event]) event.id blockId (some source) :=
    creates_concat.mpr (.inr ⟨rfl, hmarker⟩)
  constructor
  · intro hremoved
    refine hremoved.induction (motive := fun block => RemovedBy events delete block ∨
      RemovedBy events delete source ∧
        Inherits (joined state event blockId source fields) delete blockId block)
      (fun target hdeletes => ?_) fun parent other marker hcreates hunseen ih => ?_
    · rcases deletes_concat.mp hdeletes with hold | ⟨-, heffect⟩
      · exact .inl (removedBy_iff.mpr (.inl hold))
      · exact absurd heffect (hdelete target)
    · rcases creates_concat.mp hcreates with hold | ⟨-, heffect⟩
      · rcases ih with hparent | ⟨hsource, hinherits⟩
        · rw [h.fresh.ancestor_iff hparent.mem_ids] at hunseen
          exact .inl (removedBy_iff.mpr (.inr ⟨parent, marker, hold, hparent, hunseen⟩))
        · refine .inr ⟨hsource, hinherits.tail ?_⟩
          exact (h.unseen_joined hnone).mpr (.inl (h.unseen_iff.mpr ⟨marker, hold, hunseen⟩))
      · cases hmarker.symm.trans heffect
        exact .inr ⟨ih.elim id And.left, .refl⟩
  · rintro (hold | ⟨hsource, hinherits⟩)
    · exact h.fresh.removedBy hold
    · induction hinherits with
      | refl =>
        refine removedBy_iff.mpr (.inr ⟨source, event.id, hnew, ?_, h.fresh.not_ancestor delete⟩)
        exact h.fresh.removedBy hsource
      | tail _ hunseen ih =>
        rcases (h.unseen_joined hnone).mp hunseen with hold | ⟨rfl, rfl⟩
        · obtain ⟨marker, hcreates, hunseen⟩ := h.unseen_iff.mp hold
          exact removedBy_iff.mpr (.inr ⟨_, marker, creates_concat.mpr (.inl hcreates), ih, hunseen⟩)
        · exact removedBy_iff.mpr (.inr ⟨_, event.id, hnew, ih, h.fresh.not_ancestor delete⟩)

theorem describes_create (hmarker : event.effect.marker = some (blockId, given))
    (hpatch : event.effect.patch = some (blockId, fields.patch))
    (hdelete : ∀ target, event.effect ≠ .blockDelete target)
    (hresult : state.createBlock event.id blockId given fields = .ok next) :
    Describes next (events ++ [event]) ∧ next.causal = state.causal := by
  rw [createBlock] at hresult
  split at hresult
  · cases hresult
  next hnone =>
  rw [Bool.not_eq_true] at hnone
  cases given with
  | none =>
    cases hresult
    refine ⟨h.describes_created hmarker hpatch hnone (fun _ => ⟨rfl, rfl, rfl, rfl⟩)
      (fun _ _ => (or_iff_left nofun).symm) fun other delete => ?_, rfl⟩
    show delete ∈ (metaOf (created state event blockId none fields).blocks other).causes ↔ _
    rw [causes_created, h.describes.causes, h.removedBy_other (by simp [hmarker]) hdelete]
  | some source =>
    dsimp only at hresult
    split at hresult
    · cases hresult
    obtain rfl : (joined state event blockId source fields).inheritCauses event.id blockId
        (metaOf (joined state event blockId source fields).blocks source).causes = next :=
      Except.ok.inj hresult
    have hcauses : ∀ other, (metaOf (joined state event blockId source fields).blocks other).causes =
        (metaOf state.blocks other).causes := fun other => causes_created
    have hspec := @inheritCauses_spec (joined state event blockId source fields) blockId event.id
      (metaOf (joined state event blockId source fields).blocks source).causes h.isAncestor_event ?_
    · refine ⟨h.describes_created hmarker hpatch hnone (fun other => (hspec.2.2 other).1.toSameFields)
        (fun target child => ?_) fun other delete => ?_, hspec.1⟩
      · rw [childrenOf, hspec.2.1]
        exact childrenOf_joined
      · refine ((hspec.2.2 other).2 delete).trans ?_
        rw [hcauses, hcauses, h.describes.causes, h.describes.causes,
          h.removedBy_child hmarker hdelete hnone]
    · intro cause parent child hcause hunseen
      rw [hcauses] at hcause ⊢
      rcases (h.unseen_joined hnone).mp hunseen with hold | ⟨-, hsame⟩
      · exact .inr (h.closed hcause hold)
      · exact .inl hsame

end

end Creation

end Arrives

end BlockMetas
end Softmaple.BlockModel
