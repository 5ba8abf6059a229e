import Softmaple.BlockModel.BlockMaterializer
import Softmaple.BlockModel.MetaRuns
import Mathlib.Data.Finset.Prod

/-!
The materializer resolves the fields of a block to the winners, whatever order it gets the events in.
-/
namespace Softmaple.BlockModel

open MarkingSearch Relation List

variable {events listed : List RichTextEvent} {blockId : BlockId} {field : FieldName} {eventId : Text}

section Permutations

section

variable (h : listed.Perm events)
include h

theorem ids_perm (hcausal : (historyOf events).Causal) : (listed.map (·.id)).Nodup := by
  have hnodup := hcausal.nodup
  rw [ids_historyOf] at hnodup
  exact (h.map _).nodup_iff.mpr hnodup

theorem ancestor_perm : (historyOf listed).Ancestor = (historyOf events).Ancestor := by
  have hparent : (historyOf listed).ParentOf = (historyOf events).ParentOf := by
    funext parent child
    refine propext (exists_congr fun parents => and_congr_left fun _ => ?_)
    exact (h.map _).mem_iff
  rw [History.Ancestor, History.Ancestor, hparent]

theorem assigns_perm {value : field.Value} :
    Assigns listed blockId field eventId value ↔ Assigns events blockId field eventId value :=
  exists_congr fun _ => and_congr_left fun _ => h.mem_iff

theorem creates_perm {source : Option BlockId} :
    Creates listed eventId blockId source ↔ Creates events eventId blockId source :=
  exists_congr fun _ => and_congr_left fun _ => h.mem_iff

theorem deletes_perm : Deletes listed eventId blockId ↔ Deletes events eventId blockId :=
  exists_congr fun _ => and_congr_left fun _ => h.mem_iff

end

end Permutations

namespace Materializer

variable {first second : Text}

section Ancestry

theorem mem_parentsAt (hnodup : (listed.map (·.id)).Nodup) :
    first ∈ parentsAt (parentsOf listed) second ↔ (historyOf listed).ParentOf first second := by
  have hids : ((listed.map fun event => (event.id, event.parentVersion.eraseDups)).map Prod.fst) =
      listed.map (·.id) := by
    rw [List.map_map]
    rfl
  rw [parentsAt, parentsOf]
  by_cases hmem : second ∈ listed.map (·.id)
  · obtain ⟨event, hevent, rfl⟩ := mem_map.mp hmem
    have hentry : (event.id, event.parentVersion.eraseDups) ∈
        listed.map fun event => (event.id, event.parentVersion.eraseDups) := mem_map_of_mem hevent
    rw [InsertionMap.get?_setAll_of_mem (hids ▸ hnodup) hentry, Option.getD_some, mem_eraseDups]
    constructor
    · intro hparent
      exact ⟨event.parentVersion, mem_map_of_mem hevent, hparent⟩
    · rintro ⟨parents, hentry, hparent⟩
      obtain ⟨other, hother, hsame⟩ := mem_map.mp hentry
      obtain ⟨hid, rfl⟩ := Prod.mk.inj hsame
      exact inj_on_of_nodup_map hnodup hother hevent hid ▸ hparent
  · rw [InsertionMap.get?_setAll_of_not_mem (hids ▸ hmem), InsertionMap.get?_empty, Option.getD_none]
    constructor
    · exact fun hnone => absurd hnone not_mem_nil
    · rintro ⟨parents, hentry, -⟩
      obtain ⟨event, hevent, hsame⟩ := mem_map.mp hentry
      exact absurd ((Prod.mk.inj hsame).1 ▸ mem_map_of_mem hevent) hmem

theorem lawful_ancestorSearch (parents : Parents) (ancestorId : Text) :
    Lawful (ancestorSearch parents ancestorId) parents.keys where
  marked_mark visited key other := by
    show decide (other ∈ visited ++ [key]) = (decide (other = key) || decide (other ∈ visited))
    rw [← Bool.decide_or, decide_eq_decide, mem_append, mem_singleton, or_comm]
  nodup := parents.nodup
  leads key hleads := by
    rw [InsertionMap.mem_keys]
    by_contra hnone
    rw [Bool.not_eq_true, InsertionMap.has_eq_false] at hnone
    refine hleads ?_
    show (parents.get? key).getD [] = []
    rw [hnone]
    rfl

theorem finds_iff (hnodup : (listed.map (·.id)).Nodup) :
    Finds (ancestorSearch (parentsOf listed) first) second ↔
      ReflTransGen (historyOf listed).ParentOf first second := by
  constructor
  · intro hfinds
    induction hfinds with
    | here _ hfound => exact of_decide_eq_true hfound ▸ .refl
    | later _ hstep _ ih => exact ih.tail ((mem_parentsAt hnodup).mp hstep)
  · intro hancestor
    induction hancestor with
    | refl => exact .here rfl (decide_eq_true rfl)
    | tail _ hstep ih => exact .later rfl ((mem_parentsAt hnodup).mpr hstep) ih

theorem isAncestor_iff (hnodup : (listed.map (·.id)).Nodup) :
    isAncestor first second (parentsOf listed) = true ↔ (historyOf listed).Ancestor first second := by
  rw [isAncestor, Option.isNone_iff_eq_none,
    (lawful_ancestorSearch (parentsOf listed) first).run_eq_none_iff ?_ (fun _ hkey => by cases hkey)]
  · rw [History.Ancestor, TransGen.tail'_iff]
    refine exists_congr fun parent => ?_
    rw [mem_reverse, mem_parentsAt hnodup, finds_iff hnodup]
    exact and_comm
  · refine Nat.add_le_add_left ?_ _
    exact ((filter_sublist.map _).sum_le_sum fun _ _ => Nat.zero_le _)

end Ancestry

section Assignments

variable {value : field.Value}

def collected (assignments : InsertionMap BlockId FieldAssignments) (blockId : BlockId)
    (field : FieldName) : List (FieldCandidate field.Value) :=
  ((assignments.get? blockId).getD fun _ => []) field

theorem collected_addFields {assignments : InsertionMap BlockId FieldAssignments} {target : BlockId}
    {fields : BlockFieldPatch} {candidate : FieldCandidate field.Value} :
    candidate ∈ collected (addFields assignments target eventId fields) blockId field ↔
      candidate ∈ collected assignments blockId field ∨
        blockId = target ∧ candidate.eventId = eventId ∧ fields.get field = some candidate.value := by
  rw [collected, addFields, InsertionMap.get?_set]
  by_cases hsame : blockId = target
  · subst hsame
    rw [if_pos rfl, Option.getD_some, and_iff_right rfl]
    split
    · next hnone =>
        rw [hnone]
        exact (or_iff_left fun h => by cases h.2).symm
    · next value hvalue =>
        rw [hvalue, mem_append, mem_singleton, Option.some.injEq]
        refine or_congr_right ⟨?_, fun ⟨hid, hsame⟩ => ?_⟩
        · rintro rfl
          exact ⟨rfl, rfl⟩
        · rw [← hid, hsame]
  · rw [if_neg hsame]
    exact (or_iff_left fun h => hsame h.1).symm

theorem addAssignments_eq (assignments : InsertionMap BlockId FieldAssignments) (event : RichTextEvent) :
    addAssignments assignments event = match event.effect.patch with
      | none => assignments
      | some (blockId, fields) => addFields assignments blockId event.id fields := by
  rw [addAssignments]
  cases event.effect with
  | bootstrap | blockCreate | blockSet | blockDelete | blockJoin | markSet | textInsert | textDelete => rfl

theorem mem_collected {candidate : FieldCandidate field.Value} :
    candidate ∈ collected (collectFieldAssignments listed) blockId field ↔
      Assigns listed blockId field candidate.eventId candidate.value := by
  have hfold : ∀ (rest : List RichTextEvent) (assignments : InsertionMap BlockId FieldAssignments),
      candidate ∈ collected (rest.foldl addAssignments assignments) blockId field ↔
        candidate ∈ collected assignments blockId field ∨
          Assigns rest blockId field candidate.eventId candidate.value := by
    intro rest
    induction rest with
    | nil => exact fun assignments => (or_iff_left fun ⟨_, h, _⟩ => not_mem_nil h).symm
    | cons event rest ih =>
      intro assignments
      have hcons : Assigns (event :: rest) blockId field candidate.eventId candidate.value ↔
          (event.id = candidate.eventId ∧ ∃ patch, event.effect.patch = some (blockId, patch) ∧
            patch.get field = some candidate.value) ∨
          Assigns rest blockId field candidate.eventId candidate.value := by
        simp only [Assigns, mem_cons, or_and_right, exists_or, exists_eq_left]
      rw [foldl_cons, ih, hcons, ← or_assoc, addAssignments_eq]
      refine or_congr_left ?_
      cases hpatch : event.effect.patch with
      | none =>
        exact (or_iff_left fun h => by cases h.2.choose_spec.1).symm
      | some entry =>
        obtain ⟨target, fields⟩ := entry
        rw [collected_addFields]
        refine or_congr_right ⟨fun ⟨hsame, hid, hvalue⟩ => ?_, fun ⟨hid, patch, hpatch, hvalue⟩ => ?_⟩
        · exact ⟨hid.symm, fields, by rw [hsame], hvalue⟩
        · cases hpatch
          exact ⟨rfl, hid.symm, hvalue⟩
  exact (hfold listed .empty).trans (or_iff_right not_mem_nil)

theorem collected_of_creates {source : Option BlockId} (h : Creates listed eventId blockId source) :
    ((collectFieldAssignments listed).get? blockId).isSome = true := by
  obtain ⟨event, hevent, rfl, hmarker⟩ := h
  have hassigns : ∃ value, Assigns listed blockId .type event.id value := by
    cases heffect : event.effect with
    | bootstrap | blockCreate =>
      rw [heffect] at hmarker
      cases hmarker
      exact ⟨_, event, hevent, rfl, _, by rw [heffect]; rfl, rfl⟩
    | blockSet | blockDelete | blockJoin | markSet | textInsert | textDelete =>
      rw [heffect] at hmarker
      cases hmarker
  obtain ⟨value, hassigns⟩ := hassigns
  have hmem := (@mem_collected listed blockId .type ⟨event.id, value⟩).mpr hassigns
  rw [collected] at hmem
  cases hget : (collectFieldAssignments listed).get? blockId with
  | none => rw [hget] at hmem; cases hmem
  | some assignments => rfl

end Assignments

section Winners

theorem fieldWinner_spec (hperm : listed.Perm events) (hcausal : (historyOf events).Causal)
    {assignments : FieldAssignments}
    (hassignments : (collectFieldAssignments listed).get? blockId = some assignments) :
    ∃ value, fieldWinner assignments (parentsOf listed) (listed.map (·.id)) field = .ok value ∧
      IsWinner events blockId field value := by
  have hnodup := ids_perm hperm hcausal
  have hmem : ∀ {candidate}, candidate ∈ assignments field ↔
      Assigns events blockId field candidate.eventId candidate.value := by
    intro candidate
    rw [← assigns_perm hperm, ← mem_collected, collected, hassignments]
    rfl
  rw [fieldWinner]
  split
  · next hnil =>
      refine ⟨_, rfl, .inr ⟨fun eventId given hassigns => ?_, rfl⟩⟩
      exact not_mem_nil (hnil ▸ (@hmem ⟨eventId, given⟩).mpr hassigns)
  · next first rest hcons =>
      have hmaximal : ∀ candidate, candidate ∈ (first :: rest).filter (fun candidate =>
          !(first :: rest).any fun other => decide (candidate.eventId ≠ other.eventId) &&
            isAncestor candidate.eventId other.eventId (parentsOf listed)) ↔
          MaximalAssignment events blockId field candidate.eventId candidate.value := by
        intro candidate
        rw [mem_filter, ← hcons, hmem, MaximalAssignment, Bool.not_eq_true', any_eq_false]
        refine and_congr_right fun _ => ⟨fun hall other given hassigns hancestor => ?_, fun hall other hother => ?_⟩
        · have hother := hall ⟨other, given⟩ (hmem.mpr hassigns)
          rw [Bool.and_eq_true, decide_eq_true_eq, isAncestor_iff hnodup, ancestor_perm hperm] at hother
          refine hother ⟨?_, hancestor⟩
          rintro rfl
          exact hcausal.irrefl hancestor
        · rw [Bool.and_eq_true, isAncestor_iff hnodup, ancestor_perm hperm]
          exact fun h => hall other.eventId other.value (hmem.mp hother) h.2
      have hwinner := isWinner_largest hcausal hmaximal
      rw [selectCausalMaximal]
      split
      · next hnone =>
          have hassigns := hmem.mp (hcons ▸ mem_cons_self : first ∈ assignments field)
          obtain ⟨last, given, hlast⟩ := exists_maximal hcausal hassigns
          have hempty := largest_eq_none.mp hnone
          exact absurd ((hmaximal ⟨last, given⟩).mpr hlast) (hempty ▸ not_mem_nil)
      · next winner hsome =>
          rw [hsome] at hwinner
          have hknown : winner.eventId ∈ listed.map (·.id) := by
            have hassigns := ((hmaximal winner).mp (largest_spec hsome).1).1
            rw [← assigns_perm hperm] at hassigns
            rw [← ids_historyOf]
            exact hassigns.mem_ids
          rw [if_pos hknown]
          exact ⟨winner.value, rfl, hwinner⟩

theorem fieldsOf_spec (hperm : listed.Perm events) (hcausal : (historyOf events).Causal)
    {source : Option BlockId} (hcreates : Creates events eventId blockId source) :
    ∃ fields, fieldsOf listed blockId = .ok fields ∧
      ∀ field, IsWinner events blockId field (fields.get field) := by
  have hsome := collected_of_creates ((creates_perm hperm).mpr hcreates)
  obtain ⟨assignments, hassignments⟩ := Option.isSome_iff_exists.mp hsome
  have hfield : ∀ field, ∃ value, fieldWinner assignments (parentsOf listed) (listed.map (·.id)) field =
      .ok value ∧ IsWinner events blockId field value := fun field => fieldWinner_spec hperm hcausal hassignments
  choose value hvalue hwinner using hfield
  refine ⟨CompleteBlockFields.ofWinners value, ?_, fun field => ?_⟩
  · rw [fieldsOf, hassignments, resolveBlockFields]
    simp only [hvalue]
    rfl
  · rw [CompleteBlockFields.get_ofWinners]
    exact hwinner field

end Winners

end Materializer
end Softmaple.BlockModel

namespace Softmaple.BlockModel

open List

variable {events listed : List RichTextEvent} {blockId : BlockId} {eventId : Text}

namespace Materializer

def causesAt (causes : RemovalCauses) (blockId : BlockId) : List Text := (causes.get? blockId).getD []

section Collection

structure Gathers (collected : Collected) (done : List RichTextEvent) : Prop where
  markers : ∀ record, record ∈ collected.markerEvents ↔
    Creates done record.eventId record.blockId record.sourceBlockId
  seen : ∀ blockId, blockId ∈ collected.seenBlocks ↔ ∃ eventId source, Creates done eventId blockId source
  causes : ∀ blockId delete, delete ∈ causesAt collected.removalCauses blockId ↔ Deletes done delete blockId
  stored : ∀ blockId, collected.removalCauses.has blockId = true →
    causesAt collected.removalCauses blockId ≠ []

structure Accepted (event : RichTextEvent) : Prop where
  deletes : event.effect ≠ .blockDelete BOOTSTRAP_BLOCK_ID
  joins : event.effect ≠ .blockJoin BOOTSTRAP_BLOCK_ID

variable {collected : Collected} {done : List RichTextEvent} {event : RichTextEvent}

theorem gathers_empty : Gathers ⟨[], [], .empty, .empty⟩ [] where
  markers record := ⟨fun h => (by cases h), fun ⟨_, h, _⟩ => (by cases h)⟩
  seen blockId := ⟨fun h => (by cases h), fun ⟨_, _, _, h, _⟩ => (by cases h)⟩
  causes blockId delete := ⟨fun h => (by cases h), fun ⟨_, h, _⟩ => (by cases h)⟩
  stored blockId h := by cases h

theorem creates_append {source : Option BlockId} (hmarker : event.effect.marker = none) :
    Creates (done ++ [event]) eventId blockId source ↔ Creates done eventId blockId source := by
  rw [creates_concat, hmarker]
  exact or_iff_left nofun

theorem deletes_append (hdelete : ∀ target, event.effect ≠ .blockDelete target) :
    Deletes (done ++ [event]) eventId blockId ↔ Deletes done eventId blockId := by
  rw [deletes_concat]
  exact or_iff_left fun h => hdelete blockId h.2

theorem Gathers.quiet (h : Gathers collected done) (hmarker : event.effect.marker = none)
    (hdelete : ∀ target, event.effect ≠ .blockDelete target)
    (joinEvents : InsertionMap BlockId (List Text)) :
    Gathers { collected with joinEvents } (done ++ [event]) where
  markers record := (h.markers record).trans (creates_append hmarker).symm
  seen blockId := (h.seen blockId).trans
    (exists_congr fun _ => exists_congr fun _ => (creates_append hmarker).symm)
  causes blockId delete := (h.causes blockId delete).trans (deletes_append hdelete).symm
  stored := h.stored

theorem Gathers.marker (h : Gathers collected done) {source : Option BlockId}
    (hmarker : event.effect.marker = some (blockId, source))
    (hdelete : ∀ target, event.effect ≠ .blockDelete target)
    (hnew : ∀ eventId source, ¬ Creates done eventId blockId source) :
    ∃ next, collectMarker collected event.id blockId source = .ok next ∧
      Gathers next (done ++ [event]) := by
  have hunseen : blockId ∉ collected.seenBlocks := by
    rw [h.seen]
    exact fun ⟨eventId, source, hcreates⟩ => hnew eventId source hcreates
  refine ⟨_, if_neg hunseen, fun record => ?_, fun other => ?_, fun other delete => ?_, h.stored⟩
  · rw [creates_concat, hmarker]
    show record ∈ collected.markerEvents ++ [_] ↔ _
    rw [mem_append, h.markers, mem_singleton]
    refine or_congr_right ⟨?_, fun ⟨hid, hsame⟩ => ?_⟩
    · rintro rfl
      exact ⟨rfl, rfl⟩
    · obtain ⟨rfl, rfl⟩ := Prod.mk.inj (Option.some.inj hsame)
      rw [hid]
  · show other ∈ collected.seenBlocks ++ [blockId] ↔ _
    rw [mem_append, h.seen, mem_singleton]
    constructor
    · rintro (⟨eventId, source, hcreates⟩ | rfl)
      · exact ⟨eventId, source, creates_concat.mpr (.inl hcreates)⟩
      · exact ⟨event.id, source, creates_concat.mpr (.inr ⟨rfl, hmarker⟩)⟩
    · intro ⟨eventId, given, hcreates⟩
      rcases creates_concat.mp hcreates with hold | ⟨-, hnew⟩
      · exact .inl ⟨eventId, given, hold⟩
      · exact .inr (Prod.mk.inj (Option.some.inj (hmarker.symm.trans hnew))).1.symm
  · exact (h.causes other delete).trans (deletes_append hdelete).symm

theorem causesAt_addTo {causes : RemovalCauses} {target : BlockId} {delete : Text} :
    delete ∈ causesAt (addTo causes target eventId) blockId ↔
      delete ∈ causesAt causes blockId ∨ blockId = target ∧ delete = eventId := by
  rw [causesAt, addTo, InsertionMap.get?_set]
  by_cases hsame : blockId = target
  · subst hsame
    rw [if_pos rfl, Option.getD_some, and_iff_right rfl]
    show delete ∈ (if eventId ∈ causesAt causes blockId then causesAt causes blockId else _) ↔ _
    split
    · next hmem =>
        refine (or_iff_left_of_imp ?_).symm
        rintro rfl
        exact hmem
    · exact mem_append.trans (or_congr_right mem_singleton)
  · rw [if_neg hsame]
    exact (or_iff_left fun h => hsame h.1).symm

theorem Gathers.delete (h : Gathers collected done) (heffect : event.effect = .blockDelete blockId) :
    Gathers { collected with removalCauses := addTo collected.removalCauses blockId event.id }
      (done ++ [event]) where
  markers record := (h.markers record).trans (creates_append (by rw [heffect]; rfl)).symm
  seen other := (h.seen other).trans
    (exists_congr fun _ => exists_congr fun _ => (creates_append (by rw [heffect]; rfl)).symm)
  causes other delete := by
    rw [causesAt_addTo, h.causes, deletes_concat, heffect]
    refine or_congr_right ⟨fun ⟨hsame, hid⟩ => ⟨hid.symm, by rw [hsame]⟩, fun ⟨hid, hsame⟩ => ?_⟩
    cases hsame
    exact ⟨rfl, hid.symm⟩
  stored other hhas := by
    by_cases hsame : other = blockId
    · exact ne_nil_of_mem (causesAt_addTo.mpr (.inr ⟨hsame, rfl⟩))
    · have hkept : (addTo collected.removalCauses blockId event.id).get? other =
          collected.removalCauses.get? other := InsertionMap.get?_set_of_ne hsame
      rw [InsertionMap.has, hkept] at hhas
      show ((addTo collected.removalCauses blockId event.id).get? other).getD [] ≠ []
      rw [hkept]
      exact h.stored other hhas

theorem Gathers.collect (h : Gathers collected done) (haccepted : Accepted event)
    (hnew : ∀ blockId source, event.effect.marker = some (blockId, source) →
      ∀ eventId given, ¬ Creates done eventId blockId given) :
    ∃ next, collect collected event = .ok next ∧ Gathers next (done ++ [event]) := by
  rw [Materializer.collect]
  cases heffect : event.effect with
  | bootstrap target fields =>
    have hmarker : event.effect.marker = some (target, none) := by rw [heffect]; rfl
    exact h.marker hmarker (by rw [heffect]; exact nofun) (hnew target none hmarker)
  | blockCreate target source fields =>
    have hmarker : event.effect.marker = some (target, source) := by rw [heffect]; rfl
    exact h.marker hmarker (by rw [heffect]; exact nofun) (hnew target source hmarker)
  | blockDelete target =>
    have hkept : target ≠ BOOTSTRAP_BLOCK_ID := by
      rintro rfl
      exact haccepted.deletes heffect
    exact ⟨_, if_neg hkept, h.delete heffect⟩
  | blockJoin target =>
    have hkept : target ≠ BOOTSTRAP_BLOCK_ID := by
      rintro rfl
      exact haccepted.joins heffect
    exact ⟨_, if_neg hkept, h.quiet (by rw [heffect]; rfl) (by rw [heffect]; exact nofun) _⟩
  | blockSet | markSet | textInsert | textDelete =>
    exact ⟨_, rfl, h.quiet (by rw [heffect]; rfl) (by rw [heffect]; exact nofun) collected.joinEvents⟩

theorem collectAll_spec (hnodup : (listed.map (·.id)).Nodup) (haccepted : ∀ event ∈ listed, Accepted event)
    (hunique : ∀ {first second blockId given other}, Creates listed first blockId given →
      Creates listed second blockId other → first = second) :
    ∃ collected, collectAll listed = .ok collected ∧ Gathers collected listed := by
  have hfold : ∀ (rest done : List RichTextEvent) (collected : Collected), done ++ rest = listed →
      Gathers collected done → ∃ last, rest.foldlM collect collected = .ok last ∧ Gathers last listed := by
    intro rest
    induction rest with
    | nil =>
      intro done collected hdone hgathers
      rw [append_nil] at hdone
      exact ⟨collected, rfl, hdone ▸ hgathers⟩
    | cons event rest ih =>
      intro done collected hdone hgathers
      have hmem : event ∈ listed := by
        rw [← hdone]
        exact mem_append_right _ mem_cons_self
      have hnew : ∀ blockId source, event.effect.marker = some (blockId, source) →
          ∀ eventId given, ¬ Creates done eventId blockId given := by
        rintro blockId source hmarker eventId given ⟨other, hother, hid, hcreates⟩
        have hearlier : other ∈ listed := by
          rw [← hdone]
          exact mem_append_left _ hother
        have hsame := hunique ⟨other, hearlier, rfl, hcreates⟩ ⟨event, hmem, rfl, hmarker⟩
        rw [← hdone, map_append, nodup_append'] at hnodup
        exact hnodup.2.2 (mem_map_of_mem hother)
          (hsame ▸ mem_map_of_mem mem_cons_self)
      obtain ⟨next, hnext, hgathers⟩ := hgathers.collect (haccepted event hmem) hnew
      rw [foldlM_cons, hnext]
      exact ih (done ++ [event]) next (by rw [append_assoc]; exact hdone) hgathers
  exact hfold listed [] _ rfl gathers_empty

end Collection

section Propagation

variable {parents : Parents} {causes next : RemovalCauses} {marker : MarkerEventRecord} {delete : Text}
  {markers : List MarkerEventRecord}

def Passes (parents : Parents) (causes : RemovalCauses) (marker : MarkerEventRecord) (delete : Text) :
    Prop :=
  ∃ source, marker.sourceBlockId = some source ∧ delete ∈ causesAt causes source ∧
    isAncestor marker.eventId delete parents = false

theorem propagateMarker_spec (changed : Bool) :
    (∀ blockId delete, delete ∈ causesAt (propagateMarker parents (causes, changed) marker).1 blockId ↔
      delete ∈ causesAt causes blockId ∨ blockId = marker.blockId ∧ Passes parents causes marker delete) ∧
    ((propagateMarker parents (causes, changed) marker).2 = true ↔ changed = true ∨
      ∃ delete, Passes parents causes marker delete ∧ delete ∉ causesAt causes marker.blockId) ∧
    ((∀ blockId, causes.has blockId = true → causesAt causes blockId ≠ []) →
      ∀ blockId, (propagateMarker parents (causes, changed) marker).1.has blockId = true →
        causesAt (propagateMarker parents (causes, changed) marker).1 blockId ≠ []) := by
  rw [propagateMarker]
  cases hsource : marker.sourceBlockId.bind causes.get? with
  | none =>
    have hnone : ∀ delete, ¬ Passes parents causes marker delete := by
      rintro delete ⟨source, hmarker, hmem, -⟩
      rw [hmarker, Option.bind_some] at hsource
      rw [causesAt, hsource] at hmem
      exact not_mem_nil hmem
    refine ⟨fun blockId delete => (or_iff_left fun h => hnone delete h.2).symm, ?_, fun h => h⟩
    exact (or_iff_left fun ⟨delete, hpasses, _⟩ => hnone delete hpasses).symm
  | some sourceCauses =>
    obtain ⟨source, hmarker, hget⟩ := Option.bind_eq_some_iff.mp hsource
    have hpasses : ∀ delete, Passes parents causes marker delete ↔ delete ∈ sourceCauses ∧
        isAncestor marker.eventId delete parents = false := by
      intro delete
      constructor
      · rintro ⟨other, hother, hmem, hunseen⟩
        obtain rfl := Option.some.inj (hmarker.symm.trans hother)
        rw [causesAt, hget] at hmem
        exact ⟨hmem, hunseen⟩
      · intro ⟨hmem, hunseen⟩
        refine ⟨source, hmarker, ?_, hunseen⟩
        rw [causesAt, hget]
        exact hmem
    have hadded : ∀ delete, delete ∈ sourceCauses.filter (fun cause =>
        !isAncestor marker.eventId cause parents && !decide (cause ∈ causesAt causes marker.blockId)) ↔
        Passes parents causes marker delete ∧ delete ∉ causesAt causes marker.blockId := by
      intro delete
      rw [hpasses, mem_filter, Bool.and_eq_true, Bool.not_eq_true', Bool.not_eq_true',
        decide_eq_false_iff_not, and_assoc]
    generalize hlist : sourceCauses.filter (fun cause =>
        !isAncestor marker.eventId cause parents && !decide (cause ∈ causesAt causes marker.blockId)) =
      added at hadded
    have hall : ∀ delete, delete ∈ causesAt causes marker.blockId ++ added ↔
        delete ∈ causesAt causes marker.blockId ∨ Passes parents causes marker delete := by
      intro delete
      rw [mem_append, hadded]
      by_cases hmem : delete ∈ causesAt causes marker.blockId
      · exact ⟨fun _ => .inl hmem, fun _ => .inl hmem⟩
      · rw [or_iff_right hmem, or_iff_right hmem, and_iff_left hmem]
    dsimp only
    rw [← causesAt, hlist]
    refine ⟨fun blockId delete => ?_, ?_, fun hstored blockId hhas => ?_⟩
    · split
      · next hnil =>
          have hnone := hall delete
          rw [hnil] at hnone
          refine (or_iff_left fun ⟨_, h⟩ => ?_).symm
          exact not_mem_nil (hnone.mpr (.inr h))
      · rw [causesAt, InsertionMap.get?_set]
        by_cases hsame : blockId = marker.blockId
        · rw [if_pos hsame, Option.getD_some, hall, hsame, and_iff_right rfl]
        · rw [if_neg hsame]
          exact (or_iff_left fun h => hsame h.1).symm
    · rw [Bool.or_eq_true, Bool.not_eq_true', isEmpty_eq_false_iff_exists_mem]
      exact or_congr_right (exists_congr hadded)
    · split at hhas
      · next hnil =>
          rw [if_pos hnil]
          exact hstored blockId hhas
      · next hne =>
          rw [if_neg hne, causesAt, InsertionMap.get?_set]
          rw [InsertionMap.has_set, Bool.or_eq_true, decide_eq_true_eq] at hhas
          by_cases hsame : blockId = marker.blockId
          · rw [if_pos hsame]
            exact hne
          · rw [if_neg hsame]
            exact hstored blockId (hhas.resolve_left hsame)

theorem passes_mono (h : ∀ blockId delete, delete ∈ causesAt causes blockId → delete ∈ causesAt next blockId)
    (hpasses : Passes parents causes marker delete) : Passes parents next marker delete := by
  obtain ⟨source, hmarker, hmem, hunseen⟩ := hpasses
  exact ⟨source, hmarker, h source delete hmem, hunseen⟩

theorem markers_mono (changed : Bool) (h : delete ∈ causesAt causes blockId) :
    delete ∈ causesAt (markers.foldl (propagateMarker parents) (causes, changed)).1 blockId := by
  induction markers generalizing causes changed with
  | nil => exact h
  | cons marker markers ih => exact ih _ (((propagateMarker_spec changed).1 blockId delete).mpr (.inl h))

theorem markers_sound {motive : BlockId → Text → Prop} (changed : Bool)
    (hpass : ∀ marker ∈ markers, ∀ source delete, marker.sourceBlockId = some source →
      isAncestor marker.eventId delete parents = false → motive source delete → motive marker.blockId delete)
    (hcauses : ∀ blockId delete, delete ∈ causesAt causes blockId → motive blockId delete)
    (h : delete ∈ causesAt (markers.foldl (propagateMarker parents) (causes, changed)).1 blockId) :
    motive blockId delete := by
  induction markers generalizing causes changed with
  | nil => exact hcauses blockId delete h
  | cons marker markers ih =>
    rw [forall_mem_cons] at hpass
    refine ih _ hpass.2 (fun other removal hmem => ?_) h
    rcases ((propagateMarker_spec changed).1 other removal).mp hmem with hold | ⟨rfl, source, hsource, hmem, hunseen⟩
    · exact hcauses other removal hold
    · exact hpass.1 source removal hsource hunseen (hcauses source removal hmem)

theorem markers_stored (changed : Bool)
    (h : ∀ blockId, causes.has blockId = true → causesAt causes blockId ≠ []) :
    ∀ blockId, (markers.foldl (propagateMarker parents) (causes, changed)).1.has blockId = true →
      causesAt (markers.foldl (propagateMarker parents) (causes, changed)).1 blockId ≠ [] := by
  induction markers generalizing causes changed with
  | nil => exact h
  | cons marker markers ih => exact ih _ ((propagateMarker_spec changed).2.2 h)

/-- A pass that reports a change has added a removal. -/
theorem markers_gain (changed : Bool)
    (h : (markers.foldl (propagateMarker parents) (causes, changed)).2 = true) : changed = true ∨
      ∃ marker ∈ markers, ∃ delete, delete ∉ causesAt causes marker.blockId ∧
        delete ∈ causesAt (markers.foldl (propagateMarker parents) (causes, changed)).1 marker.blockId := by
  induction markers generalizing causes changed with
  | nil => exact .inl h
  | cons marker markers ih =>
    obtain ⟨hcauses, hchanged, -⟩ := @propagateMarker_spec parents causes marker changed
    rw [foldl_cons] at h ⊢
    generalize propagateMarker parents (causes, changed) marker = state at h hcauses hchanged
    obtain ⟨next, grown⟩ := state
    rcases ih grown h with hgrown | ⟨other, hother, delete, hbefore, hafter⟩
    · rcases hchanged.mp hgrown with hchanged | ⟨delete, hpasses, hnew⟩
      · exact .inl hchanged
      · refine .inr ⟨marker, mem_cons_self, delete, hnew, markers_mono grown ?_⟩
        exact (hcauses _ delete).mpr (.inr ⟨rfl, hpasses⟩)
    · refine .inr ⟨other, mem_cons_of_mem _ hother, delete, fun hmem => hbefore ?_, hafter⟩
      exact (hcauses _ delete).mpr (.inl hmem)

theorem markers_quiet (changed : Bool)
    (h : (markers.foldl (propagateMarker parents) (causes, changed)).2 = false) : changed = false ∧
      (∀ blockId delete, delete ∈
        causesAt (markers.foldl (propagateMarker parents) (causes, changed)).1 blockId ↔
          delete ∈ causesAt causes blockId) ∧
      ∀ marker ∈ markers, ∀ delete, Passes parents causes marker delete →
        delete ∈ causesAt causes marker.blockId := by
  induction markers generalizing causes changed with
  | nil => exact ⟨h, fun _ _ => Iff.rfl, fun _ h => absurd h not_mem_nil⟩
  | cons marker markers ih =>
    obtain ⟨hcauses, hchanged, -⟩ := @propagateMarker_spec parents causes marker changed
    rw [foldl_cons] at h ⊢
    generalize propagateMarker parents (causes, changed) marker = state at h hcauses hchanged
    obtain ⟨next, grown⟩ := state
    obtain ⟨hgrown, hsame, hclosed⟩ := ih grown h
    have hquiet := mt hchanged.mpr (Bool.eq_false_iff.mp hgrown)
    rw [not_or] at hquiet
    have hhere : ∀ delete, Passes parents causes marker delete → delete ∈ causesAt causes marker.blockId :=
      fun delete hpasses => by_contra fun hnew => hquiet.2 ⟨delete, hpasses, hnew⟩
    have hnext : ∀ blockId delete, delete ∈ causesAt next blockId ↔ delete ∈ causesAt causes blockId := by
      intro blockId delete
      refine (hcauses blockId delete).trans (or_iff_left_of_imp ?_)
      rintro ⟨rfl, hpasses⟩
      exact hhere delete hpasses
    refine ⟨Bool.eq_false_iff.mpr hquiet.1, fun blockId delete => ?_, ?_⟩
    · exact (hsame blockId delete).trans (hnext blockId delete)
    · refine forall_mem_cons.mpr ⟨hhere, fun other hother delete hpasses => ?_⟩
      rw [← hnext]
      refine hclosed other hother delete (passes_mono ?_ hpasses)
      exact fun blockId delete => (hnext blockId delete).mpr

end Propagation

section Removals

variable {collected : Collected}

/-- Removals that have been passed on as far as the events allow. -/
structure Sound (listed : List RichTextEvent) (causes : RemovalCauses) : Prop where
  removed : ∀ blockId delete, delete ∈ causesAt causes blockId → RemovedBy listed delete blockId
  direct : ∀ blockId delete, Deletes listed delete blockId → delete ∈ causesAt causes blockId
  stored : ∀ blockId, causes.has blockId = true → causesAt causes blockId ≠ []

theorem Gathers.sound (h : Gathers collected listed) : Sound listed collected.removalCauses where
  removed blockId delete hmem := removedBy_iff.mpr (.inl ((h.causes blockId delete).mp hmem))
  direct blockId delete := (h.causes blockId delete).mpr
  stored := h.stored

theorem Sound.pass (h : Sound listed causes) (hnodup : (listed.map (·.id)).Nodup)
    (hgathers : Gathers collected listed) :
    Sound listed (propagatePass (parentsOf listed) collected.markerEvents causes).1 where
  removed blockId delete hmem := by
    refine markers_sound (motive := fun blockId delete => RemovedBy listed delete blockId) false
      (fun marker hmarker source delete hsource hunseen hremoved => ?_) h.removed hmem
    have hcreates := (hgathers.markers marker).mp hmarker
    rw [hsource] at hcreates
    refine removedBy_iff.mpr (.inr ⟨source, marker.eventId, hcreates, hremoved, ?_⟩)
    rw [← isAncestor_iff hnodup, hunseen]
    exact Bool.false_ne_true
  direct blockId delete hdelete := markers_mono false (h.direct blockId delete hdelete)
  stored := markers_stored false h.stored

/-- The propagation ends with the removals that the events say. -/
theorem propagate_spec (hnodup : (listed.map (·.id)).Nodup) (hgathers : Gathers collected listed) :
    let causes := propagate (parentsOf listed) collected.markerEvents
      (collected.markerEvents.length * listed.length + 1) collected.removalCauses
    (∀ blockId delete, delete ∈ causesAt causes blockId ↔ RemovedBy listed delete blockId) ∧
      ∀ blockId, causes.has blockId = true → causesAt causes blockId ≠ [] := by
  have hends := @DoWhile.loop_ends _ (BlockId × Text) (propagatePass (parentsOf listed) collected.markerEvents)
    (Sound listed) (fun causes pair => pair.2 ∈ causesAt causes pair.1)
    ((collected.markerEvents.map (·.blockId)).toFinset ×ˢ (listed.map (·.id)).toFinset)
    (collected.markerEvents.length * listed.length + 1) collected.removalCauses
    (fun causes h => h.pass hnodup hgathers) (fun causes h pair => markers_mono false) ?_ hgathers.sound ?_
  · obtain ⟨last, hsound, hquiet, hloop⟩ := hends
    obtain ⟨-, hsame, hclosed⟩ := markers_quiet false hquiet
    dsimp only
    rw [propagate, hloop]
    refine ⟨fun blockId delete => (hsame blockId delete).trans ⟨hsound.removed blockId delete, ?_⟩, ?_⟩
    · intro hremoved
      refine hremoved.induction (fun target => hsound.direct target delete) ?_
      intro source child marker hcreates hunseen hmem
      have hmarker := (hgathers.markers ⟨child, marker, some source⟩).mpr hcreates
      refine hclosed _ hmarker delete ⟨source, rfl, hmem, ?_⟩
      rw [Bool.eq_false_iff, Ne, isAncestor_iff hnodup]
      exact hunseen
    · exact (hsound.pass hnodup hgathers).stored
  · intro causes hsound hchanged
    obtain hfalse | ⟨marker, hmarker, delete, hbefore, hafter⟩ := markers_gain false hchanged
    · cases hfalse
    · refine ⟨(marker.blockId, delete), ?_, hbefore, hafter⟩
      have hid := ((hsound.pass hnodup hgathers).removed _ _ hafter).mem_ids
      rw [ids_historyOf] at hid
      rw [Finset.mem_product, mem_toFinset, mem_toFinset]
      exact ⟨mem_map_of_mem hmarker, hid⟩
  · rw [Finset.card_product]
    refine Nat.lt_succ_of_le (Nat.mul_le_mul ?_ ?_)
    · exact Nat.le_trans (toFinset_card_le _) (Nat.le_of_eq (length_map _))
    · exact Nat.le_trans (toFinset_card_le _) (Nat.le_of_eq (length_map _))

theorem removalCauses_spec (hnodup : (listed.map (·.id)).Nodup) (haccepted : ∀ event ∈ listed, Accepted event)
    (hunique : ∀ {first second blockId given other}, Creates listed first blockId given →
      Creates listed second blockId other → first = second) :
    ∃ causes, removalCauses listed = .ok causes ∧
      ∀ blockId, causes.has blockId = true ↔ Hidden listed blockId := by
  obtain ⟨collected, hcollected, hgathers⟩ := collectAll_spec hnodup haccepted hunique
  obtain ⟨hcauses, hstored⟩ := propagate_spec hnodup hgathers
  refine ⟨_, by rw [removalCauses, hcollected]; rfl, fun blockId => ⟨fun hhas => ?_, fun hhidden => ?_⟩⟩
  · obtain ⟨delete, hdelete⟩ := exists_mem_of_ne_nil _ (hstored blockId hhas)
    exact ⟨delete, (hcauses blockId delete).mp hdelete⟩
  · obtain ⟨delete, hremoved⟩ := hhidden
    have hmem := (hcauses blockId delete).mpr hremoved
    rw [InsertionMap.has_iff]
    rw [causesAt] at hmem
    cases hget : InsertionMap.get? _ blockId with
    | none => rw [hget] at hmem; cases hmem
    | some causes => exact ⟨causes, rfl⟩

end Removals

end Materializer
end Softmaple.BlockModel

namespace Softmaple.BlockModel

open List

variable {events listed : List RichTextEvent} {blockId : BlockId} {eventId delete : Text}

section Permutations

theorem maximal_perm (h : listed.Perm events) {field : FieldName} {value : field.Value} :
    MaximalAssignment listed blockId field eventId value ↔
      MaximalAssignment events blockId field eventId value := by
  rw [MaximalAssignment, MaximalAssignment, assigns_perm h, ancestor_perm h]
  refine and_congr_right fun _ => forall_congr' fun other => forall_congr' fun given => ?_
  rw [assigns_perm h]

theorem isWinner_perm (h : listed.Perm events) {field : FieldName} {value : field.Value} :
    IsWinner listed blockId field value ↔ IsWinner events blockId field value := by
  simp only [IsWinner, maximal_perm h, assigns_perm h]

theorem removedBy_of_perm (h : listed.Perm events) (hremoved : RemovedBy listed delete blockId) :
    RemovedBy events delete blockId := by
  refine hremoved.induction (fun target hdeletes => ?_) fun source child marker hcreates hunseen ih => ?_
  · exact removedBy_iff.mpr (.inl ((deletes_perm h).mp hdeletes))
  · rw [ancestor_perm h] at hunseen
    exact removedBy_iff.mpr (.inr ⟨source, marker, (creates_perm h).mp hcreates, ih, hunseen⟩)

theorem hidden_perm (h : listed.Perm events) : Hidden listed blockId ↔ Hidden events blockId :=
  exists_congr fun _ => ⟨removedBy_of_perm h, removedBy_of_perm h.symm⟩

end Permutations

namespace BlockMetas

variable {state next : BlockMetas} {event : RichTextEvent}

theorem accepted_of_applyEffect (h : state.applyEffect event.id event.effect = .ok next) :
    Materializer.Accepted event where
  deletes heffect := by
    rw [heffect, applyEffect, if_pos rfl] at h
    cases h
  joins heffect := by
    rw [heffect, applyEffect, if_pos rfl] at h
    cases h

theorem MetaRun.accepted (h : MetaRun events state) : ∀ event ∈ events, Materializer.Accepted event := by
  induction h with
  | empty => exact fun event hevent => absurd hevent not_mem_nil
  | resolve _ _ ih => exact ih
  | @integrate events event state next _ hresult ih =>
    refine forall_mem_append.mpr ⟨ih, forall_mem_singleton.mpr ?_⟩
    obtain ⟨causal, -, hresult⟩ := StateMethod.except_bind_eq_ok.mp hresult
    exact accepted_of_applyEffect hresult

/-- Field winners and removals are functions of the event set, and the materializer computes the same. -/
theorem MetaRun.blocks_eq_events (h : MetaRun events state) (hlisted : listed.Perm events) :
    (∀ blockId field, IsWinner events blockId field ((state.resolveFields blockId).1.get field) ∧
      ∀ value, IsWinner events blockId field value → value = (state.resolveFields blockId).1.get field) ∧
    (∀ blockId, (metaOf state.blocks blockId).causes ≠ [] ↔ Hidden events blockId) ∧
    (∀ other, MetaRun listed other → ∀ blockId,
      (other.resolveFields blockId).1 = (state.resolveFields blockId).1 ∧
      ((metaOf other.blocks blockId).causes ≠ [] ↔ (metaOf state.blocks blockId).causes ≠ [])) ∧
    (∀ eventId blockId source, Creates events eventId blockId source →
      Materializer.fieldsOf listed blockId = .ok (state.resolveFields blockId).1) ∧
    ∃ causes, Materializer.removalCauses listed = .ok causes ∧
      ∀ blockId, causes.has blockId = true ↔ (metaOf state.blocks blockId).causes ≠ [] := by
  have hfollows := h.follows
  have hwinner : ∀ blockId field, IsWinner events blockId field ((state.resolveFields blockId).1.get field) := by
    intro blockId field
    rw [resolveFields_fst hfollows.describes, CompleteBlockFields.get_ofWinners]
    exact hfollows.winner blockId field
  have hfields : ∀ {blockId} {fields : CompleteBlockFields},
      (∀ field, IsWinner events blockId field (fields.get field)) → fields = (state.resolveFields blockId).1 :=
    fun hother => CompleteBlockFields.ext_get fun field =>
      (hother field).unique hfollows.ordered (hwinner _ field)
  refine ⟨fun blockId field => ⟨hwinner blockId field, fun value hvalue => ?_⟩, hfollows.hidden_iff,
    fun other hother blockId => ⟨hfields fun field => ?_, ?_⟩, fun eventId blockId source hcreates => ?_, ?_⟩
  · exact hvalue.unique hfollows.ordered (hwinner blockId field)
  · rw [← isWinner_perm hlisted, resolveFields_fst hother.follows.describes, CompleteBlockFields.get_ofWinners]
    exact hother.follows.winner blockId field
  · rw [hother.follows.hidden_iff, hfollows.hidden_iff, hidden_perm hlisted]
  · obtain ⟨fields, hresult, hwinners⟩ := Materializer.fieldsOf_spec hlisted hfollows.ordered hcreates
    rw [hresult, hfields hwinners]
  · have hunique : ∀ {first second blockId given other}, Creates listed first blockId given →
        Creates listed second blockId other → first = second := by
      intro first second blockId given other hfirst hsecond
      rw [creates_perm hlisted] at hfirst hsecond
      exact (hfollows.describes.creates_unique hfirst hsecond).1
    obtain ⟨causes, hcauses, hhidden⟩ := Materializer.removalCauses_spec (ids_perm hlisted hfollows.ordered)
      (fun event hevent => h.accepted event (hlisted.mem_iff.mp hevent)) hunique
    refine ⟨causes, hcauses, fun blockId => ?_⟩
    rw [hhidden, hidden_perm hlisted, hfollows.hidden_iff]

/-- A block, a child split from it, and a delete of the block that has not seen the split. -/
def splitEvents : List RichTextEvent :=
  let event (id : Nat) (parents : List Nat) (effect : RichTextEffect) : RichTextEvent :=
    { id := [Utf8.unit id], parentVersion := parents.map fun parent => [Utf8.unit parent], timestamp := 0
      operation := .insert 0 BLOCK_MARKER, effect }
  [event 0 [] (.bootstrap BOOTSTRAP_BLOCK_ID DEFAULT_BLOCK_FIELDS),
    event 1 [0] (.blockCreate (text "source") (some BOOTSTRAP_BLOCK_ID) DEFAULT_BLOCK_FIELDS),
    event 2 [1] (.blockCreate (text "child") (some (text "source")) DEFAULT_BLOCK_FIELDS),
    event 3 [1] (.blockDelete (text "source"))]

/-- The delete removes the child too, also where the materializer gets the events in reverse. -/
theorem MetaRun.blocks_eq_events_split : ∃ state, MetaRun splitEvents state ∧
    (metaOf state.blocks (text "child")).causes ≠ [] ∧
    ∃ causes, Materializer.removalCauses splitEvents.reverse = .ok causes ∧
      ∀ blockId, causes.has blockId = true ↔ (metaOf state.blocks blockId).causes ≠ [] := by
  have hrun : ∃ state, MetaRun splitEvents state ∧
      (metaOf state.blocks (text "child")).causes ≠ [] :=
    ⟨_, .integrate (.integrate (.integrate (.integrate .empty rfl) rfl) rfl) rfl, by decide⟩
  obtain ⟨state, hrun, hchild⟩ := hrun
  exact ⟨state, hrun, hchild, (hrun.blocks_eq_events (reverse_perm splitEvents)).2.2.2.2⟩

end BlockMetas
end Softmaple.BlockModel
