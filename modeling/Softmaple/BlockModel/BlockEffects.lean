import Softmaple.BlockModel.BlockMetas

/-!
What a set of events says about its blocks: the assignments of a field that no later one has seen, and
the removals that reach a block along the splits they have not seen.
-/
namespace Softmaple.BlockModel

open Relation List

def historyOf (events : List RichTextEvent) : History :=
  events.map fun event => (event.id, event.parentVersion)

def RichTextEffect.patch : RichTextEffect → Option (BlockId × BlockFieldPatch)
  | .bootstrap blockId fields => some (blockId, fields.patch)
  | .blockCreate blockId _ fields => some (blockId, fields.patch)
  | .blockSet blockId fields => some (blockId, fields)
  | _ => none

def RichTextEffect.marker : RichTextEffect → Option (BlockId × Option BlockId)
  | .bootstrap blockId _ => some (blockId, none)
  | .blockCreate blockId sourceBlockId _ => some (blockId, sourceBlockId)
  | _ => none

def Assigns (events : List RichTextEvent) (blockId : BlockId) (field : FieldName) (eventId : Text)
    (value : field.Value) : Prop :=
  ∃ event ∈ events, event.id = eventId ∧ ∃ patch, event.effect.patch = some (blockId, patch) ∧
    patch.get field = some value

def Creates (events : List RichTextEvent) (eventId : Text) (blockId : BlockId)
    (source : Option BlockId) : Prop :=
  ∃ event ∈ events, event.id = eventId ∧ event.effect.marker = some (blockId, source)

def Deletes (events : List RichTextEvent) (eventId : Text) (blockId : BlockId) : Prop :=
  ∃ event ∈ events, event.id = eventId ∧ event.effect = .blockDelete blockId

def MaximalAssignment (events : List RichTextEvent) (blockId : BlockId) (field : FieldName)
    (eventId : Text) (value : field.Value) : Prop :=
  Assigns events blockId field eventId value ∧
    ∀ other given, Assigns events blockId field other given →
      ¬ (historyOf events).Ancestor eventId other

/-- The value of the maximal assignment with the largest ID, the default where there is none. -/
def IsWinner (events : List RichTextEvent) (blockId : BlockId) (field : FieldName)
    (value : field.Value) : Prop :=
  (∃ eventId, MaximalAssignment events blockId field eventId value ∧
    ∀ other given, MaximalAssignment events blockId field other given → other ≤ eventId) ∨
  (∀ eventId given, ¬ Assigns events blockId field eventId given) ∧ value = DEFAULT_BLOCK_FIELDS.get field

inductive SplitPath (events : List RichTextEvent) (top : BlockId) : List Text → BlockId → Prop where
  | top : SplitPath events top [] top
  | split {markers : List Text} {source child : BlockId} {marker : Text}
      (path : SplitPath events top markers source) (creates : Creates events marker child (some source)) :
      SplitPath events top (markers ++ [marker]) child

def RemovedBy (events : List RichTextEvent) (delete : Text) (blockId : BlockId) : Prop :=
  ∃ target markers, Deletes events delete target ∧ SplitPath events target markers blockId ∧
    ∀ marker ∈ markers, ¬ (historyOf events).Ancestor marker delete

def Hidden (events : List RichTextEvent) (blockId : BlockId) : Prop :=
  ∃ delete, RemovedBy events delete blockId

section Histories

namespace History

variable {history : History} {eventId child parent : Text} {parents : List Text}

theorem parentOf_concat (hnew : eventId ∉ history.map Prod.fst) (hchild : child ≠ eventId) :
    (history ++ [(eventId, parents)]).ParentOf parent child ↔ history.ParentOf parent child := by
  constructor
  · rintro ⟨given, hmem, hgiven⟩
    rcases mem_append.mp hmem with hold | hhere
    · exact ⟨given, hold, hgiven⟩
    · obtain ⟨rfl, -⟩ := Prod.mk.inj (mem_singleton.mp hhere)
      exact absurd rfl hchild
  · rintro ⟨given, hmem, hgiven⟩
    exact ⟨given, mem_append_left _ hmem, hgiven⟩

section

variable (h : history.Causal)
include h

theorem Causal.ids (hparent : history.ParentOf parent child) :
    parent ∈ history.map Prod.fst ∧ child ∈ history.map Prod.fst := by
  obtain ⟨given, hmem, hgiven⟩ := hparent
  obtain ⟨lv, hlv⟩ := getElem?_of_mem hmem
  obtain ⟨before, grandparents, -, hbefore⟩ := h.earlier hlv hgiven
  exact ⟨mem_map_of_mem (mem_of_getElem? hbefore), mem_map_of_mem hmem⟩

theorem Causal.ancestor_ids (hancestor : history.Ancestor parent child) :
    parent ∈ history.map Prod.fst ∧ child ∈ history.map Prod.fst := by
  induction hancestor with
  | single hstep => exact h.ids hstep
  | tail _ hstep ih => exact ⟨ih.1, (h.ids hstep).2⟩

theorem Causal.ancestor_concat (hnew : eventId ∉ history.map Prod.fst) (hchild : child ≠ eventId) :
    (history ++ [(eventId, parents)]).Ancestor parent child ↔ history.Ancestor parent child := by
  constructor
  · intro hancestor
    induction hancestor with
    | single hstep => exact .single ((parentOf_concat hnew hchild).mp hstep)
    | @tail middle last _ hstep ih =>
      have hold := (parentOf_concat hnew hchild).mp hstep
      refine .tail (ih ?_) hold
      rintro rfl
      exact hnew (h.ids hold).1
  · have hkept : history.ParentOf ≤ (history ++ [(eventId, parents)]).ParentOf :=
      fun first second ⟨given, hmem, hgiven⟩ => ⟨given, mem_append_left _ hmem, hgiven⟩
    exact TransGen.mono hkept parent child

theorem Causal.concat (hnew : eventId ∉ history.map Prod.fst)
    (hparents : ∀ parent ∈ parents, parent ∈ history.map Prod.fst) :
    (history ++ [(eventId, parents)]).Causal where
  nodup := by
    rw [map_append]
    refine nodup_append'.mpr ⟨h.nodup, nodup_singleton _, ?_⟩
    intro other hother hsame
    rw [map_singleton, mem_singleton] at hsame
    subst hsame
    exact hnew hother
  earlier := by
    intro lv other given parent hlv hparent
    by_cases hlt : lv < history.length
    · rw [getElem?_append_left hlt] at hlv
      obtain ⟨before, grandparents, hbefore, hget⟩ := h.earlier hlv hparent
      refine ⟨before, grandparents, hbefore, ?_⟩
      rw [getElem?_append_left (Nat.lt_trans hbefore hlt), hget]
    · have hlength := (List.getElem?_eq_some_iff.mp hlv).1
      rw [length_append, length_singleton] at hlength
      obtain rfl : lv = history.length := by omega
      rw [getElem?_append_right (Nat.le_refl _), Nat.sub_self] at hlv
      obtain ⟨-, rfl⟩ := Prod.mk.inj (Option.some.inj hlv)
      obtain ⟨entry, hentry, rfl⟩ := mem_map.mp (hparents parent hparent)
      obtain ⟨before, hbefore⟩ := getElem?_of_mem hentry
      have hearlier := (List.getElem?_eq_some_iff.mp hbefore).1
      refine ⟨before, entry.2, hearlier, ?_⟩
      rw [getElem?_append_left hearlier, hbefore]

theorem Causal.not_ancestor_new (hnew : eventId ∉ history.map Prod.fst)
    (hparents : ∀ parent ∈ parents, parent ∈ history.map Prod.fst) :
    ¬ (history ++ [(eventId, parents)]).Ancestor eventId child := by
  have hold : ∀ {other}, other ≠ eventId → ¬ (history ++ [(eventId, parents)]).Ancestor eventId other :=
    fun hother hancestor => hnew (h.ancestor_ids ((h.ancestor_concat hnew hother).mp hancestor)).1
  intro hancestor
  by_cases hchild : child = eventId
  · obtain ⟨parent, hrest, given, hmem, hgiven⟩ := TransGen.tail'_iff.mp hancestor
    have hbefore : parent ≠ eventId := by
      rintro rfl
      rcases mem_append.mp hmem with hfirst | hhere
      · exact hnew (hchild ▸ mem_map_of_mem hfirst)
      · obtain ⟨-, rfl⟩ := Prod.mk.inj (mem_singleton.mp hhere)
        exact hnew (hparents _ hgiven)
    rcases reflTransGen_iff_eq_or_transGen.mp hrest with hsame | hlater
    · exact hbefore hsame
    · exact hold hbefore hlater
  · exact hold hchild hancestor

end

end History

end Histories

section Removals

variable {events : List RichTextEvent} {delete : Text} {blockId : BlockId}

theorem removedBy_iff : RemovedBy events delete blockId ↔ Deletes events delete blockId ∨
    ∃ source marker, Creates events marker blockId (some source) ∧ RemovedBy events delete source ∧
      ¬ (historyOf events).Ancestor marker delete := by
  constructor
  · intro ⟨target, markers, hdeletes, hpath, hunseen⟩
    cases hpath with
    | top => exact .inl hdeletes
    | @split markers source child marker path creates =>
      exact .inr ⟨source, marker, creates, ⟨target, markers, hdeletes, path,
        fun other hother => hunseen other (mem_append_left _ hother)⟩,
        hunseen marker (mem_append_right _ (mem_singleton_self marker))⟩
  · rintro (hdeletes | ⟨source, marker, hcreates, ⟨target, markers, hdeletes, hpath, hmarkers⟩, hunseen⟩)
    · exact ⟨blockId, [], hdeletes, .top, nofun⟩
    · refine ⟨target, markers ++ [marker], hdeletes, .split hpath hcreates, ?_⟩
      intro other hother
      rcases mem_append.mp hother with hold | hhere
      · exact hmarkers other hold
      · exact mem_singleton.mp hhere ▸ hunseen

theorem RemovedBy.induction {motive : BlockId → Prop} (h : RemovedBy events delete blockId)
    (direct : ∀ target, Deletes events delete target → motive target)
    (inherited : ∀ source child marker, Creates events marker child (some source) →
      ¬ (historyOf events).Ancestor marker delete → motive source → motive child) : motive blockId := by
  obtain ⟨target, markers, hdeletes, hpath, hunseen⟩ := h
  induction hpath with
  | top => exact direct _ hdeletes
  | @split markers source child marker path creates ih =>
    exact inherited source child marker creates
      (hunseen marker (mem_append_right _ (mem_singleton_self marker)))
      (ih fun other hother => hunseen other (mem_append_left _ hother))

end Removals

end Softmaple.BlockModel
