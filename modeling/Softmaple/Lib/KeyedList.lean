import Mathlib.Data.List.Nodup
import Mathlib.Data.List.Perm.Basic

/-!
Lists with at most one element to a key, as insertion-ordered maps and hash
tables keep them: an element put under a key that is there takes its place,
another is appended. Up to the order a list is the set of its elements, and
`find` and `put` are determined by it.
-/
namespace KeyedList

open List

variable {α β κ : Type*} [DecidableEq κ] (key : α → κ)

def Unique (items : List α) : Prop := (items.map key).Nodup

def find (wanted : κ) (items : List α) : Option α := items.find? fun item => key item = wanted

def put (item : α) (items : List α) : List α :=
  if key item ∈ items.map key then
    items.map fun other => if key other = key item then item else other
  else items ++ [item]

def delete (wanted : κ) (items : List α) : List α := items.filter fun item => key item ≠ wanted

variable {key}

omit [DecidableEq κ] in
theorem Unique.filter {items : List α} (h : Unique key items) (keep : α → Bool) :
    Unique key (items.filter keep) :=
  (filter_sublist.map key).nodup h

omit [DecidableEq κ] in
theorem Unique.perm {items others : List α} (h : Unique key items) (hperm : items.Perm others) :
    Unique key others :=
  (hperm.map key).nodup_iff.mp h

omit [DecidableEq κ] in
theorem Unique.eq_of_mem {items : List α} (h : Unique key items) {item other : α}
    (hitem : item ∈ items) (hother : other ∈ items) (hkey : key item = key other) : item = other :=
  inj_on_of_nodup_map h hitem hother hkey

theorem find_mem {wanted : κ} {items : List α} {item : α} (h : find key wanted items = some item) :
    item ∈ items ∧ key item = wanted := by
  unfold find at h
  have hkey := find?_some h
  exact ⟨mem_of_find?_eq_some h, of_decide_eq_true hkey⟩

theorem find_eq_some {wanted : κ} {items : List α} {item : α} (hunique : Unique key items)
    (hmem : item ∈ items) (hkey : key item = wanted) : find key wanted items = some item := by
  cases hfound : find key wanted items with
  | none => exact absurd (decide_eq_true hkey) (find?_eq_none.mp hfound item hmem)
  | some other =>
    obtain ⟨hother, hsame⟩ := find_mem hfound
    rw [hunique.eq_of_mem hother hmem (hsame.trans hkey.symm)]

theorem find_eq_none {wanted : κ} {items : List α} :
    find key wanted items = none ↔ ∀ item ∈ items, key item ≠ wanted := by
  unfold find
  rw [find?_eq_none]
  constructor
  · intro h item hmem hkey
    exact h item hmem (decide_eq_true hkey)
  · intro h item hmem hkey
    exact h item hmem (of_decide_eq_true hkey)

theorem find_perm {wanted : κ} {items others : List α} (hunique : Unique key items)
    (hperm : items.Perm others) : find key wanted items = find key wanted others := by
  cases hfound : find key wanted items with
  | none =>
    symm
    rw [find_eq_none] at hfound ⊢
    intro other hother
    exact hfound other (hperm.mem_iff.mpr hother)
  | some item =>
    obtain ⟨hmem, hkey⟩ := find_mem hfound
    exact (find_eq_some (hunique.perm hperm) (hperm.mem_iff.mp hmem) hkey).symm

theorem mem_delete {wanted : κ} {items : List α} {item : α} :
    item ∈ delete key wanted items ↔ item ∈ items ∧ key item ≠ wanted := by
  rw [delete, mem_filter, decide_eq_true_eq]

theorem delete_of_absent {wanted : κ} {items : List α} (h : ∀ item ∈ items, key item ≠ wanted) :
    delete key wanted items = items :=
  filter_eq_self.mpr fun item hmem => decide_eq_true (h item hmem)

theorem mem_put {item other : α} {items : List α} (h : other ∈ put key item items) :
    other = item ∨ other ∈ items ∧ key other ≠ key item := by
  unfold put at h
  split at h
  · obtain ⟨old, hold, heq⟩ := mem_map.mp h
    split at heq
    · exact .inl heq.symm
    · next hne =>
        rw [← heq]
        exact .inr ⟨hold, hne⟩
  · next habsent =>
      cases mem_append.mp h with
      | inl hold =>
        refine .inr ⟨hold, fun hsame => habsent ?_⟩
        rw [← hsame]
        exact mem_map_of_mem hold
      | inr hnew => exact .inl (mem_singleton.mp hnew)

theorem put_perm {item : α} {items : List α} (hunique : Unique key items) :
    (put key item items).Perm (item :: delete key (key item) items) := by
  unfold put
  split
  · next hmem =>
      induction items with
      | nil => cases hmem
      | cons head items ih =>
        obtain ⟨hfresh, hrest⟩ := nodup_cons.mp hunique
        by_cases hkey : key head = key item
        · have hothers : ∀ other ∈ items, key other ≠ key item := by
            intro other hother hsame
            exact hfresh (hkey ▸ hsame ▸ mem_map_of_mem hother)
          have hkept : (items.map fun other => if key other = key item then item else other) =
              items := by
            refine (map_congr_left fun other hother => if_neg (hothers other hother)).trans ?_
            exact map_id items
          have hdropped : delete key (key item) (head :: items) = items := by
            refine (filter_cons_of_neg ?_).trans (delete_of_absent hothers)
            rw [decide_eq_true_eq]
            exact not_not_intro hkey
          rw [map_cons, if_pos hkey, hkept, hdropped]
        · have hlater : key item ∈ items.map key := by
            cases mem_cons.mp hmem with
            | inl heq => exact absurd heq.symm hkey
            | inr hin => exact hin
          rw [map_cons, if_neg hkey]
          have hkeeps : delete key (key item) (head :: items) =
              head :: delete key (key item) items :=
            filter_cons_of_pos (decide_eq_true hkey)
          rw [hkeeps]
          exact ((ih hrest hlater).cons head).trans (List.Perm.swap _ _ _)
  · next hmem =>
      have habsent : ∀ other ∈ items, key other ≠ key item := fun other hother hsame =>
        hmem (hsame ▸ mem_map_of_mem hother)
      rw [delete_of_absent habsent]
      exact perm_append_singleton item items

theorem mem_put_iff {item other : α} {items : List α} (hunique : Unique key items) :
    other ∈ put key item items ↔ other = item ∨ other ∈ items ∧ key other ≠ key item := by
  rw [(put_perm hunique).mem_iff, mem_cons, mem_delete]

theorem put_of_mem {item : α} {items : List α} (hunique : Unique key items) (hmem : item ∈ items) :
    put key item items = items := by
  unfold put
  rw [if_pos (mem_map_of_mem hmem)]
  refine (map_congr_left fun other hother => ?_).trans (map_id items)
  split
  · next hsame => exact hunique.eq_of_mem hmem hother hsame.symm
  · rfl

theorem length_put_of_absent {item : α} {items : List α} (h : key item ∉ items.map key) :
    (put key item items).length = items.length + 1 := by
  unfold put
  rw [if_neg h, length_append]
  rfl

theorem unique_put {item : α} {items : List α} (hunique : Unique key items) :
    Unique key (put key item items) := by
  have hcons : Unique key (item :: delete key (key item) items) := by
    refine nodup_cons.mpr ⟨fun hmem => ?_, hunique.filter _⟩
    obtain ⟨other, hother, hsame⟩ := mem_map.mp hmem
    exact (mem_delete.mp hother).2 hsame
  exact hcons.perm (put_perm hunique).symm

section

variable {key' : β → κ} {f : α → β} (hkey : ∀ item, key' (f item) = key item)
include hkey

theorem map_put (item : α)
    (items : List α) : (put key item items).map f = put key' (f item) (items.map f) := by
  have hkeys : (items.map f).map key' = items.map key := by
    rw [map_map]
    exact map_congr_left fun other _ => hkey other
  unfold put
  rw [hkeys, hkey]
  split
  · rw [map_map, map_map]
    refine map_congr_left fun other _ => ?_
    simp only [Function.comp_apply, hkey]
    split <;> rfl
  · rw [map_append]
    rfl

theorem map_delete (wanted : κ) (items : List α) :
    (delete key wanted items).map f = delete key' wanted (items.map f) := by
  unfold delete
  rw [filter_map]
  congr 1
  exact filter_congr fun item _ => by rw [Function.comp_apply, hkey]

theorem find_map (wanted : κ) (items : List α) :
    find key' wanted (items.map f) = (find key wanted items).map f := by
  unfold find
  rw [find?_map]
  congr 2
  funext item
  rw [Function.comp_apply, hkey]

end

end KeyedList
