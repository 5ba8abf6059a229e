import Mathlib.Data.List.Nodup

/-!
Maps that keep their keys in the order of first insertion: `set` replaces an
entry where it stands or appends a new one, `erase` drops it.
-/
universe u v w

theorem getElem?_concat_eq_some {α : Type} {items : List α} {last item : α} {place : Nat} :
    (items ++ [last])[place]? = some item ↔
      items[place]? = some item ∨ (place = items.length ∧ last = item) := by
  obtain hlt | rfl | hgt := Nat.lt_trichotomy place items.length
  · rw [List.getElem?_append_left hlt]
    simp [Nat.ne_of_lt hlt]
  · simp
  · rw [List.getElem?_eq_none (by rw [List.length_append, List.length_singleton]; omega),
      List.getElem?_eq_none (Nat.le_of_lt hgt)]
    simp [Nat.ne_of_gt hgt]

structure InsertionMap (κ : Type u) (α : Type v) where
  entries : List (κ × α)
  nodup : (entries.map Prod.fst).Nodup

namespace InsertionMap

open List

variable {κ : Type u} {α : Type v} {β : Type w} [DecidableEq κ]

def setEntry (key : κ) (value : α) : List (κ × α) → List (κ × α)
  | [] => [(key, value)]
  | entry :: rest =>
    if entry.1 = key then (key, value) :: rest else entry :: setEntry key value rest

def findEntry (key : κ) : List (κ × α) → Option α
  | [] => none
  | entry :: rest => if entry.1 = key then some entry.2 else findEntry key rest

theorem keys_setEntry (key : κ) (value : α) (entries : List (κ × α)) :
    (setEntry key value entries).map Prod.fst =
      if key ∈ entries.map Prod.fst then entries.map Prod.fst
      else entries.map Prod.fst ++ [key] := by
  induction entries with
  | nil => rfl
  | cons entry rest ih =>
    rw [setEntry]
    by_cases hkey : entry.1 = key
    · rw [if_pos hkey, if_pos (by simp [hkey])]
      simp [hkey]
    · rw [if_neg hkey, map_cons, ih]
      by_cases hrest : key ∈ rest.map Prod.fst
      · have hcons : key ∈ (entry :: rest).map Prod.fst := by
          rw [map_cons]
          exact mem_cons_of_mem _ hrest
        rw [if_pos hrest, if_pos hcons]
        rfl
      · have hcons : key ∉ (entry :: rest).map Prod.fst := by
          rw [map_cons, mem_cons, not_or]
          exact ⟨Ne.symm hkey, hrest⟩
        rw [if_neg hrest, if_neg hcons]
        rfl

theorem findEntry_setEntry (key other : κ) (value : α) (entries : List (κ × α)) :
    findEntry other (setEntry key value entries) =
      if other = key then some value else findEntry other entries := by
  induction entries with
  | nil =>
    by_cases hother : other = key
    · simp [setEntry, findEntry, hother]
    · simp [setEntry, findEntry, hother, Ne.symm hother]
  | cons entry rest ih =>
    rw [setEntry]
    by_cases hkey : entry.1 = key
    · rw [if_pos hkey, findEntry, findEntry, hkey]
      by_cases hother : other = key
      · rw [if_pos hother.symm, if_pos hother]
      · rw [if_neg (Ne.symm hother), if_neg hother, if_neg (Ne.symm hother)]
    · rw [if_neg hkey, findEntry, ih, findEntry]
      by_cases hother : other = key
      · rw [if_pos hother, if_pos hother, if_neg (by rw [hother]; exact hkey)]
      · rw [if_neg hother, if_neg hother]

theorem findEntry_filter (p : κ → Bool) (key : κ) (entries : List (κ × α)) :
    findEntry key (entries.filter fun entry => p entry.1) =
      if p key then findEntry key entries else none := by
  induction entries with
  | nil => simp [findEntry]
  | cons entry rest ih =>
    by_cases hp : p entry.1 = true
    · rw [filter_cons, if_pos hp, findEntry, ih, findEntry]
      by_cases hkey : entry.1 = key
      · rw [if_pos hkey, ← hkey, if_pos hp, if_pos rfl]
      · rw [if_neg hkey, if_neg hkey]
    · rw [filter_cons, if_neg hp, ih, findEntry]
      by_cases hkey : entry.1 = key
      · rw [← hkey, if_neg hp, if_neg hp]
      · rw [if_neg hkey]

variable {entries : List (κ × α)}

theorem findEntry_eq_some {key : κ} {value : α} (hnodup : (entries.map Prod.fst).Nodup) :
    findEntry key entries = some value ↔ (key, value) ∈ entries := by
  induction entries with
  | nil => simp [findEntry]
  | cons entry rest ih =>
    rw [map_cons, nodup_cons] at hnodup
    rw [findEntry, mem_cons]
    by_cases hkey : entry.1 = key
    · rw [if_pos hkey]
      constructor
      · intro hvalue
        left
        rw [← hkey, ← Option.some.inj hvalue]
      · intro hmem
        cases hmem with
        | inl heq => rw [← heq]
        | inr hrest =>
          refine absurd ?_ hnodup.1
          rw [hkey]
          exact mem_map_of_mem hrest
    · rw [if_neg hkey, ih hnodup.2]
      constructor
      · exact Or.inr
      · intro hmem
        cases hmem with
        | inl heq => exact absurd (congrArg Prod.fst heq).symm hkey
        | inr hrest => exact hrest

def empty : InsertionMap κ α := ⟨[], nodup_nil⟩

def keys (map : InsertionMap κ α) : List κ := map.entries.map Prod.fst

def values (map : InsertionMap κ α) : List α := map.entries.map Prod.snd

def get? (map : InsertionMap κ α) (key : κ) : Option α := findEntry key map.entries

def has (map : InsertionMap κ α) (key : κ) : Bool := (map.get? key).isSome

def set (map : InsertionMap κ α) (key : κ) (value : α) : InsertionMap κ α where
  entries := setEntry key value map.entries
  nodup := by
    rw [keys_setEntry]
    by_cases hkey : key ∈ map.entries.map Prod.fst
    · rw [if_pos hkey]
      exact map.nodup
    · rw [if_neg hkey]
      apply nodup_append.mpr
      refine ⟨map.nodup, nodup_singleton key, ?_⟩
      intro left hleft right hright heq
      rw [mem_singleton.mp hright] at heq
      exact hkey (heq ▸ hleft)

def erase (map : InsertionMap κ α) (key : κ) : InsertionMap κ α where
  entries := map.entries.filter fun entry => !decide (entry.1 = key)
  nodup := (filter_sublist.map Prod.fst).nodup map.nodup

def setAll (map : InsertionMap κ α) (entries : List (κ × α)) : InsertionMap κ α :=
  entries.foldl (fun current entry => current.set entry.1 entry.2) map

variable {map : InsertionMap κ α} {key other : κ} {value : α}

@[simp] theorem get?_empty (key : κ) : (empty : InsertionMap κ α).get? key = none := rfl

theorem get?_set : (map.set key value).get? other =
    if other = key then some value else map.get? other :=
  findEntry_setEntry key other value map.entries

@[simp] theorem get?_set_self : (map.set key value).get? key = some value := by
  rw [get?_set, if_pos rfl]

theorem get?_set_of_ne (h : other ≠ key) : (map.set key value).get? other = map.get? other := by
  rw [get?_set, if_neg h]

theorem get?_erase : (map.erase key).get? other =
    if other = key then none else map.get? other := by
  have hfilter := findEntry_filter (fun name => !decide (name = key)) other map.entries
  by_cases hother : other = key
  · rw [if_neg (by simp [hother])] at hfilter
    rw [if_pos hother]
    exact hfilter
  · rw [if_pos (by simp [hother])] at hfilter
    rw [if_neg hother]
    exact hfilter

theorem get?_erase_of_ne (h : other ≠ key) : (map.erase key).get? other = map.get? other := by
  rw [get?_erase, if_neg h]

theorem get?_set_eq_some {added : α} : (map.set key added).get? other = some value ↔
    other = key ∧ added = value ∨ other ≠ key ∧ map.get? other = some value := by
  rw [get?_set]
  split <;> simp [*]

theorem get?_erase_eq_some : (map.erase key).get? other = some value ↔
    other ≠ key ∧ map.get? other = some value := by
  rw [get?_erase]
  split <;> simp [*]

theorem mem_entries : (key, value) ∈ map.entries ↔ map.get? key = some value :=
  (findEntry_eq_some map.nodup).symm

theorem has_iff : map.has key = true ↔ ∃ value, map.get? key = some value :=
  Option.isSome_iff_exists

theorem mem_keys : key ∈ map.keys ↔ map.has key = true := by
  rw [keys, mem_map, has_iff]
  constructor
  · rintro ⟨entry, hentry, rfl⟩
    exact ⟨entry.2, mem_entries.mp hentry⟩
  · rintro ⟨value, hvalue⟩
    exact ⟨(key, value), mem_entries.mpr hvalue, rfl⟩

theorem has_eq_false : map.has key = false ↔ map.get? key = none := by
  rw [has, Option.isSome_eq_false_iff, Option.isNone_iff_eq_none]

@[simp] theorem has_set : (map.set key value).has other = (decide (other = key) || map.has other) := by
  rw [has, get?_set]
  by_cases hother : other = key
  · simp [hother]
  · simp [hother, has]

@[simp] theorem setAll_nil : map.setAll [] = map := rfl

@[simp] theorem setAll_cons (entry : κ × α) (rest : List (κ × α)) :
    map.setAll (entry :: rest) = (map.set entry.1 entry.2).setAll rest := rfl

theorem setAll_append (first rest : List (κ × α)) :
    map.setAll (first ++ rest) = (map.setAll first).setAll rest := foldl_append

theorem get?_setAll_of_not_mem (h : key ∉ entries.map Prod.fst) :
    (map.setAll entries).get? key = map.get? key := by
  induction entries generalizing map with
  | nil => rfl
  | cons entry rest ih =>
    rw [map_cons, mem_cons, not_or] at h
    rw [setAll_cons, ih h.2, get?_set_of_ne h.1]

theorem get?_setAll_of_mem (hnodup : (entries.map Prod.fst).Nodup)
    (h : (key, value) ∈ entries) : (map.setAll entries).get? key = some value := by
  induction entries generalizing map with
  | nil => cases h
  | cons entry rest ih =>
    rw [map_cons, nodup_cons] at hnodup
    rw [setAll_cons]
    cases mem_cons.mp h with
    | inl heq =>
      rw [← heq] at hnodup ⊢
      rw [get?_setAll_of_not_mem hnodup.1, get?_set_self]
    | inr hrest => exact ih hnodup.2 hrest

theorem get?_setAll_entries (other : InsertionMap κ α) :
    (map.setAll other.entries).get? key = (other.get? key).or (map.get? key) := by
  cases hother : other.get? key with
  | none =>
    rw [Option.none_or]
    apply get?_setAll_of_not_mem
    intro hkey
    obtain ⟨value, hvalue⟩ := has_iff.mp (mem_keys.mp hkey)
    rw [hother] at hvalue
    cases hvalue
  | some value =>
    rw [Option.some_or]
    exact get?_setAll_of_mem other.nodup (mem_entries.mpr hother)

theorem values_set_of_new (h : map.has key = false) :
    (map.set key value).values = map.values ++ [value] := by
  have hentries : ∀ entries : List (κ × α), key ∉ entries.map Prod.fst →
      setEntry key value entries = entries ++ [(key, value)] := by
    intro entries
    induction entries with
    | nil => exact fun _ => rfl
    | cons entry rest ih =>
      intro hnot
      rw [map_cons, mem_cons, not_or] at hnot
      rw [setEntry, if_neg (Ne.symm hnot.1), ih hnot.2, cons_append]
  have hnot : key ∉ map.entries.map Prod.fst := by
    intro hmem
    rw [mem_keys.mp hmem] at h
    cases h
  have hset : (map.set key value).entries = map.entries ++ [(key, value)] := hentries _ hnot
  rw [values, hset, map_append]
  rfl

theorem has_setAll :
    (map.setAll entries).has key = true ↔ key ∈ entries.map Prod.fst ∨ map.has key = true := by
  induction entries generalizing map with
  | nil => simp
  | cons entry rest ih =>
    rw [setAll_cons, ih, has_set, Bool.or_eq_true, decide_eq_true_iff, map_cons,
      mem_cons, or_left_comm, or_assoc]

end InsertionMap
