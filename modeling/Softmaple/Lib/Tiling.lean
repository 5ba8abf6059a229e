import Mathlib

/-!
Items that each cover an interval of places. Where they cover an interval one after
the other, each place lies in one item and a binary search finds it. Where they are
only apart, a binary search finds the item of a place or that there is none.
-/

namespace Softmaple.Tiling

open List

variable {α : Type} (first size : α → Nat)

/-- The items cover the places from `start` to `stop`, each where the one before ends. -/
def Tiles : Nat → List α → Nat → Prop
  | start, [], stop => start = stop
  | start, item :: rest, stop =>
    first item = start ∧ 0 < size item ∧ Tiles (start + size item) rest stop

/-- The items stand in order and share no place. -/
def Apart (items : List α) : Prop :=
  items.Pairwise fun item later => first item + size item ≤ first later

def Covers (item : α) (place : Nat) : Prop := first item ≤ place ∧ place < first item + size item

instance (item : α) (place : Nat) : Decidable (Covers first size item place) :=
  inferInstanceAs (Decidable (_ ∧ _))

/-- Binary search for the item of a place, among the items from `low` to `stop`. -/
def search (items : List α) (place low stop : Nat) : Option (Nat × α) :=
  if low < stop then
    match items[(low + stop - 1) / 2]? with
    | none => none
    | some item =>
      if place < first item then search items place low ((low + stop - 1) / 2)
      else if first item + size item ≤ place then
        search items place ((low + stop - 1) / 2 + 1) stop
      else some ((low + stop - 1) / 2, item)
  else none
termination_by stop - low

/-- Binary search for the first item after a place, among those from `low` to `high`. -/
def firstAfter (items : List α) (place low high : Nat) : Nat :=
  if low < high then
    match items[(low + high) / 2]? with
    | none => low
    | some item =>
      if first item ≤ place then firstAfter items place ((low + high) / 2 + 1) high
      else firstAfter items place low ((low + high) / 2)
  else low
termination_by high - low

variable {first size}

variable {start stop : Nat} {items : List α}

theorem Tiles.append_iff {more : List α} : Tiles first size start (items ++ more) stop ↔
      ∃ middle, Tiles first size start items middle ∧ Tiles first size middle more stop := by
  induction items generalizing start with
  | nil =>
    constructor
    · exact fun h => ⟨start, rfl, h⟩
    · rintro ⟨middle, rfl, h⟩
      exact h
  | cons item items ih =>
    constructor
    · rintro ⟨hfirst, hsize, hrest⟩
      obtain ⟨middle, hitems, hmore⟩ := ih.mp hrest
      exact ⟨middle, ⟨hfirst, hsize, hitems⟩, hmore⟩
    · rintro ⟨middle, ⟨hfirst, hsize, hitems⟩, hmore⟩
      exact ⟨hfirst, hsize, ih.mpr ⟨middle, hitems, hmore⟩⟩

theorem Tiles.concat_iff {item : α} : Tiles first size start (items ++ [item]) stop ↔
      Tiles first size start items (first item) ∧ 0 < size item ∧
        first item + size item = stop := by
  rw [Tiles.append_iff]
  constructor
  · rintro ⟨middle, hitems, rfl, hsize, hstop⟩
    exact ⟨hitems, hsize, hstop⟩
  · rintro ⟨hitems, hsize, hstop⟩
    exact ⟨first item, hitems, rfl, hsize, hstop⟩

theorem Tiles.map_iff {f : α → α} (hfirst : ∀ item, first (f item) = first item)
    (hsize : ∀ item, size (f item) = size item) :
    Tiles first size start (items.map f) stop ↔ Tiles first size start items stop := by
  induction items generalizing start with
  | nil => rfl
  | cons item items ih =>
    rw [map_cons, Tiles, Tiles, hfirst, hsize, ih]

section

variable (h : Tiles first size start items stop)
include h

theorem Tiles.le : start + items.length ≤ stop := by
  induction items generalizing start with
  | nil => exact Nat.le_of_eq h
  | cons item items ih =>
    have hrest := ih h.2.2
    have hsize := h.2.1
    rw [length_cons]
    omega

variable {item : α}

theorem Tiles.mem (hitem : item ∈ items) :
    start ≤ first item ∧ 0 < size item ∧ first item + size item ≤ stop := by
  induction items generalizing start with
  | nil => cases hitem
  | cons head items ih =>
    have hrest := h.2.2.le
    cases hitem with
    | head =>
      have hfirst := h.1
      have hsize := h.2.1
      omega
    | tail _ hlater =>
      have hlow := ih h.2.2 hlater
      omega

variable {place : Nat}

theorem Tiles.exists_covers (hlow : start ≤ place) (hhigh : place < stop) :
    ∃ (index : Nat) (item : α), items[index]? = some item ∧ Covers first size item place := by
  induction items generalizing start with
  | nil =>
    have hnone : start = stop := h
    omega
  | cons item items ih =>
    obtain ⟨hfirst, hsize, hrest⟩ := h
    by_cases hhere : place < start + size item
    · exact ⟨0, item, rfl, by omega, by omega⟩
    · obtain ⟨index, later, hget, hcovers⟩ := ih hrest (by omega)
      exact ⟨index + 1, later, hget, hcovers⟩

variable {index : Nat}

theorem Tiles.before {later : Nat} {other : α} (hitem : items[index]? = some item)
    (hother : items[later]? = some other) (hlt : index < later) :
    first item + size item ≤ first other := by
  induction items generalizing start index later with
  | nil => cases hitem
  | cons head items ih =>
    cases later with
    | zero => omega
    | succ later =>
      rw [getElem?_cons_succ] at hother
      cases index with
      | zero =>
        obtain rfl := Option.some.inj hitem
        have hlow := (h.2.2.mem (mem_of_getElem? hother)).1
        have hfirst := h.1
        omega
      | succ index => exact ih h.2.2 hitem hother (by omega)

theorem Tiles.covers_unique {later : Nat} {other : α} (hitem : items[index]? = some item)
    (hother : items[later]? = some other) (hcovers : Covers first size item place)
    (hcovers' : Covers first size other place) : index = later ∧ item = other := by
  obtain ⟨hlow, hhigh⟩ := hcovers
  obtain ⟨hlow', hhigh'⟩ := hcovers'
  obtain hlt | rfl | hgt := lt_trichotomy index later
  · have := h.before hitem hother hlt
    omega
  · exact ⟨rfl, Option.some.inj (hitem.symm.trans hother)⟩
  · have := h.before hother hitem hgt
    omega

theorem Tiles.single (hlength : start + items.length = stop)
    (hitem : items[index]? = some item) : first item = start + index ∧ size item = 1 := by
  induction items generalizing start index with
  | nil => cases hitem
  | cons head items ih =>
    obtain ⟨hfirst, hsize, hrest⟩ := h
    have hle := hrest.le
    rw [length_cons] at hlength
    cases index with
    | zero =>
      obtain rfl := Option.some.inj hitem
      omega
    | succ index =>
      have hlater := ih hrest (by omega) hitem
      omega

theorem Tiles.search_eq {low high : Nat} (hitem : items[index]? = some item)
    (hcovers : Covers first size item place) (hlow : low ≤ index) (hhigh : index < high)
    (hlength : high ≤ items.length) :
    search first size items place low high = some (index, item) := by
  induction hgap : high - low using Nat.strong_induction_on generalizing low high with
  | _ gap ih =>
    have hmiddle : (low + high - 1) / 2 < items.length := by omega
    obtain ⟨middle, hget⟩ : ∃ middle, items[(low + high - 1) / 2]? = some middle :=
      ⟨_, getElem?_eq_getElem hmiddle⟩
    unfold search
    rw [if_pos (by omega), hget]
    dsimp only
    split
    · rename_i hbefore
      refine ih _ (by omega) hlow ?_ (by omega) rfl
      by_contra hle
      have hcovered := hcovers.1
      obtain hlt | heq := lt_or_eq_of_le (not_lt.mp hle)
      · have := h.before hget hitem hlt
        omega
      · rw [heq, hitem] at hget
        obtain rfl := Option.some.inj hget
        omega
    · rename_i hstarts
      split
      · rename_i hafter
        refine ih _ (by omega) ?_ hhigh hlength rfl
        by_contra hle
        have hcovered := hcovers.2
        obtain hlt | heq := lt_or_eq_of_le (show index ≤ (low + high - 1) / 2 by omega)
        · have := h.before hitem hget hlt
          omega
        · rw [← heq, hitem] at hget
          obtain rfl := Option.some.inj hget
          omega
      · rename_i hends
        obtain ⟨hindex, rfl⟩ := h.covers_unique hget hitem ⟨by omega, by omega⟩ hcovers
        rw [hindex]

structure Splits (first : α → Nat) (items : List α) (place index : Nat) : Prop where
  le : index ≤ items.length
  before : ∀ (earlier : Nat) (item : α), earlier < index → items[earlier]? = some item →
    first item ≤ place
  after : ∀ (later : Nat) (item : α), index ≤ later → items[later]? = some item → place < first item

omit h in
theorem firstAfter_splits {low high : Nat}
    (hsorted : items.Pairwise fun item later => first item ≤ first later)
    (hle : low ≤ high) (hhigh : high ≤ items.length)
    (hbefore : ∀ (earlier : Nat) (item : α), earlier < low → items[earlier]? = some item →
      first item ≤ place)
    (hafter : ∀ (later : Nat) (item : α), high ≤ later → items[later]? = some item →
      place < first item) :
    Splits first items place (firstAfter first items place low high) := by
  have horder : ∀ (earlier later : Nat) (item other : α), earlier ≤ later →
      items[earlier]? = some item → items[later]? = some other → first item ≤ first other := by
    intro earlier later item other hlater hitem hother
    obtain ⟨hearlierLt, rfl⟩ := List.getElem?_eq_some_iff.mp hitem
    obtain ⟨hlaterLt, rfl⟩ := List.getElem?_eq_some_iff.mp hother
    obtain hlt | rfl := Nat.lt_or_eq_of_le hlater
    · exact pairwise_iff_getElem.mp hsorted _ _ hearlierLt hlaterLt hlt
    · exact Nat.le_refl _
  induction hgap : high - low using Nat.strong_induction_on generalizing low high with
  | _ gap ih =>
    unfold firstAfter
    split
    · rename_i hlt
      obtain ⟨middle, hget⟩ : ∃ middle, items[(low + high) / 2]? = some middle :=
        ⟨_, getElem?_eq_getElem (by omega)⟩
      rw [hget]
      dsimp only
      split
      · rename_i hstarts
        refine ih _ (by omega) (by omega) hhigh ?_ hafter rfl
        intro earlier item hearlier hitem
        exact Nat.le_trans (horder _ _ _ _ (by omega) hitem hget) hstarts
      · rename_i hlater
        refine ih _ (by omega) (by omega) (by omega) hbefore ?_ rfl
        intro later item hle hitem
        have := horder _ _ _ _ hle hget hitem
        omega
    · exact ⟨by omega, hbefore, fun later item hle => hafter later item (by omega)⟩

omit h in
theorem Apart.sorted (h : Apart first size items) :
    items.Pairwise fun item later => first item ≤ first later :=
  h.imp fun hbefore => Nat.le_trans (Nat.le_add_right _ _) hbefore

theorem Tiles.getElem?_flatMap {β : Type} {places : α → List β} {value : β}
    (hlength : ∀ item ∈ items, (places item).length = size item) (hstart : start ≤ place) :
    (items.flatMap places)[place - start]? = some value ↔
      ∃ item ∈ items, Covers first size item place ∧
        (places item)[place - first item]? = some value := by
  induction items generalizing start with
  | nil => simp
  | cons item items ih =>
    obtain ⟨rfl, hsize, hrest⟩ := h
    obtain ⟨hhead, htail⟩ := forall_mem_cons.mp hlength
    have hlater : ∀ other ∈ items, first item + size item ≤ first other :=
      fun other hother => (hrest.mem hother).1
    rw [flatMap_cons, exists_mem_cons_iff]
    by_cases hhere : place < first item + size item
    · rw [getElem?_append_left (by omega)]
      refine ⟨fun hvalue => .inl ⟨⟨hstart, hhere⟩, hvalue⟩, ?_⟩
      rintro (⟨-, hvalue⟩ | ⟨other, hother, ⟨hcovers, -⟩, -⟩)
      · exact hvalue
      · have := hlater other hother
        omega
    · rw [getElem?_append_right (by omega), hhead, Nat.sub_sub,
        ih hrest htail (by omega)]
      refine ⟨.inr, ?_⟩
      rintro (⟨⟨-, hcovers⟩, -⟩ | hfound)
      · omega
      · exact hfound

end

theorem Splits.covers_iff {place index : Nat} (happart : Apart first size items)
    (h : Splits first items place index) {item : α} (hitem : item ∈ items) :
    Covers first size item place ↔ ∃ before, index = before + 1 ∧ items[before]? = some item ∧
        place < first item + size item := by
  obtain ⟨position, hlt, rfl⟩ := mem_iff_getElem.mp hitem
  have hget := getElem?_eq_getElem hlt
  constructor
  · rintro ⟨hstarts, hends⟩
    have hbefore : position < index := by
      by_contra hle
      have := h.after _ _ (not_lt.mp hle) hget
      omega
    refine ⟨position, ?_, hget, hends⟩
    by_contra hne
    have hnext : position + 1 < items.length := by
      have := h.le
      omega
    have hstep := pairwise_iff_getElem.mp happart _ _ hlt hnext (Nat.lt_succ_self _)
    have := h.before _ _ (by omega) (getElem?_eq_getElem hnext)
    omega
  · rintro ⟨before, hindex, hbefore, hends⟩
    exact ⟨h.before _ _ (by omega) hbefore, hends⟩

end Softmaple.Tiling
