import Mathlib.Data.List.GetD
import Mathlib.Data.List.Count
import Mathlib.Tactic.Cases

/-!
Rows of values in one flat list, row `r` standing between `starts[r]` and
`starts[r + 1]`, and the counting sort that turns keyed items into such rows:
count the keys, add the counts up, put every item at the cursor of its key.
-/
namespace Softmaple.CompressedRows

open List

universe u

variable {α : Type u}

def row (starts : List Nat) (values : List α) (index : Nat) : List α :=
  (values.drop (starts.getD index 0)).take (starts.getD (index + 1) 0 - starts.getD index 0)

def rowStarts (first : Nat) : List (List α) → List Nat
  | [] => [first]
  | values :: rows => first :: rowStarts (first + values.length) rows

/-- How many keys there are of each kind, one place later. -/
def countKeys (keyCount : Nat) (keys : List Nat) : List Nat :=
  keys.foldl (fun counts key => counts.modify (key + 1) (· + 1)) (List.replicate (keyCount + 1) 0)

def addUp (before : Nat) : List Nat → List Nat
  | [] => []
  | count :: counts => (before + count) :: addUp (before + count) counts

/-- Every item at the cursor of its key, which then moves on. -/
def place (cursors : List Nat) (out : List α) : List (Nat × α) → List α
  | [] => out
  | (key, item) :: rest =>
    place (cursors.modify key (· + 1)) (out.set (cursors.getD key 0) item) rest

theorem rowStarts_getD_zero (first : Nat) (rows : List (List α)) :
    (rowStarts first rows).getD 0 0 = first := by
  cases rows with
  | nil => rfl
  | cons values rows => rfl

variable {index : Nat}

theorem row_rowStarts_append {rows : List (List α)} {values : List α}
    (before : List α) (h : rows[index]? = some values) :
    row (rowStarts before.length rows) (before ++ rows.flatten) index = values := by
  induction rows generalizing before index with
  | nil => simp at h
  | cons first rows ih =>
    cases index with
    | zero =>
      simp only [getElem?_cons_zero, Option.some.injEq] at h
      subst h
      simp only [row, rowStarts, getD_cons_zero, getD_cons_succ, rowStarts_getD_zero]
      simp
    | succ index =>
      simp only [getElem?_cons_succ] at h
      have hrest := ih (before ++ first) h
      rw [length_append, append_assoc] at hrest
      simpa only [row, rowStarts, getD_cons_succ, flatten_cons] using hrest

theorem row_rowStarts {rows : List (List α)} {values : List α}
    (h : rows[index]? = some values) : row (rowStarts 0 rows) rows.flatten index = values :=
  row_rowStarts_append [] h

theorem rowStarts_getD_le (rows : List (List α)) (first index : Nat) (h : index < rows.length) :
    (rowStarts first rows).getD index 0 ≤ (rowStarts first rows).getD (index + 1) 0 ∧
      (rowStarts first rows).getD (index + 1) 0 ≤ first + rows.flatten.length := by
  induction rows generalizing first index with
  | nil => simp at h
  | cons values rows ih =>
    cases index with
    | zero =>
      simp only [rowStarts, getD_cons_zero, getD_cons_succ, rowStarts_getD_zero,
        flatten_cons, length_append]
      omega
    | succ index =>
      have hrest := ih (first + values.length) index (by simpa using h)
      simp only [rowStarts, getD_cons_succ, flatten_cons, length_append]
      omega

theorem length_row {starts : List Nat} {values : List α} (h : starts.getD (index + 1) 0 ≤ values.length) :
    (row starts values index).length = starts.getD (index + 1) 0 - starts.getD index 0 := by
  rw [row, length_take, length_drop]
  omega

theorem row_getElem? (starts : List Nat) (values : List α) {offset : Nat}
    (h : offset < starts.getD (index + 1) 0 - starts.getD index 0) :
    (row starts values index)[offset]? = values[starts.getD index 0 + offset]? := by
  rw [row, getElem?_take_of_lt h, getElem?_drop]

def itemsOf (key : Nat) (edges : List (Nat × α)) : List α :=
  (edges.filter fun edge => edge.1 = key).map Prod.snd

/-- How many items have a lower key. -/
def below (key : Nat) (edges : List (Nat × α)) : Nat :=
  edges.countP fun edge => edge.1 < key

theorem length_itemsOf (key : Nat) (edges : List (Nat × α)) :
    (itemsOf key edges).length = edges.countP fun edge => edge.1 = key := by
  rw [itemsOf, length_map, countP_eq_length_filter]

theorem itemsOf_append (key : Nat) (edges more : List (Nat × α)) :
    itemsOf key (edges ++ more) = itemsOf key edges ++ itemsOf key more := by
  rw [itemsOf, filter_append, map_append]
  rfl

theorem itemsOf_singleton (key own : Nat) (item : α) :
    itemsOf key [(own, item)] = if own = key then [item] else [] := by
  by_cases h : own = key <;> simp [itemsOf, h]

theorem below_succ (key : Nat) (edges : List (Nat × α)) :
    below (key + 1) edges = below key edges + (itemsOf key edges).length := by
  rw [length_itemsOf]
  induction edges with
  | nil => rfl
  | cons edge edges ih =>
    simp only [below, countP_cons, decide_eq_true_eq] at ih ⊢
    split_ifs <;> omega

theorem below_mono {key other : Nat} (edges : List (Nat × α)) (h : key ≤ other) :
    below key edges ≤ below other edges := by
  apply countP_mono_left
  intro edge _ hlt
  rw [decide_eq_true_eq] at hlt ⊢
  omega

theorem below_add_length_le {key other : Nat} (edges : List (Nat × α)) (h : key < other) :
    below key edges + (itemsOf key edges).length ≤ below other edges := by
  rw [← below_succ]
  exact below_mono edges h

theorem below_le_length (key : Nat) (edges : List (Nat × α)) : below key edges ≤ edges.length :=
  countP_le_length

@[simp] theorem length_countKeys (keyCount : Nat) (keys : List Nat) :
    (countKeys keyCount keys).length = keyCount + 1 := by
  rw [countKeys]
  generalize hstart : List.replicate (keyCount + 1) 0 = counts
  have hlength : counts.length = keyCount + 1 := by rw [← hstart, length_replicate]
  clear hstart
  induction keys generalizing counts with
  | nil => exact hlength
  | cons key keys ih => exact ih _ (by rw [length_modify, hlength])

theorem getD_modify_self {values : List Nat} (h : index < values.length) :
    (values.modify index (· + 1)).getD index 0 = values.getD index 0 + 1 := by
  simp [getD_eq_getElem?_getD, getElem?_eq_getElem h]

theorem getD_modify_ne {values : List Nat} {other : Nat} (h : index ≠ other) :
    (values.modify index (· + 1)).getD other 0 = values.getD other 0 := by
  simp [getD_eq_getElem?_getD, h]

variable {keyCount : Nat}

theorem countKeys_getD (keys : List Nat) (hindex : index ≤ keyCount) :
    (countKeys keyCount keys).getD index 0 = keys.countP fun key => key + 1 = index := by
  have hfold : ∀ (counts : List Nat), counts.length = keyCount + 1 →
      (keys.foldl (fun counts key => counts.modify (key + 1) (· + 1)) counts).getD index 0 =
        counts.getD index 0 + keys.countP fun key => key + 1 = index := by
    induction keys with
    | nil => simp
    | cons key keys ih =>
      intro counts hlength
      rw [foldl_cons, ih _ (by rw [length_modify, hlength]), countP_cons]
      by_cases heq : key + 1 = index
      · subst heq
        rw [getD_modify_self (by omega)]
        simp only [decide_true, if_true]
        omega
      · rw [getD_modify_ne heq]
        simp [heq]
  rw [countKeys, hfold _ length_replicate, getD_replicate 0 (by omega), Nat.zero_add]

@[simp] theorem length_addUp (before : Nat) (counts : List Nat) :
    (addUp before counts).length = counts.length := by
  induction counts generalizing before with
  | nil => rfl
  | cons count counts ih => simp [addUp, ih]

theorem addUp_getD_zero (before count : Nat) (counts : List Nat) :
    (addUp before (count :: counts)).getD 0 0 = before + count := rfl

theorem addUp_getD_succ {counts : List Nat} (before : Nat) (h : index + 1 < counts.length) :
    (addUp before counts).getD (index + 1) 0 =
      (addUp before counts).getD index 0 + counts.getD (index + 1) 0 := by
  induction counts generalizing before index with
  | nil => simp at h
  | cons count counts ih =>
    cases index with
    | zero =>
      cases counts with
      | nil => simp at h
      | cons second counts => rfl
    | succ index =>
      simp only [addUp, getD_cons_succ]
      exact ih _ (by simpa using h)

theorem addUp_countKeys_getD {key : Nat} (edges : List (Nat × α)) (h : key ≤ keyCount) :
    (addUp 0 (countKeys keyCount (edges.map Prod.fst))).getD key 0 = below key edges := by
  induction key with
  | zero =>
    have hcount := countKeys_getD (edges.map Prod.fst) (Nat.zero_le keyCount)
    have hzero : ∀ keys : List Nat, (keys.countP fun key => key + 1 = 0) = 0 := by simp
    rw [hzero] at hcount
    have hbelow : below 0 edges = 0 := by simp [below]
    cases hlist : countKeys keyCount (edges.map Prod.fst) with
    | nil =>
      have hlength := length_countKeys keyCount (edges.map Prod.fst)
      rw [hlist] at hlength
      simp at hlength
    | cons count counts =>
      rw [hlist, getD_cons_zero] at hcount
      rw [addUp_getD_zero, hcount, hbelow]
  | succ key ih =>
    rw [addUp_getD_succ _ (by rw [length_countKeys]; omega), ih (by omega),
      countKeys_getD _ h, below_succ, length_itemsOf, countP_map]
    simp [Function.comp_def]

theorem place_getElem? (placed rest : List (Nat × α)) {cursors : List Nat}
    {out : List α} (hkeys : ∀ edge ∈ placed ++ rest, edge.1 < keyCount)
    (hlength : cursors.length = keyCount) (hout : out.length = (placed ++ rest).length)
    (hcursors : ∀ key < keyCount, cursors.getD key 0 =
      below key (placed ++ rest) + (itemsOf key placed).length)
    (hplaced : ∀ key < keyCount, ∀ offset < (itemsOf key placed).length,
      out[below key (placed ++ rest) + offset]? = (itemsOf key placed)[offset]?) :
    ∀ key < keyCount, ∀ offset < (itemsOf key (placed ++ rest)).length,
      (place cursors out rest)[below key (placed ++ rest) + offset]? =
        (itemsOf key (placed ++ rest))[offset]? := by
  induction rest generalizing placed cursors out with
  | nil => simpa [place] using hplaced
  | cons edge rest ih =>
    obtain ⟨own, item⟩ := edge
    have hall : placed ++ (own, item) :: rest = (placed ++ [(own, item)]) ++ rest := by simp
    have hown : own < keyCount := hkeys (own, item) (by simp)
    have hitems : ∀ key, itemsOf key (placed ++ [(own, item)]) =
        itemsOf key placed ++ if own = key then [item] else [] := by
      intro key
      rw [itemsOf_append, itemsOf_singleton]
    -- the place of the item is its own key's, and free
    have hroom : (itemsOf own placed).length <
        (itemsOf own (placed ++ (own, item) :: rest)).length := by
      rw [hall, itemsOf_append, hitems, if_pos rfl]
      simp only [length_append, length_singleton]
      omega
    have hend : below own (placed ++ (own, item) :: rest) +
        (itemsOf own (placed ++ (own, item) :: rest)).length ≤
          (placed ++ (own, item) :: rest).length := by
      rw [← below_succ]
      exact below_le_length _ _
    rw [place]
    rw [hall] at hkeys hout hcursors hplaced hroom hend ⊢
    apply ih (placed ++ [(own, item)]) hkeys
    · rw [length_modify, hlength]
    · rw [length_set, hout]
    · intro key hkey
      rw [hitems]
      by_cases heq : own = key
      · subst heq
        rw [getD_modify_self (by omega), hcursors own hkey, if_pos rfl, length_append,
          length_singleton]
        omega
      · rw [getD_modify_ne heq, hcursors key hkey, if_neg heq, append_nil]
    · intro key hkey offset hoffset
      have hpart : (itemsOf key (placed ++ [(own, item)])).length ≤
          (itemsOf key ((placed ++ [(own, item)]) ++ rest)).length := by
        rw [itemsOf_append key (placed ++ [(own, item)]), length_append]
        omega
      rw [hcursors own hown]
      rw [hitems] at hoffset ⊢
      by_cases heq : own = key
      · subst heq
        rw [if_pos rfl, length_append, length_singleton] at hoffset
        rw [if_pos rfl]
        by_cases hlast : offset = (itemsOf own placed).length
        · rw [hlast, getElem?_set_self (by omega), getElem?_concat_length]
        · rw [getElem?_set_ne (by omega), hplaced own hown offset (by omega),
            getElem?_append_left (by omega)]
      · rw [if_neg heq, append_nil] at hoffset ⊢
        rw [hitems, if_neg heq, append_nil] at hpart
        rw [getElem?_set_ne, hplaced key hkey offset hoffset]
        -- the places of two keys are apart
        cases Nat.lt_or_gt_of_ne heq with
        | inl hlt =>
          have hbefore := below_add_length_le ((placed ++ [(own, item)]) ++ rest) hlt
          omega
        | inr hlt =>
          have hafter := below_add_length_le ((placed ++ [(own, item)]) ++ rest) hlt
          omega

theorem length_place (cursors : List Nat) (out : List α) (edges : List (Nat × α)) :
    (place cursors out edges).length = out.length := by
  induction edges generalizing cursors out with
  | nil => rfl
  | cons edge edges ih => rw [place, ih, length_set]

theorem row_place {key : Nat} {edges : List (Nat × α)} (blank : List α)
    (hkeys : ∀ edge ∈ edges, edge.1 < keyCount) (hblank : blank.length = edges.length)
    (hkey : key < keyCount) :
    row (addUp 0 (countKeys keyCount (edges.map Prod.fst)))
      (place ((addUp 0 (countKeys keyCount (edges.map Prod.fst))).take keyCount) blank edges) key =
      itemsOf key edges := by
  obtain ⟨starts, hstarts⟩ : ∃ starts,
    addUp 0 (countKeys keyCount (edges.map Prod.fst)) = starts := ⟨_, rfl⟩
  have hbelow : ∀ other, other ≤ keyCount → starts.getD other 0 = below other edges := by
    intro other hother
    rw [← hstarts]
    exact addUp_countKeys_getD edges hother
  have hlength : starts.length = keyCount + 1 := by
    rw [← hstarts, length_addUp, length_countKeys]
  have hplace := @place_getElem? _ _ [] edges (starts.take keyCount) _ hkeys
    (by rw [length_take]; omega) hblank
    (by
      intro other hother
      rw [getD_eq_getElem?_getD, getElem?_take_of_lt hother,
        ← getD_eq_getElem?_getD, hbelow other (by omega)]
      rfl)
    (by simp [itemsOf]) key hkey
  rw [hstarts]
  have hsucc : starts.getD (key + 1) 0 - starts.getD key 0 = (itemsOf key edges).length := by
    rw [hbelow _ (by omega), hbelow _ (by omega), below_succ]
    omega
  apply ext_getElem?
  intro offset
  by_cases hoffset : offset < (itemsOf key edges).length
  · rw [row_getElem? _ _ (by omega), hbelow key (by omega)]
    exact hplace offset hoffset
  · have hrow : (row starts (place (starts.take keyCount) blank edges) key).length ≤
        starts.getD (key + 1) 0 - starts.getD key 0 := by
      rw [row, length_take]
      exact Nat.min_le_left _ _
    rw [getElem?_eq_none (l := itemsOf key edges) (by omega), getElem?_eq_none (by omega)]

end Softmaple.CompressedRows
