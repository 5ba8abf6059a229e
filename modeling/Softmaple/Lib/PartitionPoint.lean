import Mathlib.Data.List.Basic
import Mathlib.Order.Monotone.Basic

/-!
Binary search in a list whose first items pass a test and whose later ones do not: the place
where the test starts to fail.
-/
namespace PartitionPoint

universe u
variable {α : Type u}

/-- The search among the places from `low` to `high`. -/
def search (test : α → Bool) (values : List α) (low high : Nat) : Nat :=
  if low < high then
    match values[(low + high) / 2]? with
    | none => low
    | some value =>
      if test value then search test values ((low + high) / 2 + 1) high
      else search test values low ((low + high) / 2)
  else low
termination_by high - low

def partitionPoint (test : α → Bool) (values : List α) : Nat :=
  search test values 0 values.length

variable {test : α → Bool} {passing failing : List α}

theorem search_append (hpass : ∀ value ∈ passing, test value = true)
    (hfail : ∀ value ∈ failing, test value = false) {low high : Nat} (hlow : low ≤ passing.length)
    (hhigh : passing.length ≤ high) (hlength : high ≤ (passing ++ failing).length) :
    search test (passing ++ failing) low high = passing.length := by
  induction hgap : high - low using Nat.strong_induction_on generalizing low high with
  | h gap ih =>
    rw [search]
    by_cases hlt : low < high
    · rw [if_pos hlt]
      have hmiddle : (low + high) / 2 < (passing ++ failing).length := by omega
      rw [List.getElem?_eq_getElem hmiddle]
      by_cases hside : (low + high) / 2 < passing.length
      · have htest : test (passing ++ failing)[(low + high) / 2] = true := by
          rw [List.getElem_append_left hside]
          exact hpass _ (List.getElem_mem hside)
        simp only [htest, if_true]
        exact ih (high - ((low + high) / 2 + 1)) (by omega) (by omega) hhigh hlength rfl
      · have htest : test (passing ++ failing)[(low + high) / 2] = false := by
          rw [List.getElem_append_right (by omega)]
          exact hfail _ (List.getElem_mem _)
        simp only [htest, Bool.false_eq_true, if_false]
        exact ih ((low + high) / 2 - low) (by omega) hlow (by omega) (by omega) rfl
    · rw [if_neg hlt]
      omega

theorem partitionPoint_append (hpass : ∀ value ∈ passing, test value = true)
    (hfail : ∀ value ∈ failing, test value = false) :
    partitionPoint test (passing ++ failing) = passing.length :=
  search_append hpass hfail (Nat.zero_le _) (by rw [List.length_append]; omega) (Nat.le_refl _)

structure Between (test : α → Bool) (values : List α) (low high place : Nat) : Prop where
  low_le : low ≤ place
  le_high : place ≤ high
  before : low < place → ∃ value, values[place - 1]? = some value ∧ test value = true
  after : place < high → ∃ value, values[place]? = some value ∧ test value = false

theorem search_between {values : List α} {low high : Nat} (hle : low ≤ high)
    (hlength : high ≤ values.length) :
    Between test values low high (search test values low high) := by
  induction hgap : high - low using Nat.strong_induction_on generalizing low high with
  | h gap ih =>
    rw [search]
    by_cases hlt : low < high
    · have hmiddle : (low + high) / 2 < values.length := by omega
      rw [if_pos hlt, List.getElem?_eq_getElem hmiddle]
      have hget := List.getElem?_eq_getElem hmiddle
      cases htest : test values[(low + high) / 2] with
      | true =>
        simp only [htest, if_true]
        have hright := ih (high - ((low + high) / 2 + 1)) (by omega) (by omega) hlength rfl
        refine ⟨by have := hright.low_le; omega, hright.le_high, fun _ => ?_, hright.after⟩
        by_cases hfirst : (low + high) / 2 + 1 < search test values ((low + high) / 2 + 1) high
        · exact hright.before hfirst
        · have hsame : search test values ((low + high) / 2 + 1) high = (low + high) / 2 + 1 :=
            Nat.le_antisymm (Nat.le_of_not_lt hfirst) hright.low_le
          rw [hsame, Nat.add_sub_cancel]
          exact ⟨_, hget, htest⟩
      | false =>
        simp only [htest, Bool.false_eq_true, if_false]
        have hleft := ih ((low + high) / 2 - low) (by omega) (by omega) (by omega) rfl
        refine ⟨hleft.low_le, by have := hleft.le_high; omega, hleft.before, fun _ => ?_⟩
        by_cases hlast : search test values low ((low + high) / 2) < (low + high) / 2
        · exact hleft.after hlast
        · have hsame : search test values low ((low + high) / 2) = (low + high) / 2 :=
            Nat.le_antisymm hleft.le_high (Nat.le_of_not_lt hlast)
          rw [hsame]
          exact ⟨_, hget, htest⟩
    · rw [if_neg hlt]
      exact ⟨Nat.le_refl _, hle, fun h => absurd h (Nat.lt_irrefl _), fun h => absurd h hlt⟩

theorem partitionPoint_between (values : List α) :
    Between test values 0 values.length (partitionPoint test values) :=
  search_between (Nat.zero_le _) (Nat.le_refl _)

end PartitionPoint
