import Mathlib.Data.List.Basic
import Mathlib.Data.List.Pairwise

/-!
Reading an append-only sequence in pages. Rows have increasing keys; a page
holds the first rows after a cursor, and the key of its last row is the next
cursor. What was read up to a cursor stays what the cursor stands for while
rows with greater keys are appended.
-/
namespace Paging

open List

variable {α : Type} (key : α → Nat)

def Increasing (rows : List α) : Prop := rows.Pairwise fun row other => key row < key other

def upTo (cursor : Nat) (rows : List α) : List α := rows.filter fun row => decide (key row ≤ cursor)

def after (cursor : Nat) (rows : List α) : List α := rows.filter fun row => decide (cursor < key row)

def nextCursor (cursor : Nat) (page : List α) : Nat := (page.getLast?.map key).getD cursor

variable {key}

section Sections

variable {rows : List α} {cursor : Nat}

theorem mem_upTo {row : α} : row ∈ upTo key cursor rows ↔ row ∈ rows ∧ key row ≤ cursor := by
  rw [upTo, mem_filter, decide_eq_true_eq]

theorem mem_after {row : α} : row ∈ after key cursor rows ↔ row ∈ rows ∧ cursor < key row := by
  rw [after, mem_filter, decide_eq_true_eq]

theorem upTo_append_of_gt {more : List α} (h : ∀ row ∈ more, cursor < key row) :
    upTo key cursor (rows ++ more) = upTo key cursor rows := by
  have hnone : upTo key cursor more = [] := by
    apply filter_eq_nil_iff.mpr
    intro row hrow
    have hgt := h row hrow
    rw [decide_eq_true_eq]
    omega
  rw [upTo, filter_append]
  change _ ++ upTo key cursor more = _
  rw [hnone, append_nil]
  rfl

theorem upTo_of_le (h : ∀ row ∈ rows, key row ≤ cursor) : upTo key cursor rows = rows := by
  apply filter_eq_self.mpr
  intro row hrow
  exact decide_eq_true (h row hrow)

theorem upTo_append_after (h : Increasing key rows) :
    upTo key cursor rows ++ after key cursor rows = rows := by
  induction rows with
  | nil => rfl
  | cons row rows ih =>
    obtain ⟨hrow, hrows⟩ := pairwise_cons.mp h
    by_cases hle : key row ≤ cursor
    · have hread : upTo key cursor (row :: rows) = row :: upTo key cursor rows := by
        simp only [upTo, filter_cons, decide_eq_true hle, if_true]
      have hbeyond : after key cursor (row :: rows) = after key cursor rows := by
        simp only [after, filter_cons, decide_eq_false (Nat.not_lt.mpr hle), Bool.false_eq_true,
          if_false]
      rw [hread, hbeyond, cons_append, ih hrows]
    · have hgt : ∀ other ∈ row :: rows, cursor < key other := by
        intro other hother
        cases mem_cons.mp hother with
        | inl heq => rw [heq]; omega
        | inr hmem =>
          have hlt := hrow other hmem
          omega
      have hnone : upTo key cursor ([] ++ (row :: rows)) = upTo key cursor [] :=
        upTo_append_of_gt hgt
      rw [nil_append] at hnone
      rw [hnone]
      exact filter_eq_self.mpr fun other hother => decide_eq_true (hgt other hother)

end Sections

section Pages

variable {rows : List α} {cursor limit : Nat}

theorem nextCursor_nil : nextCursor key cursor [] = cursor := rfl

theorem nextCursor_mem {page : List α} (h : page ≠ []) :
    ∃ row ∈ page, nextCursor key cursor page = key row := by
  refine ⟨page.getLast h, getLast_mem h, ?_⟩
  rw [nextCursor, getLast?_eq_getLast_of_ne_nil h]
  rfl

theorem upTo_nextCursor (h : Increasing key rows) :
    upTo key (nextCursor key cursor ((after key cursor rows).take limit)) rows =
      upTo key cursor rows ++ (after key cursor rows).take limit := by
  have hsplit : upTo key cursor rows ++ after key cursor rows = rows := upTo_append_after h
  generalize hrest : after key cursor rows = rest at hsplit ⊢
  have hgt : ∀ row ∈ rest, cursor < key row := by
    intro row hrow
    rw [← hrest] at hrow
    exact (mem_after.mp hrow).2
  by_cases hnil : rest.take limit = []
  · rw [hnil, nextCursor_nil, append_nil]
  · have hend : ∃ row ∈ rest.take limit, nextCursor key cursor (rest.take limit) = key row :=
      nextCursor_mem hnil
    obtain ⟨last, hlast, hnext⟩ := hend
    have hincreasing : Increasing key (upTo key cursor rows ++
        (rest.take limit ++ rest.drop limit)) := by
      rw [take_append_drop, hsplit]
      exact h
    obtain ⟨-, hpages, hbelow⟩ := pairwise_append.mp hincreasing
    obtain ⟨hpage, -, hbeyond⟩ := pairwise_append.mp hpages
    have hread : ∀ row ∈ upTo key cursor rows ++ rest.take limit,
        key row ≤ nextCursor key cursor (rest.take limit) := by
      intro row hrow
      cases mem_append.mp hrow with
      | inl hold =>
        have hle := (mem_upTo.mp hold).2
        have hlt := hgt last (mem_of_mem_take hlast)
        omega
      | inr hnew =>
        have hend := dropLast_append_getLast hnil
        rw [nextCursor, getLast?_eq_getLast_of_ne_nil hnil, Option.map_some,
          Option.getD_some]
        rw [← hend] at hpage hnew
        cases mem_append.mp hnew with
        | inl hbefore =>
          exact Nat.le_of_lt ((pairwise_append.mp hpage).2.2 row hbefore _
            (mem_singleton_self _))
        | inr hlast => exact Nat.le_of_eq (congrArg key (mem_singleton.mp hlast))
    have hunread : ∀ row ∈ rest.drop limit, nextCursor key cursor (rest.take limit) < key row := by
      intro row hrow
      rw [hnext]
      exact hbeyond last hlast row hrow
    calc upTo key (nextCursor key cursor (rest.take limit)) rows
        = upTo key (nextCursor key cursor (rest.take limit))
            ((upTo key cursor rows ++ rest.take limit) ++ rest.drop limit) := by
          rw [append_assoc, take_append_drop, hsplit]
      _ = upTo key cursor rows ++ rest.take limit := by
          rw [upTo_append_of_gt hunread, upTo_of_le hread]

end Pages

end Paging
