import Mathlib.Data.List.Flatten
import Mathlib.Algebra.Order.Group.Nat

/-!
Cutting a list into a number of parts whose lengths differ by at most one, the longer ones
first.
-/
namespace EvenParts

universe u
variable {α : Type u}

/-- The parts from the one at `index` on, `count` of them. -/
def partsFrom (base extra : Nat) : Nat → Nat → List α → List (List α)
  | 0, _, _ => []
  | count + 1, index, items =>
    items.take (base + if index < extra then 1 else 0) ::
      partsFrom base extra count (index + 1) (items.drop (base + if index < extra then 1 else 0))

def evenParts (count : Nat) (items : List α) : List (List α) :=
  partsFrom (items.length / count) (items.length % count) count 0 items

theorem length_partsFrom (base extra count index : Nat) (items : List α) :
    (partsFrom base extra count index items).length = count := by
  induction count generalizing index items with
  | zero => rfl
  | succ count ih => rw [partsFrom, List.length_cons, ih]

theorem flatten_partsFrom {base extra count index : Nat} {items : List α}
    (h : items.length = base * count + (extra - index)) (hextra : extra ≤ index + count) :
    (partsFrom base extra count index items).flatten = items := by
  induction count generalizing index items with
  | zero =>
    have hnil : items.length = 0 := by
      rw [h]
      omega
    rw [partsFrom, List.flatten_nil, List.length_eq_zero_iff.mp hnil]
  | succ count ih =>
    rw [partsFrom, List.flatten_cons, ih, List.take_append_drop]
    · rw [List.length_drop, h, Nat.mul_succ]
      split <;> omega
    · omega

theorem mem_partsFrom_length {base extra count index : Nat} {items part : List α}
    (h : base * count + (extra - index) ≤ items.length) (hextra : extra ≤ index + count)
    (hpart : part ∈ partsFrom base extra count index items) :
    base ≤ part.length ∧ part.length ≤ base + 1 ∧ (extra ≤ index → part.length = base) := by
  induction count generalizing index items with
  | zero => cases hpart
  | succ count ih =>
    rw [partsFrom] at hpart
    rw [Nat.mul_succ] at h
    cases List.mem_cons.mp hpart with
    | inl heq =>
      rw [heq, List.length_take]
      split <;> omega
    | inr hrest =>
      have hlater := ih (by rw [List.length_drop]; split <;> omega) (by omega) hrest
      refine ⟨hlater.1, hlater.2.1, fun hle => hlater.2.2 (by omega)⟩

section

variable {count : Nat} {items : List α}

theorem length_evenParts : (evenParts count items).length = count := length_partsFrom _ _ _ _ _

theorem flatten_evenParts (hcount : 0 < count) : (evenParts count items).flatten = items := by
  apply flatten_partsFrom
  · rw [Nat.sub_zero, Nat.mul_comm, Nat.div_add_mod]
  · have hlt := Nat.mod_lt items.length hcount
    omega

theorem evenParts_length {bound : Nat} {part : List α} (hcount : 0 < count)
    (hle : count ≤ items.length) (hbound : items.length ≤ bound * count)
    (hpart : part ∈ evenParts count items) : 0 < part.length ∧ part.length ≤ bound := by
  have hlt := Nat.mod_lt items.length hcount
  have hdiv := Nat.div_add_mod items.length count
  obtain ⟨hlow, hhigh, hexact⟩ := mem_partsFrom_length
    (by rw [Nat.sub_zero, Nat.mul_comm, hdiv]) (by omega) hpart
  have hbase : 0 < items.length / count := Nat.div_pos hle hcount
  refine ⟨by omega, ?_⟩
  by_cases hextra : items.length % count = 0
  · rw [hexact (by omega)]
    rw [hextra, Nat.add_zero] at hdiv
    apply Nat.div_le_of_le_mul
    rw [Nat.mul_comm]
    exact hbound
  · -- There is a longer part, so the quotient is below the bound.
    have hquotient : items.length / count < bound := by
      apply (Nat.div_lt_iff_lt_mul hcount).mpr
      by_contra hge
      have heq : items.length = bound * count := by omega
      rw [heq, Nat.mul_mod_left] at hextra
      exact hextra rfl
    omega

end

end EvenParts
