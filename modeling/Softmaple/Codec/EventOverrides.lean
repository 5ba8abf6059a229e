import Softmaple.Codec.ReadIdColumns
import Mathlib.Algebra.BigOperators.Intervals
import Mathlib.Algebra.BigOperators.Ring.Finset

/-!
The parents that a payload's overrides stand for, and how many edges they may
have: the decoder counts the edges up to an override and one for each later
event, and a column holds `2 ^ 32 - 1` of them.
-/
namespace Softmaple.Codec

open List

section Edges

def extraEdges (overrides : List (Nat × List Nat)) (lv : Nat) : Int :=
  (explicitParents overrides lv).length - if 0 < lv then 1 else 0

variable {overrides : List (Nat × List Nat)}

theorem extraEdges_of_lookup_none {lv : Nat}
    (h : overrides.lookup lv = none) : extraEdges overrides lv = 0 := by
  rw [extraEdges, explicitParents, h]
  simp only
  split
  · rfl
  · rfl

theorem lookup_cons_of_ne {lv offset : Nat} {parents : List Nat} {rest : List (Nat × List Nat)}
    (h : lv ≠ offset) : ((offset, parents) :: rest).lookup lv = rest.lookup lv := by
  rw [lookup_cons, show (lv == offset) = false from beq_false_of_ne h]

theorem lookup_eq_none_of_lt {lv next : Nat}
    (h : ∀ entry ∈ overrides, next ≤ entry.1) (hlt : lv < next) : overrides.lookup lv = none := by
  apply lookup_eq_none_iff.mpr
  intro entry hentry
  have hle := h entry hentry
  exact bne_iff_ne.mpr (by omega)

theorem edgesFit_iff {count next : Nat} {edges : Int}
    (hascending : overrides.Pairwise fun entry other => entry.1 < other.1)
    (hbounds : ∀ entry ∈ overrides, next ≤ entry.1 ∧ entry.1 < count)
    (hedges : edges ≤ uint32Max) :
    EdgesFit edges overrides ↔ ∀ lv, next ≤ lv → lv < count →
      edges + ∑ j ∈ Finset.Ico next (lv + 1), extraEdges overrides j ≤ uint32Max := by
  induction overrides generalizing next edges with
  | nil =>
    have hzero : ∀ j, extraEdges [] j = 0 := fun j => extraEdges_of_lookup_none rfl
    simp [EdgesFit, hzero, hedges]
  | cons entry rest ih =>
    obtain ⟨offset, parents⟩ := entry
    obtain ⟨hfirst, hrest⟩ := pairwise_cons.mp hascending
    obtain ⟨hle, hlt⟩ := hbounds _ mem_cons_self
    have hlater : ∀ entry ∈ rest, offset + 1 ≤ entry.1 ∧ entry.1 < count := fun entry hentry =>
      ⟨hfirst entry hentry, (hbounds entry (mem_cons_of_mem _ hentry)).2⟩
    have hbefore : ∀ j, j < offset → extraEdges ((offset, parents) :: rest) j = 0 := by
      intro j hj
      apply extraEdges_of_lookup_none
      rw [lookup_cons_of_ne (by omega)]
      exact lookup_eq_none_of_lt (fun entry hentry => (hlater entry hentry).1) (by omega)
    have hown : extraEdges ((offset, parents) :: rest) offset =
        parents.length - if 0 < offset then 1 else 0 := by
      rw [extraEdges, explicitParents, lookup_cons, beq_self_eq_true]
    have hafter : ∀ j, offset < j →
        extraEdges ((offset, parents) :: rest) j = extraEdges rest j := by
      intro j hj
      rw [extraEdges, explicitParents, lookup_cons_of_ne (by omega)]
      rfl
    -- the sum up to an event from the override on
    have hsum : ∀ lv, offset ≤ lv →
        ∑ j ∈ Finset.Ico next (lv + 1), extraEdges ((offset, parents) :: rest) j =
          (parents.length - if 0 < offset then 1 else 0) +
            ∑ j ∈ Finset.Ico (offset + 1) (lv + 1), extraEdges rest j := by
      intro lv hlv
      rw [← Finset.sum_Ico_consecutive _ hle (by omega : offset ≤ lv + 1),
        Finset.sum_eq_sum_Ico_succ_bot (by omega : offset < lv + 1), hown,
        Finset.sum_eq_zero fun j hj => hbefore j (Finset.mem_Ico.mp hj).2, Int.zero_add]
      congr 1
      apply Finset.sum_congr rfl
      intro j hj
      exact hafter j (Finset.mem_Ico.mp hj).1
    rw [EdgesFit]
    constructor
    · intro h lv hnext hcount
      by_cases hbeyond : offset ≤ lv
      · rw [hsum lv hbeyond]
        by_cases heq : lv = offset
        · rw [heq, Finset.Ico_self, Finset.sum_empty]
          have := h.1
          omega
        · have hall := (ih hrest hlater h.1).mp h.2 lv (by omega) hcount
          omega
      · rw [Finset.sum_eq_zero fun j hj => hbefore j (by
          have := (Finset.mem_Ico.mp hj).2
          omega)]
        omega
    · intro h
      have hhere := h offset hle hlt
      rw [hsum offset (Nat.le_refl _), Finset.Ico_self, Finset.sum_empty] at hhere
      refine ⟨by omega, ?_⟩
      apply (ih hrest hlater (by omega)).mpr
      intro lv hlv hcount
      have hall := h lv (by omega) hcount
      rw [hsum lv (by omega)] at hall
      omega

/-- The edges of the events up to `lv`, and one for each later event. -/
def edgesAt (count : Nat) (overrides : List (Nat × List Nat)) (lv : Nat) : Nat :=
  ∑ j ∈ Finset.range (lv + 1), (explicitParents overrides j).length + (count - 1 - lv)

theorem edgesFit_iff_edgesAt {count : Nat}
    (hascending : overrides.Pairwise fun entry other => entry.1 < other.1)
    (hbounds : ∀ entry ∈ overrides, entry.1 < count) (hcount : count ≤ egw4MaxEvents) :
    EdgesFit (count - 1 : Nat) overrides ↔
      ∀ lv < count, edgesAt count overrides lv ≤ uint32Max := by
  have hmax : uint32Max = 0xffffffff := rfl
  have hevents : egw4MaxEvents = 33554432 := rfl
  rw [edgesFit_iff hascending (fun entry hentry => ⟨Nat.zero_le _, hbounds entry hentry⟩)
    (by omega)]
  have hpredecessors : ∀ lv : Nat, ∑ j ∈ Finset.range (lv + 1), (if 0 < j then (1 : Int) else 0) =
      lv := by
    intro lv
    rw [Finset.sum_range_succ']
    simp
  have hsum : ∀ lv : Nat, ∑ j ∈ Finset.Ico 0 (lv + 1), extraEdges overrides j =
      (∑ j ∈ Finset.range (lv + 1), (explicitParents overrides j).length : Nat) - (lv : Int) := by
    intro lv
    rw [← Finset.range_eq_Ico, ← hpredecessors lv, Nat.cast_sum, ← Finset.sum_sub_distrib]
    rfl
  constructor
  · intro h lv hlv
    have hall := h lv (Nat.zero_le _) hlv
    rw [hsum] at hall
    rw [edgesAt]
    omega
  · intro h lv _ hlv
    have hall := h lv hlv
    rw [edgesAt] at hall
    rw [hsum]
    omega

end Edges

theorem OverridesValid.explicit {count : Nat} {overrides : List (Nat × List Nat)}
    (h : OverridesValid count 0 overrides) : ExplicitParents count overrides where
  ascending := h.ascending
  lt lv parents hmem := (h.bounds (lv, parents) hmem).2
  earlier lv parents hmem := (h.parents (lv, parents) hmem).1

theorem lookup_parentOverrides (n position : Nat) (rows : List Egw4Row) :
    (parentOverrides n rows).lookup (n + position) =
      rows[position]?.bind (·.overrideParents) := by
  induction rows generalizing n position with
  | nil => rfl
  | cons row rest ih =>
    have hlater : ∀ entry ∈ parentOverrides (n + 1) rest, n + 1 ≤ entry.1 := by
      intro entry hentry
      obtain ⟨offset, parents⟩ := entry
      obtain ⟨k, -, heq, -⟩ := mem_parentOverrides hentry
      omega
    rw [parentOverrides]
    cases position with
    | zero =>
      rw [getElem?_cons_zero, Option.bind_some, Nat.add_zero]
      cases row.overrideParents with
      | none => exact lookup_eq_none_of_lt hlater (Nat.lt_succ_self n)
      | some parents => rw [lookup_cons, beq_self_eq_true]
    | succ position =>
      rw [getElem?_cons_succ, ← ih (n + 1) position]
      have hadd : n + (position + 1) = n + 1 + position := by omega
      cases row.overrideParents with
      | none => rw [hadd]
      | some parents => rw [lookup_cons_of_ne (by omega), hadd]

theorem parentOverrides_ascending (n : Nat) (rows : List Egw4Row) :
    (parentOverrides n rows).Pairwise fun entry other => entry.1 < other.1 := by
  induction rows generalizing n with
  | nil => exact List.Pairwise.nil
  | cons row rest ih =>
    rw [parentOverrides]
    cases row.overrideParents with
    | none => exact ih (n + 1)
    | some parents =>
      apply pairwise_cons.mpr
      refine ⟨?_, ih (n + 1)⟩
      intro entry hentry
      obtain ⟨offset, others⟩ := entry
      obtain ⟨k, -, heq, -⟩ := mem_parentOverrides hentry
      simp only
      omega

namespace EncodedHolds

variable {state : EventEncoderState} {events : List GraphEvent}

theorem explicitParents_eq (h : EncodedHolds state events) {position : Nat} {event : GraphEvent}
    (hevent : events[position]? = some event) :
    explicitParents (parentOverrides 0 state.rows) position =
      event.parentVersion.ids.map state.positions.idxOf := by
  obtain ⟨hlt, hget⟩ := List.getElem?_eq_some_iff.mp hevent
  have hlengths : state.positions.length = events.length := by rw [h.positions, length_map]
  obtain ⟨row, hrow⟩ : ∃ row, state.rows[position]? = some row :=
    ⟨_, getElem?_eq_getElem (by rw [h.length_rows]; exact hlt)⟩
  obtain ⟨checked, -, hall, heq⟩ := h.row position event row hevent hrow
  have hlookup := lookup_parentOverrides 0 position state.rows
  rw [Nat.zero_add, hrow, Option.bind_some, heq] at hlookup
  have hindex : event.parentVersion.ids.map (state.positions.take position).idxOf =
      event.parentVersion.ids.map state.positions.idxOf := by
    apply map_congr_left
    intro parent hparent
    have hmem := hall parent hparent
    conv_rhs => rw [← take_append_drop position state.positions]
    rw [idxOf_append_of_mem hmem]
  rw [explicitParents, hlookup]
  cases hdefault : isDefaultParents (state.positions.take position) event.parentVersion.ids with
  | false =>
    rw [← hindex]
    rfl
  | true =>
    rw [isDefaultParents] at hdefault
    cases position with
    | zero =>
      rw [take_zero, getLast?_nil] at hdefault
      rw [of_decide_eq_true hdefault]
      rfl
    | succ position =>
      have hlast : (state.positions.take (position + 1)).getLast? = state.positions[position]? :=
        by rw [getLast?_eq_getElem?, length_take, Nat.min_eq_left (by omega),
          Nat.add_sub_cancel, getElem?_take_of_lt (Nat.lt_succ_self position)]
      rw [hlast, getElem?_eq_getElem (by omega)] at hdefault
      rw [of_decide_eq_true hdefault, map_singleton, map_singleton,
        List.Nodup.idxOf_getElem h.nodup position (by omega)]
      rfl

theorem overridesValid (h : EncodedHolds state events) :
    OverridesValid events.length 0 (parentOverrides 0 state.rows) := by
  have hlengths : state.positions.length = events.length := by rw [h.positions, length_map]
  refine ⟨parentOverrides_ascending 0 state.rows, ?_, ?_⟩
  · intro entry hentry
    obtain ⟨offset, parents⟩ := entry
    obtain ⟨k, row, heq, hget, -⟩ := mem_parentOverrides hentry
    have hlt := (List.getElem?_eq_some_iff.mp hget).1
    rw [h.length_rows] at hlt
    omega
  · intro entry hentry
    obtain ⟨offset, parents⟩ := entry
    obtain ⟨position, row, hposition, hget, hparents⟩ := mem_parentOverrides hentry
    rw [Nat.zero_add] at hposition
    obtain ⟨event, hevent, checked, -, hall, heq⟩ := h.rowAt hget
    have hlt := (List.getElem?_eq_some_iff.mp hevent).1
    rw [heq, CheckedEvent.row] at hparents
    simp only at hparents
    split at hparents
    · cases hparents
    next hdefault =>
      rw [hposition, ← Option.some.inj hparents]
      refine ⟨?_, ?_, ?_⟩
      · intro parent hparent
        obtain ⟨id, hid, rfl⟩ := mem_map.mp hparent
        have hindex := idxOf_lt_length_of_mem (hall id hid)
        rw [length_take] at hindex
        omega
      · apply event.parentVersion.nodup.map_on
        intro id hid other hother hsame
        have hfirst := getElem?_idxOf (hall id hid)
        rw [hsame, getElem?_idxOf (hall other hother)] at hfirst
        exact (Option.some.inj hfirst).symm
      · intro hsame
        apply hdefault
        simp only at hsame
        rw [isDefaultParents]
        cases hids : event.parentVersion.ids with
        | nil =>
          rw [hids, map_nil, defaultParents] at hsame
          split at hsame
          · next hzero =>
              rw [hzero, take_zero]
              rfl
          · cases hsame
        | cons id rest =>
          rw [hids, map_cons, defaultParents] at hsame
          split at hsame
          · cases hsame
          next hzero =>
            obtain ⟨hindex, hrest⟩ := List.cons.inj hsame
            have hmem := hall id (by rw [hids]; exact mem_cons_self)
            have hgetId := getElem?_idxOf hmem
            have hlast : (state.positions.take position).getLast? = some id := by
              rw [getLast?_eq_getElem?, length_take, Nat.min_eq_left (by omega),
                ← hindex, hgetId]
            rw [hlast, map_eq_nil_iff.mp hrest]
            exact decide_eq_true rfl

end EncodedHolds

end Softmaple.Codec
