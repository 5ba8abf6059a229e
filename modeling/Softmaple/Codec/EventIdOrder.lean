import Softmaple.Codec.EventIdText

/-!
The order of event ID strings (`graph/event-id.ts`). `splitTrailingSequence` is `parseEventId`: sixteen
digits are exact as doubles up to `2 ^ 53`, and no number above it rounds to a safe integer.
-/
namespace Softmaple.IdOrder

open Codec

def compareEventIds (left right : Text) : Int :=
  if left = right then 0
  else
    match parseEventId left, parseEventId right with
    | some (leftPrefix, leftSequence), some (rightPrefix, rightSequence) =>
      if leftPrefix ≠ rightPrefix then
        if leftPrefix < rightPrefix then -1 else 1
      else if leftSequence ≠ rightSequence then
        if leftSequence < rightSequence then -1 else 1
      else 0
    | some _, none => -1
    | none, some _ => 1
    | none, none => if left < right then -1 else 1

/-- `replicaId` is the prefix of a canonical ID. -/
structure EventIdSortKey where
  id : Text
  replicaId : Option Text
  sequence : Nat
  deriving DecidableEq, Repr

def createEventIdSortKey (id : Text) : EventIdSortKey where
  id := id
  replicaId := (parseEventId id).map (·.1)
  sequence := ((parseEventId id).map (·.2)).getD 0

def compareEventIdSortKeys (left right : EventIdSortKey) : Int :=
  if left.id = right.id then 0
  else
    match left.replicaId, right.replicaId with
    | some leftPrefix, some rightPrefix =>
      if leftPrefix ≠ rightPrefix then
        if leftPrefix < rightPrefix then -1 else 1
      else if left.sequence ≠ right.sequence then
        if left.sequence < right.sequence then -1 else 1
      else 0
    | some _, none => -1
    | none, some _ => 1
    | none, none => if left.id < right.id then -1 else 1

/-- The shape of an ID. -/
def parsed (id : Text) : EventId :=
  match parseEventId id with
  | some (replicaId, sequence) => .canonical replicaId sequence
  | none => .custom id

/-- A canonical ID is spelled in one way only. -/
theorem parsed_injective : Function.Injective parsed := by
  intro left right h
  rw [parsed, parsed] at h
  cases hleft : parseEventId left with
  | none =>
    rw [hleft] at h
    cases hright : parseEventId right with
    | none =>
      rw [hright] at h
      exact EventId.custom.inj h
    | some split =>
      rw [hright] at h
      cases h
  | some split =>
    rw [hleft] at h
    cases hright : parseEventId right with
    | none =>
      rw [hright] at h
      cases h
    | some other =>
      rw [hright] at h
      obtain ⟨hreplica, hsequence⟩ := EventId.canonical.inj h
      rw [(parseEventId_eq_some hleft).1, (parseEventId_eq_some hright).1, hreplica, hsequence]

theorem compareEventIds_eq (left right : Text) :
    compareEventIds left right = Softmaple.compareEventIds (parsed left) (parsed right) := by
  rw [compareEventIds, Softmaple.compareEventIds.eq_def]
  by_cases hsame : left = right
  · rw [if_pos hsame, if_pos (congrArg parsed hsame)]
  · rw [if_neg hsame, if_neg fun h => hsame (parsed_injective h), parsed, parsed]
    cases parseEventId left with
    | none =>
      cases parseEventId right with
      | none => rfl
      | some other => rfl
    | some split =>
      cases parseEventId right with
      | none => rfl
      | some other => rfl

theorem compareEventIdSortKeys_eq (left right : Text) :
    compareEventIdSortKeys (createEventIdSortKey left) (createEventIdSortKey right) =
      compareEventIds left right := by
  rw [compareEventIdSortKeys, compareEventIds, createEventIdSortKey, createEventIdSortKey]
  cases parseEventId left with
  | none =>
    cases parseEventId right with
    | none => rfl
    | some other => rfl
  | some split =>
    cases parseEventId right with
    | none => rfl
    | some other => rfl

theorem compareEventIds_neg_iff (left right : Text) :
    compareEventIds left right < 0 ↔ parsed left < parsed right := by
  rw [compareEventIds_eq, Softmaple.compareEventIds_neg_iff]

theorem compareEventIds_pos_iff (left right : Text) :
    0 < compareEventIds left right ↔ parsed right < parsed left := by
  rw [compareEventIds_eq, ← not_le, compareEventIds_le_iff, not_le]

theorem compareEventIds_eq_zero_iff (left right : Text) :
    compareEventIds left right = 0 ↔ left = right := by
  constructor
  · intro h
    rw [compareEventIds_eq] at h
    exact parsed_injective (eq_of_compareEventIds h)
  · exact fun h => if_pos h

/-- The comparator is a strict total order of all strings, and the sort keys compare the same. -/
theorem compareEventIds_totalOrder :
    (∀ left right, compareEventIds left right < 0 ↔ 0 < compareEventIds right left) ∧
      (∀ first second third, compareEventIds first second < 0 → compareEventIds second third < 0 →
        compareEventIds first third < 0) ∧
      (∀ left right, left ≠ right → compareEventIds left right < 0 ∨ compareEventIds right left < 0) ∧
      (∀ left right, compareEventIds left right = 0 ↔ left = right) ∧
      ∀ left right, (compareEventIdSortKeys (createEventIdSortKey left)
        (createEventIdSortKey right)).sign = (compareEventIds left right).sign := by
  refine ⟨?_, ?_, ?_, compareEventIds_eq_zero_iff, ?_⟩
  · intro left right
    rw [compareEventIds_neg_iff, compareEventIds_pos_iff]
  · intro first second third hfirst hsecond
    rw [compareEventIds_neg_iff] at hfirst hsecond ⊢
    exact hfirst.trans hsecond
  · intro left right hne
    rw [compareEventIds_neg_iff, compareEventIds_neg_iff]
    exact lt_or_gt_of_ne fun h => hne (parsed_injective h)
  · intro left right
    rw [compareEventIdSortKeys_eq]

end Softmaple.IdOrder
