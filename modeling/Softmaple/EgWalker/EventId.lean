import Mathlib.Data.List.Lex
import Mathlib.Data.Prod.Lex
import Mathlib.Data.Sum.Order
import Mathlib.Order.Fin.Basic
import Softmaple.Lib.Utf8

/-!
UTF-16 text as the editor stores it: documents, inserted text and indexes are
counted in code units. Ropes are values of this type; their node structure is
not modelled.
-/
namespace Softmaple

abbrev CodeUnit := Fin 0x10000
abbrev Text := List CodeUnit

def maxSafeInteger : Nat := 9007199254740991

def isSafeInteger (n : Nat) : Bool := n ≤ maxSafeInteger

theorem isSafeInteger_zero : isSafeInteger 0 = true := rfl

def isHighSurrogate (codeUnit : CodeUnit) : Bool :=
  0xd800 ≤ codeUnit.val && codeUnit.val ≤ 0xdbff

def isLowSurrogate (codeUnit : CodeUnit) : Bool :=
  0xdc00 ≤ codeUnit.val && codeUnit.val ≤ 0xdfff

def isSurrogate (codeUnit : CodeUnit) : Bool :=
  isHighSurrogate codeUnit || isLowSurrogate codeUnit

def containsUtf16SurrogateCodeUnit (text : Text) : Bool := text.any isSurrogate

namespace Text

def splice (text : Text) (index : Nat) (insertText : Text) : Text :=
  text.take index ++ insertText ++ text.drop index

def delete (text : Text) (index length : Nat) : Text :=
  text.take index ++ text.drop (index + length)

/-- Whether `index` falls between the halves of a surrogate pair. -/
def splitsScalar (text : Text) (index : Nat) : Bool :=
  match index with
  | 0 => false
  | before + 1 =>
    match text[before]?, text[before + 1]? with
    | some high, some low => isHighSurrogate high && isLowSurrogate low
    | _, _ => false

theorem splice_nil (text : Text) (index : Nat) : splice text index [] = text := by
  simp [splice]

theorem splitsScalar_false_of_plain (text : Text) (index : Nat)
    (h : containsUtf16SurrogateCodeUnit text = false) :
    splitsScalar text index = false := by
  cases index with
  | zero => rfl
  | succ before =>
    simp only [splitsScalar]
    split
    · next high low hh hl =>
        have hm : high ∈ text := List.mem_of_getElem? hh
        have hp : isSurrogate high = false := by
          simpa using List.any_eq_false.mp h high hm
        simp only [isSurrogate, Bool.or_eq_false_iff] at hp
        simp [hp.1]
    · rfl

end Text
end Softmaple

/-!
Event IDs and their order (`graph/event-id.ts`). An ID either parses as a
canonical `replicaId:sequence` or is custom; the two shapes are kept apart, as
`compareEventIds` keeps them, instead of the string they are parsed from.
-/
namespace Softmaple

inductive EventId where
  | canonical (replicaId : Text) (sequence : Nat)
  | custom (id : Text)
  deriving DecidableEq, Repr

namespace EventId

def sortKey : EventId → (Text ×ₗ Nat) ⊕ₗ Text
  | .canonical replicaId sequence => toLex (.inl (toLex (replicaId, sequence)))
  | .custom id => toLex (.inr id)

theorem sortKey_injective : Function.Injective sortKey := by
  intro a b h
  cases a <;> cases b <;> simp_all [sortKey]

instance : LinearOrder EventId := LinearOrder.lift' sortKey sortKey_injective

end EventId

/-- -1, 0 or 1, as a comparator of `Array.sort` returns it. -/
def compareEventIds (left right : EventId) : Int :=
  if left = right then 0
  else
    match left, right with
    | .canonical leftPrefix leftSequence, .canonical rightPrefix rightSequence =>
      if leftPrefix ≠ rightPrefix then
        if leftPrefix < rightPrefix then -1 else 1
      else if leftSequence ≠ rightSequence then
        if leftSequence < rightSequence then -1 else 1
      else 0
    | .canonical _ _, .custom _ => -1
    | .custom _, .canonical _ _ => 1
    | .custom left, .custom right => if left < right then -1 else 1

namespace EventId

theorem canonical_lt_canonical (p q : Text) (m n : Nat) :
    canonical p m < canonical q n ↔ p < q ∨ p = q ∧ m < n := by
  change sortKey _ < sortKey _ ↔ _
  simp [sortKey, Prod.Lex.toLex_lt_toLex]

theorem canonical_lt_custom (p q : Text) (m : Nat) : canonical p m < custom q := by
  change sortKey _ < sortKey _
  simp [sortKey]

theorem custom_lt_custom (p q : Text) : custom p < custom q ↔ p < q := by
  change sortKey _ < sortKey _ ↔ _
  simp [sortKey]

end EventId

theorem compareEventIds_neg_iff (left right : EventId) :
    compareEventIds left right < 0 ↔ left < right := by
  unfold compareEventIds
  by_cases heq : left = right
  · simp [heq]
  · rw [if_neg heq]
    cases left with
    | canonical p m =>
      cases right with
      | canonical q n =>
        simp only [EventId.canonical_lt_canonical]
        by_cases hp : p = q
        · subst hp
          by_cases hm : m = n
          · exact (heq (by rw [hm])).elim
          · by_cases hl : m < n <;> simp [hm, hl]
        · by_cases hl : p < q <;> simp [hp, hl]
      | custom q => simp [EventId.canonical_lt_custom]
    | custom p =>
      cases right with
      | canonical q n => simp [(EventId.canonical_lt_custom q p n).le]
      | custom q =>
        simp only [EventId.custom_lt_custom]
        by_cases hl : p < q <;> simp [hl]

theorem eq_of_compareEventIds {left right : EventId} (h : compareEventIds left right = 0) :
    left = right := by
  by_contra hne
  rw [compareEventIds.eq_def, if_neg hne] at h
  cases left with
  | canonical p m =>
    cases right with
    | canonical q n =>
      by_cases hp : p = q
      · by_cases hm : m = n
        · exact hne (by rw [hp, hm])
        · simp only [hp, ne_eq, not_true_eq_false, if_false, hm, not_false_eq_true,
            if_true] at h
          split at h <;> cases h
      · simp only [hp, ne_eq, not_false_eq_true, if_true] at h
        split at h <;> cases h
    | custom q => cases h
  | custom p =>
    cases right with
    | canonical q n => cases h
    | custom q =>
      simp only at h
      split at h <;> cases h

theorem compareEventIds_le_iff (left right : EventId) :
    compareEventIds left right ≤ 0 ↔ left ≤ right := by
  by_cases heq : left = right
  · rw [heq, compareEventIds.eq_def, if_pos rfl]
    simp
  · have hzero : compareEventIds left right ≠ 0 := fun h => heq (eq_of_compareEventIds h)
    have hlt := compareEventIds_neg_iff left right
    rw [le_iff_lt_or_eq (a := left), ← hlt]
    constructor
    · exact fun hle => .inl (lt_of_le_of_ne hle hzero)
    · exact fun hor => (hor.resolve_right heq).le

end Softmaple
