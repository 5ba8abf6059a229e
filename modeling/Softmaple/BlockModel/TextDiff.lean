import Softmaple.BlockModel.SegmentTokens

/-!
The change between two texts (`block-model/src/text-diff.ts`): one splice, found by counting equal code
units from both ends and backing off where a surrogate pair would be cut.
-/
namespace Softmaple.BlockModel

open List

structure TextChange where
  start : Nat
  oldTo : Nat
  insert : Text
  deriving DecidableEq, Repr

def countSame (same : Nat → Bool) : Nat → Nat → Nat
  | 0, count => count
  | fuel + 1, count => if same count then countSame same fuel (count + 1) else count

/-- The pair test is the one of `segment-layout.ts`. -/
def diffText (before after : Text) : Option TextChange :=
  if before = after then none
  else
    let shorter := min before.length after.length
    let counted := countSame (fun place => decide (before[place]? = after[place]?)) shorter 0
    let front := if splitsSurrogatePair before counted then counted - 1 else counted
    let matched := countSame (fun place => decide (before[before.length - place - 1]? =
      after[after.length - place - 1]?)) (shorter - front) 0
    let back := if splitsSurrogatePair before (before.length - matched) then matched - 1 else matched
    some ⟨front, before.length - back, (after.take (after.length - back)).drop front⟩

def TextChange.apply (change : TextChange) (before : Text) : Text :=
  before.take change.start ++ change.insert ++ before.drop change.oldTo

/-- A half of a surrogate pair without the other half. -/
def Unpaired (text : Text) (place : Nat) : Prop :=
  (∃ high, text[place]? = some high ∧ Utf8.isHigh high = true ∧
    ∀ low, text[place + 1]? = some low → Utf8.isLow low = false) ∨
  ∃ low, text[place]? = some low ∧ Utf8.isLow low = true ∧
    ∀ high, 0 < place → text[place - 1]? = some high → Utf8.isHigh high = false

/-- What can be kept of a text at its ends, cut at code points of the text before. -/
structure Keeps (before after : Text) (front back : Nat) : Prop where
  fitsBefore : front + back ≤ before.length
  fitsAfter : front + back ≤ after.length
  sameFront : before.take front = after.take front
  sameBack : before.drop (before.length - back) = after.drop (after.length - back)
  startBoundary : splitsSurrogatePair before front = false
  endBoundary : splitsSurrogatePair before (before.length - back) = false

variable {before after text : Text} {front back place : Nat}

theorem countSame_spec (same : Nat → Bool) (fuel count : Nat) :
    count ≤ countSame same fuel count ∧ countSame same fuel count ≤ count + fuel ∧
      (∀ place, count ≤ place → place < countSame same fuel count → same place = true) ∧
      (countSame same fuel count < count + fuel → same (countSame same fuel count) = false) := by
  induction fuel generalizing count with
  | zero =>
    refine ⟨Nat.le_refl _, Nat.le_refl _, fun place hle hlt => ?_, fun hlt => ?_⟩
    · exact absurd hlt (Nat.not_lt.mpr hle)
    · exact absurd hlt (Nat.lt_irrefl _)
  | succ fuel ih =>
    rw [countSame]
    split
    · next hsame =>
        obtain ⟨hle, hlast, hall, hend⟩ := ih (count + 1)
        refine ⟨by omega, by omega, fun place hplace hlt => ?_, fun hlt => hend (by omega)⟩
        rcases Nat.eq_or_lt_of_le hplace with rfl | hlater
        · exact hsame
        · exact hall place hlater hlt
    · next hother =>
        refine ⟨Nat.le_refl _, by omega, fun place hle hlt => ?_, fun _ => Bool.eq_false_iff.mpr hother⟩
        exact absurd hlt (Nat.not_lt.mpr hle)

section Boundaries

theorem splitsSurrogatePair_iff : splitsSurrogatePair text place = true ↔ 0 < place ∧
    ∃ high low, text[place - 1]? = some high ∧ text[place]? = some low ∧
      Utf8.isHigh high = true ∧ Utf8.isLow low = true := by
  rw [splitsSurrogatePair]
  simp only [Bool.and_eq_true, decide_eq_true_eq, Option.any_eq_true]
  constructor
  · intro ⟨⟨hpos, _⟩, ⟨high, hhigh, hishigh⟩, low, hlow, hislow⟩
    exact ⟨hpos, high, low, hhigh, hlow, hishigh, hislow⟩
  · intro ⟨hpos, high, low, hhigh, hlow, hishigh, hislow⟩
    exact ⟨⟨hpos, (List.getElem?_eq_some_iff.mp hlow).1⟩, ⟨high, hhigh, hishigh⟩, low, hlow, hislow⟩

theorem splits_apart (h : splitsSurrogatePair text place = true) :
    splitsSurrogatePair text (place - 1) = false ∧ splitsSurrogatePair text (place + 1) = false := by
  obtain ⟨hpos, high, low, hhigh, hlow, hishigh, hislow⟩ := splitsSurrogatePair_iff.mp h
  rw [Bool.eq_false_iff, Bool.eq_false_iff, Ne, Ne, splitsSurrogatePair_iff, splitsSurrogatePair_iff]
  constructor
  · intro ⟨_, _, other, _, hother, _, hotherLow⟩
    obtain rfl := Option.some.inj (hhigh.symm.trans hother)
    rw [Utf8.isHigh_isLow high hishigh] at hotherLow
    cases hotherLow
  · intro ⟨_, other, _, hother, _, hotherHigh, _⟩
    rw [Nat.add_sub_cancel] at hother
    obtain rfl := Option.some.inj (hlow.symm.trans hother)
    rw [Utf8.isHigh_isLow low hotherHigh] at hislow
    cases hislow

theorem wellFormed_parts (h : Utf8.wellFormed text = true) (hcut : splitsSurrogatePair text place = false) :
    Utf8.wellFormed (text.take place) = true ∧ Utf8.wellFormed (text.drop place) = true := by
  refine Utf8.wellFormed_cut (by rwa [take_append_drop]) fun high hhigh low hlow hishigh => ?_
  rw [Bool.eq_false_iff] at hcut ⊢
  intro hislow
  rw [Option.mem_def, head?_drop] at hlow
  have hlt := (List.getElem?_eq_some_iff.mp hlow).1
  rw [Option.mem_def, getLast?_eq_getElem?, length_take, Nat.min_eq_left (Nat.le_of_lt hlt)] at hhigh
  rcases Nat.eq_zero_or_pos place with rfl | hpos
  · rw [take_zero] at hhigh
    cases hhigh
  · rw [getElem?_take_of_lt (Nat.sub_lt hpos Nat.one_pos)] at hhigh
    exact hcut (splitsSurrogatePair_iff.mpr ⟨hpos, high, low, hhigh, hlow, hishigh, hislow⟩)

theorem not_unpaired (h : Utf8.wellFormed text = true) : ¬ Unpaired text place := by
  rintro (⟨high, hhigh, hishigh, hnone⟩ | ⟨low, hlow, hislow, hnone⟩)
  · have hlt := (List.getElem?_eq_some_iff.mp hhigh).1
    have hcut : splitsSurrogatePair text (place + 1) = false := by
      rw [Bool.eq_false_iff, Ne, splitsSurrogatePair_iff]
      intro ⟨_, _, other, _, hother, _, hotherLow⟩
      rw [hnone other hother] at hotherLow
      cases hotherLow
    have hends := (Utf8.wellFormed_ends (wellFormed_parts h hcut).1).2 high
    rw [hends ?_] at hishigh
    · cases hishigh
    · rw [Option.mem_def, getLast?_eq_getElem?, length_take, Nat.min_eq_left hlt,
        Nat.succ_sub_one, getElem?_take_of_lt (Nat.lt_succ_self place), hhigh]
  · have hcut : splitsSurrogatePair text place = false := by
      rw [Bool.eq_false_iff, Ne, splitsSurrogatePair_iff]
      intro ⟨hpos, other, _, hother, _, hotherHigh, _⟩
      rw [hnone other hpos hother] at hotherHigh
      cases hotherHigh
    have hends := (Utf8.wellFormed_ends (wellFormed_parts h hcut).2).1 low
    rw [hends ?_] at hislow
    · cases hislow
    · rw [Option.mem_def, head?_drop, hlow]

theorem unpaired_middle {first middle last : Text} (hfirst : Utf8.wellFormed first = true)
    (hlast : Utf8.wellFormed last = true) (h : Unpaired (first ++ middle ++ last) place) :
    first.length ≤ place ∧ place < first.length + middle.length := by
  constructor
  · by_contra hbefore
    rw [Nat.not_le] at hbefore
    refine @not_unpaired first place hfirst ?_
    rw [append_assoc] at h
    rcases h with ⟨high, hhigh, hishigh, hnone⟩ | ⟨low, hlow, hislow, hnone⟩
    · rw [List.getElem?_append_left hbefore] at hhigh
      refine .inl ⟨high, hhigh, hishigh, fun low hlow => hnone low ?_⟩
      rwa [List.getElem?_append_left (List.getElem?_eq_some_iff.mp hlow).1]
    · rw [List.getElem?_append_left hbefore] at hlow
      refine .inr ⟨low, hlow, hislow, fun high hpos hhigh => hnone high hpos ?_⟩
      rwa [List.getElem?_append_left (by omega)]
  · by_contra hafter
    rw [Nat.not_lt, ← length_append] at hafter
    refine @not_unpaired last (place - (first ++ middle).length) hlast ?_
    rcases h with ⟨high, hhigh, hishigh, hnone⟩ | ⟨low, hlow, hislow, hnone⟩
    · rw [getElem?_append_right hafter] at hhigh
      refine .inl ⟨high, hhigh, hishigh, fun low hlow => hnone low ?_⟩
      rwa [getElem?_append_right (by omega), Nat.sub_add_comm hafter]
    · rw [getElem?_append_right hafter] at hlow
      refine .inr ⟨low, hlow, hislow, fun high hpos hhigh => hnone high (by omega) ?_⟩
      rwa [getElem?_append_right (by omega), Nat.sub_right_comm]

end Boundaries

section Counts

/-- Where the units are the same up to a count, the texts start the same. -/
theorem take_of_same (hbefore : front ≤ before.length) (hafter : front ≤ after.length)
    (hsame : ∀ place < front, before[place]? = after[place]?) : before.take front = after.take front := by
  refine ext_getElem? fun place => ?_
  by_cases hlt : place < front
  · rw [getElem?_take_of_lt hlt, getElem?_take_of_lt hlt, hsame place hlt]
  · rw [getElem?_eq_none (by rw [length_take]; omega),
      getElem?_eq_none (by rw [length_take]; omega)]

theorem drop_of_same (hbefore : back ≤ before.length) (hafter : back ≤ after.length)
    (hsame : ∀ place < back, before[before.length - place - 1]? = after[after.length - place - 1]?) :
    before.drop (before.length - back) = after.drop (after.length - back) := by
  refine ext_getElem? fun place => ?_
  rw [getElem?_drop, getElem?_drop]
  by_cases hlt : place < back
  · have hunit := hsame (back - 1 - place) (by omega)
    rwa [show before.length - (back - 1 - place) - 1 = before.length - back + place by omega,
      show after.length - (back - 1 - place) - 1 = after.length - back + place by omega] at hunit
  · rw [getElem?_eq_none (by omega), getElem?_eq_none (by omega)]

theorem Keeps.same_front (h : Keeps before after front back) (hplace : place < front) :
    before[place]? = after[place]? := by
  rw [← getElem?_take_of_lt hplace, h.sameFront, getElem?_take_of_lt hplace]

theorem Keeps.same_back (h : Keeps before after front back) (hplace : place < back) :
    before[before.length - place - 1]? = after[after.length - place - 1]? := by
  have hunit := congrArg (fun units : Text => units[back - 1 - place]?) h.sameBack
  have hfits := h.fitsBefore
  have hafter := h.fitsAfter
  rwa [getElem?_drop, getElem?_drop,
    show before.length - back + (back - 1 - place) = before.length - place - 1 by omega,
    show after.length - back + (back - 1 - place) = after.length - place - 1 by omega] at hunit

end Counts

theorem diffText_keeps {change : TextChange} (h : diffText before after = some change) :
    ∃ front back, change = ⟨front, before.length - back, (after.take (after.length - back)).drop front⟩ ∧
      Keeps before after front back ∧ (∀ longer, front < longer → ¬ Keeps before after longer back) ∧
      ∀ longer, back < longer → ¬ Keeps before after front longer := by
  rw [diffText] at h
  split at h
  · cases h
  dsimp only at h
  generalize hcounted : countSame (fun place => decide (before[place]? = after[place]?))
    (min before.length after.length) 0 = counted at h
  obtain ⟨-, hcountedLe, hcountedSame, hcountedEnd⟩ :=
    countSame_spec (fun place => decide (before[place]? = after[place]?)) (min before.length after.length) 0
  rw [hcounted] at hcountedLe hcountedSame hcountedEnd
  generalize hfront : (if splitsSurrogatePair before counted = true then counted - 1 else counted) = front at h
  have hfrontLe : front ≤ counted ∧ splitsSurrogatePair before front = false ∧
      ∀ longer, front < longer → longer ≤ counted → splitsSurrogatePair before longer = true := by
    subst hfront
    split
    · next hsplits =>
        refine ⟨Nat.sub_le _ _, (splits_apart hsplits).1, fun longer hlonger hle => ?_⟩
        obtain rfl : longer = counted := by omega
        exact hsplits
    · next hwhole => exact ⟨Nat.le_refl _, Bool.eq_false_iff.mpr hwhole, fun _ _ _ => by omega⟩
  generalize hmatched : countSame (fun place => decide (before[before.length - place - 1]? =
    after[after.length - place - 1]?)) (min before.length after.length - front) 0 = matched at h
  obtain ⟨-, hmatchedLe, hmatchedSame, hmatchedEnd⟩ := countSame_spec (fun place =>
    decide (before[before.length - place - 1]? = after[after.length - place - 1]?))
    (min before.length after.length - front) 0
  rw [hmatched] at hmatchedLe hmatchedSame hmatchedEnd
  generalize hback : (if splitsSurrogatePair before (before.length - matched) = true then matched - 1
    else matched) = back at h
  have hbackLe : back ≤ matched ∧ splitsSurrogatePair before (before.length - back) = false ∧
      ∀ longer, back < longer → longer ≤ matched →
        splitsSurrogatePair before (before.length - longer) = true := by
    subst hback
    split
    · next hsplits =>
        obtain ⟨-, -, low, -, hlow, -⟩ := splitsSurrogatePair_iff.mp hsplits
        have hlt := (List.getElem?_eq_some_iff.mp hlow).1
        refine ⟨Nat.sub_le _ _, ?_, fun longer hlonger hle => ?_⟩
        · rw [show before.length - (matched - 1) = before.length - matched + 1 by omega]
          exact (splits_apart hsplits).2
        · obtain rfl : longer = matched := by omega
          exact hsplits
    · next hwhole => exact ⟨Nat.le_refl _, Bool.eq_false_iff.mpr hwhole, fun _ _ _ => by omega⟩
  refine ⟨front, back, (Option.some.inj h).symm, ⟨by omega, by omega, ?_, ?_, hfrontLe.2.1, hbackLe.2.1⟩, ?_, ?_⟩
  · exact take_of_same (by omega) (by omega) fun place hlt =>
      of_decide_eq_true (hcountedSame place (Nat.zero_le _) (by omega))
  · exact drop_of_same (by omega) (by omega) fun place hlt =>
      of_decide_eq_true (hmatchedSame place (Nat.zero_le _) (by omega))
  · -- past the count the units differ, before it a pair would be cut
    intro longer hlonger hkeeps
    have hboundary := hkeeps.startBoundary
    by_cases hle : longer ≤ counted
    · rw [hfrontLe.2.2 longer hlonger hle] at hboundary
      cases hboundary
    · have hbefore := hkeeps.fitsBefore
      have hafter := hkeeps.fitsAfter
      exact of_decide_eq_false (hcountedEnd (by omega)) (hkeeps.same_front (by omega))
  · intro longer hlonger hkeeps
    have hboundary := hkeeps.endBoundary
    by_cases hle : longer ≤ matched
    · rw [hbackLe.2.2 longer hlonger hle] at hboundary
      cases hboundary
    · have hbefore := hkeeps.fitsBefore
      have hafter := hkeeps.fitsAfter
      exact of_decide_eq_false (hmatchedEnd (by omega)) (hkeeps.same_back (by omega))

theorem diffText_eq_none : diffText before after = none ↔ before = after := by
  rw [diffText]
  split
  · next hsame => exact ⟨fun _ => hsame, fun _ => rfl⟩
  · next hother => exact ⟨nofun, fun hsame => absurd hsame hother⟩

/-- A text is what is kept of it around its middle. -/
theorem Keeps.parts (h : Keeps before after front back) :
    before.take front ++ (after.take (after.length - back)).drop front ++
      before.drop (before.length - back) = after := by
  have hafter := h.fitsAfter
  rw [h.sameFront, h.sameBack, show after.take front = (after.take (after.length - back)).take front by
    rw [take_take, Nat.min_eq_left (by omega)], take_append_drop, take_append_drop]

/-- The change is a sound splice between code points, and none that keeps more at one end exists. -/
theorem diffText_spec (before after : Text) (hbefore : Utf8.wellFormed before = true) :
    (diffText before after = none ↔ before = after) ∧
    ∀ change, diffText before after = some change → change.apply before = after ∧
      change.start ≤ change.oldTo ∧ change.oldTo ≤ before.length ∧
      splitsSurrogatePair before change.start = false ∧ splitsSurrogatePair before change.oldTo = false ∧
      (∀ place, Unpaired after place →
        change.start ≤ place ∧ place < change.start + change.insert.length) ∧
      (Utf8.wellFormed after = true → Utf8.wellFormed change.insert = true ∧
        (∀ longer, change.start < longer →
          ¬ Keeps before after longer (before.length - change.oldTo)) ∧
        ∀ longer, before.length - change.oldTo < longer → ¬ Keeps before after change.start longer) := by
  refine ⟨diffText_eq_none, fun change hchange => ?_⟩
  obtain ⟨front, back, rfl, hkeeps, hfront, hback⟩ := diffText_keeps hchange
  have hfits := hkeeps.fitsBefore
  have hparts := hkeeps.parts
  have hfirst := (wellFormed_parts hbefore hkeeps.startBoundary).1
  have hlast := (wellFormed_parts hbefore hkeeps.endBoundary).2
  have hlength : (before.take front).length = front := length_take_of_le (by omega)
  dsimp only
  rw [show before.length - (before.length - back) = back by omega]
  refine ⟨hparts, by omega, by omega, hkeeps.startBoundary, hkeeps.endBoundary, fun place hplace => ?_,
    fun hafter => ⟨?_, hfront, hback⟩⟩
  · rw [← hparts] at hplace
    rw [← hlength]
    have hmiddle := unpaired_middle hfirst hlast hplace
    rwa [hlength] at hmiddle ⊢
  · rw [← hparts, append_assoc, Utf8.wellFormed_append hfirst] at hafter
    refine (Utf8.wellFormed_cut hafter fun high _ low hlow _ => ?_).1
    exact (Utf8.wellFormed_ends hlast).1 low hlow

/-- The first halves of the two pairs are the same, and stay with their second halves. -/
theorem diffText_spec_pair : ∃ change, diffText [97, 0xd83d, 0xde00, 98] [97, 0xd83d, 0xde01, 98] = some change ∧
    change.apply [97, 0xd83d, 0xde00, 98] = [97, 0xd83d, 0xde01, 98] ∧
    Utf8.wellFormed change.insert = true := by
  have hspec := (diffText_spec [97, 0xd83d, 0xde00, 98] [97, 0xd83d, 0xde01, 98] (by decide)).2
    ⟨1, 3, [0xd83d, 0xde01]⟩ (by decide)
  exact ⟨⟨1, 3, [0xd83d, 0xde01]⟩, by decide, hspec.1, (hspec.2.2.2.2.2.2 (by decide)).1⟩

end Softmaple.BlockModel
